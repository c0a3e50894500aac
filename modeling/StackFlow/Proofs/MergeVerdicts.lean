import Mathlib.Data.List.Permutation
import StackFlow.Proofs.ReportForm

/-!
# What a report says of the blocks where paths meet

For each block where the listed paths meet, an analysis comes to one verdict: the paths agree; or
they do not, and a policy chooses a balance or refuses, or there is none; or the paths cannot be
reconciled. Reconciling one block adds what its verdict asks for to the lists of the report
(`fst_reconcile`), so that all lists can be read off the verdicts (`fst_reconcileAll`, `settles`).
So a report lists just the merge nodes of its paths (`Settles.hasMerge_iff`). The queries on a
report follow: which blocks are ambiguous (`Settles.mem_ambiguous_iff`), and whether there is a
complaint (`Report.error?_eq_none_iff`).
-/

namespace StackFlow

/-- What comes of a block where paths meet. -/
inductive Verdict where
  /-- The paths have one balance. -/
  | agreed (merge : Merge) (balance : Balance)
  /-- The paths disagree, and the policy chose a balance. -/
  | resolved (merge : Merge) (balance : Balance)
  /-- The paths disagree, and there is no policy. -/
  | unresolved (merge : Merge)
  /-- The paths disagree, and the policy refused to choose. -/
  | refused (merge : Merge) (reason : String)
  /-- The paths cannot be reconciled. -/
  | irreconcilable (error : BalanceError)

namespace Verdict

/-- The merge that a report lists. -/
@[simp]
def merge? : Verdict → Option Merge
  | .agreed m _ | .resolved m _ | .unresolved m | .refused m _ => some m
  | .irreconcilable _ => none

/-- The choice that a report lists. -/
@[simp]
def choice? : Verdict → Option Balance
  | .resolved _ b => some b
  | _ => none

/-- The failure that a report lists. -/
@[simp]
def failure? (n : BlockId) : Verdict → Option Failure
  | .refused _ reason => some ⟨n, .choice (.refused n reason)⟩
  | .irreconcilable e => some ⟨n, .balance e⟩
  | _ => none

/-- A failure names the block that the verdict is on. -/
theorem node_of_failure? {n : BlockId} {v : Verdict} {f : Failure} (h : v.failure? n = some f) :
    f.node = n := by
  cases v with
  | refused m reason => exact Option.some.inj h ▸ rfl
  | irreconcilable e => exact Option.some.inj h ▸ rfl
  | _ => exact absurd h (by nofun)

end Verdict

namespace Report

variable {r : Report}

/-- Where a report lists a block, given what came of it. -/
def Lists (r : Report) (n : BlockId) : Verdict → Prop
  | .agreed m _ | .unresolved m =>
    m ∈ r.merges ∧ n ∉ r.failures.map (·.node) ∧ r.resolved.get? n = none
  | .resolved m b =>
    m ∈ r.merges ∧ n ∉ r.failures.map (·.node) ∧ r.resolved.get? n = some b
  | .refused m reason =>
    m ∈ r.merges ∧ ⟨n, .choice (.refused n reason)⟩ ∈ r.failures ∧ r.resolved.get? n = none
  | .irreconcilable e =>
    n ∉ r.merges.map (·.node) ∧ ⟨n, .balance e⟩ ∈ r.failures ∧ r.resolved.get? n = none

/-- A report with what a verdict on a block adds to its lists. -/
def note (r : Report) (n : BlockId) (v : Verdict) : Report :=
  { r with
    merges := r.merges ++ v.merge?.toList
    resolved := v.choice?.elim r.resolved (r.resolved.insert n)
    failures := r.failures ++ (v.failure? n).toList }

/-- A verdict is noted with its choice, and the choices of other blocks stay. -/
theorem get?_resolved_note (r : Report) (n k : BlockId) (v : Verdict) :
    (r.note n v).resolved.get? k =
      if k = n then v.choice?.or (r.resolved.get? k) else r.resolved.get? k := by
  unfold note
  cases v.choice? with
  | none => rw [Option.elim_none, Option.none_or, ite_self]
  | some b => rw [Option.elim_some, SortedMap.get?_insert, Option.some_or]

/-- A merge is open if its paths disagree and nothing was chosen for its block. -/
theorem isOpen_iff {m : Merge} :
    r.isOpen m = true ↔ m.single? = none ∧ r.resolved.get? m.node = none := by
  rw [isOpen, SortedMap.contains, Bool.and_eq_true, Bool.not_eq_true', Option.isNone_iff_eq_none,
    Option.isSome_eq_false_iff, Option.isNone_iff_eq_none]

/-- The ambiguous blocks are those of open merges. -/
theorem mem_ambiguous {n : BlockId} :
    n ∈ r.ambiguous ↔ ∃ m ∈ r.merges, r.isOpen m = true ∧ m.node = n := by
  simp only [ambiguous, List.mem_map, List.mem_filter, and_assoc]

/-- There is no complaint about a report without failures and without ambiguous blocks. -/
theorem error?_eq_none_iff : r.error? = none ↔ r.failures = [] ∧ r.ambiguous = [] := by
  unfold error?
  cases r.failures with
  | cons f fs => exact iff_of_false (by nofun) (fun h => absurd h.1 (by nofun))
  | nil =>
    rw [ambiguous, List.map_eq_nil_iff, List.filter_eq_nil_iff, ← List.find?_eq_none,
      and_iff_right rfl]
    cases hfind : r.merges.find? r.isOpen with
    | none => exact iff_of_true rfl rfl
    | some m =>
      -- an open merge has no one balance, so that there is a complaint about it
      have hopen := isOpen_iff.1 (List.find?_some hfind)
      have herror : m.error? = some (.ambiguous m.node m.perPath) := by rw [Merge.error?, hopen.1]
      rw [Option.bind_some, herror]
      exact iff_of_false (by nofun) (by nofun)

end Report

namespace Analysis

variable {a : Analysis} {g : Graph} {ps : Paths} {n : BlockId} {v : Verdict} {r : Report}

/-- Why an analysis comes to a verdict on a block where paths meet. -/
def Decides (a : Analysis) (g : Graph) (ps : Paths) (n : BlockId) : Verdict → Prop
  | .agreed m b => Merge.ofPaths g.effect? n (ps.pathsTo n) = .ok m ∧ m.single? = some b
  | .resolved m b =>
    Merge.ofPaths g.effect? n (ps.pathsTo n) = .ok m ∧ m.single? = none ∧
      ∃ choose, a.policy = some choose ∧ choose n m.perPath = .ok b
  | .unresolved m =>
    Merge.ofPaths g.effect? n (ps.pathsTo n) = .ok m ∧ m.single? = none ∧ a.policy = none
  | .refused m reason =>
    Merge.ofPaths g.effect? n (ps.pathsTo n) = .ok m ∧ m.single? = none ∧
      ∃ choose, a.policy = some choose ∧ choose n m.perPath = .error reason
  | .irreconcilable e => Merge.ofPaths g.effect? n (ps.pathsTo n) = .error e

/-- A report shows a verdict on a block where its paths meet: the verdict is the right one, and the
block is listed accordingly. -/
def Shows (a : Analysis) (g : Graph) (r : Report) (n : BlockId) (v : Verdict) : Prop :=
  a.Decides g r.paths n v ∧ r.Lists n v

/-! ## Verdicts -/

/-- The verdict on a block where paths meet. -/
def verdict (a : Analysis) (g : Graph) (ps : Paths) (n : BlockId) : Verdict :=
  match Merge.ofPaths g.effect? n (ps.pathsTo n) with
  | .error e => .irreconcilable e
  | .ok m =>
    match m.single?, a.policy with
    | some b, _ => .agreed m b
    | none, none => .unresolved m
    | none, some choose =>
      match choose n m.perPath with
      | .error reason => .refused m reason
      | .ok b => .resolved m b

/-- There is only one verdict on a block. -/
theorem Decides.verdict_eq (h : a.Decides g ps n v) : a.verdict g ps n = v := by
  unfold verdict
  cases v with
  | agreed m b =>
    obtain ⟨hm, hsingle⟩ := h
    simp only [hm, hsingle]
  | resolved m b =>
    obtain ⟨hm, hsingle, choose, hpolicy, hchoice⟩ := h
    simp only [hm, hsingle, hpolicy, hchoice]
  | unresolved m =>
    obtain ⟨hm, hsingle, hpolicy⟩ := h
    simp only [hm, hsingle, hpolicy]
  | refused m reason =>
    obtain ⟨hm, hsingle, choose, hpolicy, hchoice⟩ := h
    simp only [hm, hsingle, hpolicy, hchoice]
  | irreconcilable e => rw [show Merge.ofPaths g.effect? n (ps.pathsTo n) = .error e from h]

/-- There is a verdict on every block. -/
theorem exists_decides (a : Analysis) (g : Graph) (ps : Paths) (n : BlockId) :
    ∃ v, a.Decides g ps n v := by
  cases hm : Merge.ofPaths g.effect? n (ps.pathsTo n) with
  | error e => exact ⟨.irreconcilable e, hm⟩
  | ok m =>
    cases hsingle : m.single? with
    | some b => exact ⟨.agreed m b, hm, hsingle⟩
    | none =>
      cases hpolicy : a.policy with
      | none => exact ⟨.unresolved m, hm, hsingle, hpolicy⟩
      | some choose =>
        cases hchoice : choose n m.perPath with
        | error reason => exact ⟨.refused m reason, hm, hsingle, choose, hpolicy, hchoice⟩
        | ok b => exact ⟨.resolved m b, hm, hsingle, choose, hpolicy, hchoice⟩

/-- The verdict on a block has its reasons. -/
theorem decides_verdict (a : Analysis) (g : Graph) (ps : Paths) (n : BlockId) :
    a.Decides g ps n (a.verdict g ps n) := by
  obtain ⟨v, hv⟩ := exists_decides a g ps n
  rwa [hv.verdict_eq]

/-- The merge of a verdict is what the paths are reconciled to. -/
theorem merge?_verdict {m : Merge} :
    (a.verdict g ps n).merge? = some m ↔ Merge.ofPaths g.effect? n (ps.pathsTo n) = .ok m := by
  have h := decides_verdict a g ps n
  cases hv : a.verdict g ps n with
  | irreconcilable e =>
    rw [hv] at h
    rw [show Merge.ofPaths g.effect? n (ps.pathsTo n) = .error e from h]
    exact iff_of_false (by nofun) (by nofun)
  | _ =>
    rw [hv] at h
    rw [Verdict.merge?, h.1, Option.some.injEq, Except.ok.injEq]

/-- The merge of a verdict is the merge of the block that the verdict is on. -/
theorem node_of_merge? {m : Merge} (h : (a.verdict g ps n).merge? = some m) : m.node = n :=
  Merge.node_of_ofPaths (merge?_verdict.1 h)

/-! ## The lists of a report -/

/-- Reconciling a block adds what its verdict asks for. -/
theorem fst_reconcile (a : Analysis) (g : Graph) (r : Report) (n : BlockId) :
    (a.reconcile g r n).1 = r.note n (a.verdict g r.paths n) := by
  -- the reasons for a verdict are the outcomes of the tests that lead to it
  unfold reconcile
  have h := decides_verdict a g r.paths n
  cases hv : a.verdict g r.paths n with
  | agreed m b =>
    rw [hv] at h
    obtain ⟨hm, hsingle⟩ := h
    simp [Report.note, hm, hsingle]
  | resolved m b =>
    rw [hv] at h
    obtain ⟨hm, hsingle, choose, hpolicy, hchoice⟩ := h
    have hresolve : m.resolve (some choose) = .ok b := by
      simp only [Merge.resolve, hsingle, Merge.node_of_ofPaths hm, hchoice]
    simp [Report.note, hm, hsingle, hpolicy, hresolve]
  | unresolved m =>
    rw [hv] at h
    obtain ⟨hm, hsingle, hpolicy⟩ := h
    simp [Report.note, hm, hsingle, hpolicy]
  | refused m reason =>
    rw [hv] at h
    obtain ⟨hm, hsingle, choose, hpolicy, hchoice⟩ := h
    have hresolve : m.resolve (some choose) = .error (.refused n reason) := by
      simp only [Merge.resolve, hsingle, Merge.node_of_ofPaths hm, hchoice]
    simp [Report.note, hm, hsingle, hpolicy, hresolve]
  | irreconcilable e =>
    rw [hv] at h
    rw [show Merge.ofPaths g.effect? n (r.paths.pathsTo n) = .error e from h]
    simp [Report.note]

/-- Reconciling blocks in turn adds what the verdicts ask for, and changes nothing else. -/
theorem fst_reconcileAll (a : Analysis) (g : Graph) (r : Report) (ns : List BlockId) :
    ∃ resolved : SortedMap BlockId Balance,
      (∀ k, resolved.get? k = if k ∈ ns then
        (a.verdict g r.paths k).choice?.or (r.resolved.get? k) else r.resolved.get? k) ∧
      (a.reconcileAll g r ns).1 =
        { r with
          merges := r.merges ++ ns.filterMap fun n => (a.verdict g r.paths n).merge?
          resolved := resolved
          failures := r.failures ++ ns.filterMap fun n => (a.verdict g r.paths n).failure? n } := by
  induction ns generalizing r with
  | nil =>
    refine ⟨r.resolved, fun k => (if_neg List.not_mem_nil).symm, ?_⟩
    simp only [reconcileAll, List.filterMap_nil, List.append_nil]
  | cons n ns ih =>
    obtain ⟨resolved, hget, hrest⟩ := ih (r.note n (a.verdict g r.paths n))
    have hstep : (a.reconcileAll g r (n :: ns)).1 =
        (a.reconcileAll g (r.note n (a.verdict g r.paths n)) ns).1 := by
      rw [← fst_reconcile, reconcileAll]
    refine ⟨resolved, fun k => ?_, ?_⟩
    · -- a block that is listed twice is noted with the same verdict again
      rw [hget, Report.get?_resolved_note]
      have hpaths : (r.note n (a.verdict g r.paths n)).paths = r.paths := rfl
      rw [hpaths]
      by_cases hk : k = n
      · subst hk
        rw [if_pos rfl, if_pos List.mem_cons_self]
        cases (a.verdict g r.paths k).choice? <;> simp
      · rw [if_neg hk]
        simp only [List.mem_cons, hk, false_or]
    · rw [hstep, hrest]
      simp only [Report.note, List.filterMap_eq_flatMap_toList, List.flatMap_cons,
        List.append_assoc]

/-- A report on a node lists the paths that the limit allows, and concludes from these. -/
theorem form_of_report {s : BlockId} (hs : g.hasNode s = true) (h : (a.report g s).1 = .ok r) :
    ∃ c, Convergence.conclude a.strict s (a.listed g s) = .ok c ∧
      (a.reconcileAll g (a.unreconciled g s c) (a.listed g s).mergeNodes).1 = r := by
  rw [fst_report_of_hasNode hs] at h
  cases hc : Convergence.conclude a.strict s (a.listed g s) with
  | error e => rw [hc] at h; exact absurd h (by nofun)
  | ok c => rw [hc] at h; exact ⟨c, rfl, Except.ok.inj h⟩

/-- A report lists the paths that the limit allows. -/
theorem paths_of_report {s : BlockId} (hs : g.hasNode s = true) (h : (a.report g s).1 = .ok r) :
    r.paths = a.listed g s := by
  obtain ⟨c, -, rfl⟩ := form_of_report hs h
  obtain ⟨resolved, -, hform⟩ :=
    fst_reconcileAll a g (a.unreconciled g s c) (a.listed g s).mergeNodes
  rw [hform]
  rfl

/-- The paths of a report are paths to leaves. -/
theorem mem_pathsWith_of_mem_listed {s : BlockId} {p : Path} (h : p ∈ a.listed g s) :
    p ∈ g.pathsWith a.order s := by
  unfold listed at h
  rw [Paths.mem_sorted] at h
  split at h
  · exact h
  · exact List.mem_of_mem_take h

/-- What a report on a node says if the analysis is not strict. -/
theorem exists_report_of_hasNode {s : BlockId} (hstrict : a.strict = false)
    (hs : g.hasNode s = true) :
    ∃ r, (a.report g s).1 = .ok r ∧ r.paths = a.listed g s ∧
      ∀ x, r.convergence.node? = some x ↔
        a.listed g s ≠ [] ∧ ∀ p ∈ a.listed g s, p.getLast? = some x := by
  have hne : ∀ p ∈ a.listed g s, p ≠ [] :=
    fun p hp => Graph.ne_nil_of_mem_pathsWith (mem_pathsWith_of_mem_listed hp)
  obtain ⟨c, hc, hnode⟩ := Convergence.conclude_eq_ok hne s
  obtain ⟨resolved, -, hform⟩ :=
    fst_reconcileAll a g (a.unreconciled g s c) (a.listed g s).mergeNodes
  rw [fst_report_of_hasNode hs, hstrict, hc]
  refine ⟨_, rfl, ?_, ?_⟩
  · rw [hform]; rfl
  · rw [hform]; exact hnode

/-- The lists of a report hold what the verdicts on its merge nodes ask for. -/
structure Settles (a : Analysis) (g : Graph) (r : Report) : Prop where
  /-- The merges, in the order of the merge nodes. -/
  merges_eq : r.merges = r.paths.mergeNodes.filterMap fun n => (a.verdict g r.paths n).merge?
  /-- The failures, in the order of the merge nodes. -/
  failures_eq :
    r.failures = r.paths.mergeNodes.filterMap fun n => (a.verdict g r.paths n).failure? n
  /-- The choices. -/
  get?_resolved : ∀ n, r.resolved.get? n =
    if n ∈ r.paths.mergeNodes then (a.verdict g r.paths n).choice? else none

/-- The report on no paths has no verdicts to hold. -/
theorem settles_empty (a : Analysis) (g : Graph) (s : BlockId) : a.Settles g (.empty s) := by
  have hnil : Paths.mergeNodes [] = [] :=
    List.eq_nil_iff_forall_not_mem.2 (fun _ => Paths.notMem_mergeNodes_nil)
  constructor
  case merges_eq => rw [Report.empty, hnil, List.filterMap_nil]
  case failures_eq => rw [Report.empty, hnil, List.filterMap_nil]
  case get?_resolved =>
    intro n
    rw [Report.empty, hnil, if_neg List.not_mem_nil, SortedMap.get?_empty]

/-- Every report holds what the verdicts ask for. -/
theorem settles {s : BlockId} (h : (a.report g s).1 = .ok r) : a.Settles g r := by
  cases hs : g.hasNode s with
  | false =>
    rw [fst_report_of_not_hasNode hs] at h
    cases hstrict : a.strict with
    | true => rw [hstrict] at h; exact absurd h (by nofun)
    | false =>
      rw [hstrict] at h
      exact Except.ok.inj h ▸ settles_empty a g s
  | true =>
    obtain ⟨c, -, rfl⟩ := form_of_report hs h
    obtain ⟨resolved, hget, hform⟩ :=
      fst_reconcileAll a g (a.unreconciled g s c) (a.listed g s).mergeNodes
    rw [hform]
    refine ⟨List.nil_append _, List.nil_append _, fun n => (hget n).trans ?_⟩
    rw [show (a.unreconciled g s c).resolved.get? n = none from rfl, Option.or_none]
    rfl

/-! ## What the lists say -/

namespace Settles

variable {m : Merge} {f : Failure}

/-- The merges of a report are those of its verdicts. -/
theorem mem_merges (h : a.Settles g r) :
    m ∈ r.merges ↔ ∃ n ∈ r.paths.mergeNodes, (a.verdict g r.paths n).merge? = some m := by
  rw [h.merges_eq, List.mem_filterMap]

/-- The failures of a report are those of its verdicts. -/
theorem mem_failures (h : a.Settles g r) :
    f ∈ r.failures ↔ ∃ n ∈ r.paths.mergeNodes, (a.verdict g r.paths n).failure? n = some f := by
  rw [h.failures_eq, List.mem_filterMap]

/-- A block is listed among the merges if its verdict asks for it. -/
theorem mem_map_merges (h : a.Settles g r) : n ∈ r.merges.map (·.node) ↔
    n ∈ r.paths.mergeNodes ∧ (a.verdict g r.paths n).merge?.isSome = true := by
  rw [List.mem_map, Option.isSome_iff_exists]
  constructor
  · rintro ⟨m, hm, rfl⟩
    obtain ⟨n, hn, hv⟩ := h.mem_merges.1 hm
    rw [node_of_merge? hv]
    exact ⟨hn, m, hv⟩
  · rintro ⟨hn, m, hv⟩
    exact ⟨m, h.mem_merges.2 ⟨n, hn, hv⟩, node_of_merge? hv⟩

/-- A block is listed among the failures if its verdict asks for it. -/
theorem mem_map_failures (h : a.Settles g r) : n ∈ r.failures.map (·.node) ↔
    n ∈ r.paths.mergeNodes ∧ ((a.verdict g r.paths n).failure? n).isSome = true := by
  rw [List.mem_map, Option.isSome_iff_exists]
  constructor
  · rintro ⟨f, hf, rfl⟩
    obtain ⟨n, hn, hv⟩ := h.mem_failures.1 hf
    rw [Verdict.node_of_failure? hv]
    exact ⟨hn, f, hv⟩
  · rintro ⟨hn, f, hv⟩
    exact ⟨f, h.mem_failures.2 ⟨n, hn, hv⟩, Verdict.node_of_failure? hv⟩

/-- A report lists its merge nodes, and no other block. -/
theorem hasMerge_iff (h : a.Settles g r) : r.HasMerge n ↔ n ∈ r.paths.mergeNodes := by
  rw [Report.HasMerge, h.mem_map_merges, h.mem_map_failures, ← and_or_left]
  refine and_iff_left ?_
  cases a.verdict g r.paths n with
  | irreconcilable e => exact .inr rfl
  | _ => exact .inl rfl

/-- Merges are listed in ascending order of their blocks. -/
theorem pairwise_lt_merges (h : a.Settles g r) : (r.merges.map (·.node)).Pairwise (· < ·) := by
  rw [h.merges_eq, List.pairwise_map, List.pairwise_filterMap]
  refine (Paths.pairwise_lt_mergeNodes r.paths).imp (fun hlt m hm m' hm' => ?_)
  rwa [node_of_merge? hm, node_of_merge? hm']

/-- Failures are listed in ascending order of their blocks. -/
theorem pairwise_lt_failures (h : a.Settles g r) :
    (r.failures.map (·.node)).Pairwise (· < ·) := by
  rw [h.failures_eq, List.pairwise_map, List.pairwise_filterMap]
  refine (Paths.pairwise_lt_mergeNodes r.paths).imp (fun hlt f hf f' hf' => ?_)
  rwa [Verdict.node_of_failure? hf, Verdict.node_of_failure? hf']

/-- Every merge node is listed as its verdict asks for. -/
theorem lists_verdict (h : a.Settles g r) (hn : n ∈ r.paths.mergeNodes) :
    r.Lists n (a.verdict g r.paths n) := by
  -- what is listed under the block is what its verdict asks for, and nothing else
  have hresolved := h.get?_resolved n
  rw [if_pos hn] at hresolved
  have hmerge : ∀ m, (a.verdict g r.paths n).merge? = some m → m ∈ r.merges :=
    fun m hm => h.mem_merges.2 ⟨n, hn, hm⟩
  have hfailure : ∀ f, (a.verdict g r.paths n).failure? n = some f → f ∈ r.failures :=
    fun f hf => h.mem_failures.2 ⟨n, hn, hf⟩
  have hnoMerge : (a.verdict g r.paths n).merge? = none → n ∉ r.merges.map (·.node) := by
    intro hnone hmem
    have hsome := (h.mem_map_merges.1 hmem).2
    rw [hnone] at hsome
    exact absurd hsome (by nofun)
  have hnoFailure : (a.verdict g r.paths n).failure? n = none → n ∉ r.failures.map (·.node) := by
    intro hnone hmem
    have hsome := (h.mem_map_failures.1 hmem).2
    rw [hnone] at hsome
    exact absurd hsome (by nofun)
  cases hv : a.verdict g r.paths n with
  | agreed m b =>
    rw [hv] at hresolved hmerge hnoFailure
    exact ⟨hmerge m rfl, hnoFailure rfl, hresolved⟩
  | resolved m b =>
    rw [hv] at hresolved hmerge hnoFailure
    exact ⟨hmerge m rfl, hnoFailure rfl, hresolved⟩
  | unresolved m =>
    rw [hv] at hresolved hmerge hnoFailure
    exact ⟨hmerge m rfl, hnoFailure rfl, hresolved⟩
  | refused m reason =>
    rw [hv] at hresolved hmerge hfailure
    exact ⟨hmerge m rfl, hfailure _ rfl, hresolved⟩
  | irreconcilable e =>
    rw [hv] at hresolved hfailure hnoMerge
    exact ⟨hnoMerge rfl, hfailure _ rfl, hresolved⟩

/-- A report shows the verdict on each of its merge nodes. -/
theorem shows_verdict (h : a.Settles g r) (hn : n ∈ r.paths.mergeNodes) :
    a.Shows g r n (a.verdict g r.paths n) :=
  ⟨decides_verdict a g r.paths n, h.lists_verdict hn⟩

/-- The ambiguous blocks are those that no balance was chosen for. -/
theorem mem_ambiguous_iff (h : a.Settles g r) : n ∈ r.ambiguous ↔ n ∈ r.paths.mergeNodes ∧
    ((∃ m, a.verdict g r.paths n = .unresolved m) ∨
      ∃ m reason, a.verdict g r.paths n = .refused m reason) := by
  rw [Report.mem_ambiguous]
  constructor
  · rintro ⟨m, hm, hopen, rfl⟩
    obtain ⟨n, hn, hmerge⟩ := h.mem_merges.1 hm
    obtain ⟨hdecides, hlists⟩ := h.shows_verdict hn
    rw [Report.isOpen_iff, node_of_merge? hmerge] at hopen
    rw [node_of_merge? hmerge]
    refine ⟨hn, ?_⟩
    cases hv : a.verdict g r.paths n with
    | agreed m' b =>
      rw [hv] at hdecides hmerge
      obtain rfl := Option.some.inj hmerge
      exact absurd (hopen.1.symm.trans hdecides.2) (by nofun)
    | resolved m' b =>
      rw [hv] at hlists
      exact absurd (hopen.2.symm.trans hlists.2.2) (by nofun)
    | unresolved m' => exact .inl ⟨m', rfl⟩
    | refused m' reason => exact .inr ⟨m', reason, rfl⟩
    | irreconcilable e => rw [hv] at hmerge; exact absurd hmerge (by nofun)
  · rintro ⟨hn, hv⟩
    obtain ⟨hdecides, hlists⟩ := h.shows_verdict hn
    rcases hv with ⟨m, hv⟩ | ⟨m, reason, hv⟩ <;> rw [hv] at hdecides hlists
    all_goals
      have hnode := Merge.node_of_ofPaths hdecides.1
      exact ⟨m, hlists.1, Report.isOpen_iff.2 ⟨hdecides.2.1, hnode.symm ▸ hlists.2.2⟩, hnode⟩

/-- Ambiguous blocks are listed in ascending order. -/
theorem pairwise_lt_ambiguous (h : a.Settles g r) : r.ambiguous.Pairwise (· < ·) :=
  h.pairwise_lt_merges.sublist (List.filter_sublist.map _)

/-- There is no complaint if every merge node has a balance. -/
theorem error?_eq_none_iff (h : a.Settles g r) : r.error? = none ↔ ∀ n ∈ r.paths.mergeNodes,
    (∃ m b, a.verdict g r.paths n = .agreed m b) ∨
      ∃ m b, a.verdict g r.paths n = .resolved m b := by
  rw [Report.error?_eq_none_iff]
  constructor
  · -- a verdict of another kind is a failure or leaves its block ambiguous
    rintro ⟨hfailures, hambiguous⟩ n hn
    have hnoFailure : ∀ f, (a.verdict g r.paths n).failure? n ≠ some f := by
      intro f hf
      have hmem := h.mem_failures.2 ⟨n, hn, hf⟩
      rw [hfailures] at hmem
      exact absurd hmem List.not_mem_nil
    cases hv : a.verdict g r.paths n with
    | agreed m b => exact .inl ⟨m, b, rfl⟩
    | resolved m b => exact .inr ⟨m, b, rfl⟩
    | unresolved m =>
      have hmem := h.mem_ambiguous_iff.2 ⟨hn, .inl ⟨m, hv⟩⟩
      rw [hambiguous] at hmem
      exact absurd hmem List.not_mem_nil
    | refused m reason => rw [hv] at hnoFailure; exact absurd rfl (hnoFailure _)
    | irreconcilable e => rw [hv] at hnoFailure; exact absurd rfl (hnoFailure _)
  · intro hclean
    constructor
    · rw [List.eq_nil_iff_forall_not_mem]
      intro f hf
      obtain ⟨n, hn, hfailure⟩ := h.mem_failures.1 hf
      rcases hclean n hn with ⟨m, b, hv⟩ | ⟨m, b, hv⟩ <;>
        exact absurd (hv ▸ hfailure) (by nofun)
    · rw [List.eq_nil_iff_forall_not_mem]
      intro n hn
      obtain ⟨hn, hopen⟩ := h.mem_ambiguous_iff.1 hn
      rcases hclean n hn with ⟨m, b, hv⟩ | ⟨m, b, hv⟩ <;>
        rw [hv] at hopen <;>
        exact hopen.elim (fun ⟨_, heq⟩ => absurd heq (by nofun))
          (fun ⟨_, _, heq⟩ => absurd heq (by nofun))

/-- A report shows the one verdict on each merge node of its paths. -/
theorem shows_iff (h : a.Settles g r) (hn : n ∈ r.paths.mergeNodes) :
    a.Shows g r n v ↔ a.verdict g r.paths n = v :=
  ⟨fun hv => hv.1.verdict_eq, fun hv => hv ▸ h.shows_verdict hn⟩

end Settles

/-- An analysis that is not strict and has no limit reports on every start block, and lists the
merge nodes of the paths from it. -/
theorem exists_report (hstrict : a.strict = false) (hlimit : a.limit ≤ 0) (g : Graph)
    (s : BlockId) :
    ∃ r, (a.report g s).1 = .ok r ∧
      ∀ n, r.HasMerge n ↔ n ∈ (g.pathsWith a.order s).mergeNodes := by
  cases hs : g.hasNode s with
  | false =>
    -- an unknown block has no paths
    have hnil : g.pathsWith a.order s = [] :=
      Graph.pathsWith_eq_nil_iff.2 (.inl (Graph.isLeaf_of_hasNode_eq_false hs))
    rw [fst_report_of_not_hasNode hs, hstrict, hnil]
    exact ⟨.empty s, rfl, fun n => (settles_empty a g s).hasMerge_iff⟩
  | true =>
    obtain ⟨r, hr, hpaths, -⟩ := exists_report_of_hasNode hstrict hs
    refine ⟨r, hr, fun n => ?_⟩
    rw [(settles hr).hasMerge_iff, hpaths, listed, if_pos hlimit, Paths.mem_mergeNodes_sorted]

/-- A report lists the merge nodes of its paths and no other block. It shows exactly one verdict on
each of them, and its lists ascend. The ambiguous blocks are those without a policy or with one that
refused, and there is no complaint exactly if every block has a balance, agreed or chosen. -/
theorem report_shows_one_verdict (a : Analysis) (g : Graph) (s : BlockId) (r : Report)
    (h : (a.report g s).1 = .ok r) :
    (∀ n ∈ r.paths.mergeNodes, ∃! v, a.Shows g r n v) ∧
      (∀ n, n ∈ r.merges.map (·.node) ∨ n ∈ r.failures.map (·.node) ∨
        r.resolved.contains n = true → n ∈ r.paths.mergeNodes) ∧
      (r.merges.map (·.node)).Pairwise (· < ·) ∧ (r.failures.map (·.node)).Pairwise (· < ·) ∧
      r.ambiguous.Pairwise (· < ·) ∧
      (∀ n, n ∈ r.ambiguous ↔ n ∈ r.paths.mergeNodes ∧
        ((∃ m, a.Shows g r n (.unresolved m)) ∨ ∃ m reason, a.Shows g r n (.refused m reason))) ∧
      (r.error? = none ↔ ∀ n ∈ r.paths.mergeNodes,
        (∃ m b, a.Shows g r n (.agreed m b)) ∨ ∃ m b, a.Shows g r n (.resolved m b)) := by
  have hr := settles h
  refine ⟨fun n hn => ?_, fun n hlisted => ?_, hr.pairwise_lt_merges, hr.pairwise_lt_failures,
    hr.pairwise_lt_ambiguous, fun n => ?_, ?_⟩
  · exact ⟨_, hr.shows_verdict hn, fun v hv => ((hr.shows_iff hn).1 hv).symm⟩
  · rcases hlisted with hmerge | hfailure | hresolved
    · exact (hr.mem_map_merges.1 hmerge).1
    · exact (hr.mem_map_failures.1 hfailure).1
    · rw [SortedMap.contains, hr.get?_resolved] at hresolved
      by_contra hn
      rw [if_neg hn] at hresolved
      exact absurd hresolved Bool.false_ne_true
  · rw [hr.mem_ambiguous_iff]
    refine and_congr_right (fun hn => ?_)
    simp only [hr.shows_iff hn]
  · rw [hr.error?_eq_none_iff]
    refine forall₂_congr (fun n hn => ?_)
    simp only [hr.shows_iff hn]

/-- Two ways to block 3 that leave different numbers of items there; block 5 is not registered. -/
def unevenDiamond : Graph :=
  [Block.new 0 ⟨0, 1⟩ [], .new 1 ⟨0, 1⟩ [], .new 2 ⟨0, 2⟩ [], .new 3 ⟨0, 0⟩ [],
    .new 4 ⟨0, 0⟩ []].foldl Graph.store
      (Graph.ofEdges [⟨0, 1⟩, ⟨0, 2⟩, ⟨1, 3⟩, ⟨2, 3⟩, ⟨3, 4⟩, ⟨4, 5⟩])

/-- An analysis whose policy takes the balance of the first path at block 3 and refuses to choose
anywhere else. -/
def choosesAtThree : Analysis :=
  { default with
    policy := some fun n bs =>
      if n = 3 then .ok ((bs.head?.map (·.balance)).getD ⟨0, 0⟩) else .error "no choice" }

/-- The paths meet at blocks 3, 4 and 5. The policy refuses at block 4, which is ambiguous. -/
theorem report_shows_one_verdict_unevenDiamond :
    ∃ r, (choosesAtThree.report unevenDiamond 0).1 = .ok r ∧ r.paths.mergeNodes = [3, 4, 5] ∧
      (∀ n ∈ r.paths.mergeNodes, ∃! v, choosesAtThree.Shows unevenDiamond r n v) ∧
      (∃ m, choosesAtThree.Shows unevenDiamond r 4 (.refused m "no choice")) ∧
      4 ∈ r.ambiguous ∧ r.error? ≠ none := by
  obtain ⟨r, hr, -⟩ := exists_report (a := choosesAtThree) rfl (by decide) unevenDiamond 0
  have hlisted : choosesAtThree.listed unevenDiamond 0 = [[0, 1, 3, 4, 5], [0, 2, 3, 4, 5]] := by
    cbv
  have hpaths : r.paths = [[0, 1, 3, 4, 5], [0, 2, 3, 4, 5]] := by
    rw [paths_of_report (by decide) hr, hlisted]
  have hnodes : r.paths.mergeNodes = [3, 4, 5] := by rw [hpaths]; cbv
  have hfour : 4 ∈ r.paths.mergeNodes := by rw [hnodes]; decide
  have hpathsTo : r.paths.pathsTo 4 = [[0, 1, 3, 4], [0, 2, 3, 4]] := by rw [hpaths]; cbv
  have hsorted : Paths.sorted [[0, 1, 3, 4], [0, 2, 3, 4]] = [[0, 1, 3, 4], [0, 2, 3, 4]] := by cbv
  have hmerge : Merge.ofPaths unevenDiamond.effect? 4 (r.paths.pathsTo 4) =
      .ok ⟨4, [⟨[0, 1, 3, 4], 0, 2⟩, ⟨[0, 2, 3, 4], 0, 3⟩]⟩ := by
    rw [hpathsTo, Merge.ofPaths, hsorted]
    decide
  have hdecides : choosesAtThree.Decides unevenDiamond r.paths 4
      (.refused ⟨4, [⟨[0, 1, 3, 4], 0, 2⟩, ⟨[0, 2, 3, 4], 0, 3⟩]⟩ "no choice") :=
    ⟨hmerge, by decide, _, rfl, by decide⟩
  obtain ⟨hunique, -, -, -, -, hambiguous, herror⟩ := report_shows_one_verdict _ _ _ r hr
  obtain ⟨v, hv, -⟩ := hunique 4 hfour
  obtain rfl := hv.1.verdict_eq.symm.trans hdecides.verdict_eq
  refine ⟨r, hr, hnodes, hunique, ⟨_, hv⟩, (hambiguous 4).2 ⟨hfour, .inr ⟨_, _, hv⟩⟩, ?_⟩
  intro hnone
  rcases herror.1 hnone 4 hfour with ⟨m, b, hv'⟩ | ⟨m, b, hv'⟩ <;>
    cases hv'.1.verdict_eq.symm.trans hdecides.verdict_eq

end Analysis

end StackFlow
