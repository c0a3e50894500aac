import StackFlow.Proofs.MergeVerdicts
import StackFlow.Proofs.Reconciliation

/-!
# Reports with a limit

A report with a limit is about some of the paths from its start block, and which ones these are
depends on the order of the search. What it says of them holds up: fewer paths have fewer
beginnings, so that they meet at fewer blocks; a path without a balance spoils every merge that it
leads to; and paths that have one balance have it whichever others are left out. So a limit can hide
a failure or a disagreement, and it never makes one up (`limited_report_sound`).
-/

namespace StackFlow

/-! ## Reconciliation of fewer paths -/

namespace Merge

variable {effect? : BlockId → Option StackEffect} {n : BlockId} {ps qs : Paths} {m m' : Merge}

/-- If all paths of a collection have a balance, so do some of them. -/
theorem exists_ofPaths_of_subset (hne : ps ≠ []) (hsub : ∀ p ∈ ps, p ∈ qs)
    (h : ofPaths effect? n qs = .ok m) : ∃ m', ofPaths effect? n ps = .ok m' := by
  obtain ⟨-, -, hbs⟩ := balances_of_ofPaths h
  exact (exists_ofPaths_iff hne).2 (fun p hp => hbs.exists_balance (hsub p hp))

/-- If all paths of a collection have one balance, some of them have that one. -/
theorem single?_of_subset (hsub : ∀ p ∈ ps, p ∈ qs) (h : ofPaths effect? n qs = .ok m)
    (h' : ofPaths effect? n ps = .ok m') {b : Balance} (hb : m.single? = some b) :
    m'.single? = some b := by
  obtain ⟨hne, -, hbs⟩ := balances_of_ofPaths h
  obtain ⟨hne', -, hbs'⟩ := balances_of_ofPaths h'
  have hall := (single?_eq_some_iff (hbs.ne_nil hne)).1 hb
  rw [single?_eq_some_iff (hbs'.ne_nil hne')]
  intro x hx
  -- the path of `x` is listed in the larger collection as well, with the same balance
  have hpath := hsub x.path ((hbs'.mem_iff _).1 (List.mem_map_of_mem hx))
  obtain ⟨y, hy, hxy⟩ := List.mem_map.1 ((hbs.mem_iff _).2 hpath)
  have heq := (hbs'.balance x hx).symm.trans (hxy ▸ hbs.balance y hy)
  rw [Except.ok.inj heq, hall y hy]

end Merge

namespace Analysis

variable {a b : Analysis} {g : Graph} {s n : BlockId} {r r' : Report} {p : Path}

/-! ## The paths of a report with a limit -/

/-- Without a limit a report lists the paths to leaves. -/
theorem mem_listed_of_limit_nonpos (hlimit : a.limit ≤ 0) :
    p ∈ a.listed g s ↔ g.IsLeafPath s p := by
  rw [listed, if_pos hlimit, Paths.mem_sorted, Graph.mem_pathsWith]

/-- A limit leaves out as few paths as it can. -/
theorem length_listed (hlimit : 0 < a.limit) (order : CandidateOrder) :
    (a.listed g s).length = min a.limit.toNat (g.pathsWith order s).length := by
  rw [listed, if_neg (by omega), (Paths.sorted_perm _).length_eq, List.length_take,
    (Graph.pathsWith_perm rfl a.order order s).length_eq]

/-! ## What becomes of a block without a policy -/

namespace Settles

variable {m : Merge}

/-- A merge node is listed with one merge. -/
theorem eq_of_node_eq {m' : Merge} (h : a.Settles g r) (hm : m ∈ r.merges) (hm' : m' ∈ r.merges)
    (hnode : m.node = m'.node) : m = m' := by
  obtain ⟨n, -, hv⟩ := h.mem_merges.1 hm
  obtain ⟨n', -, hv'⟩ := h.mem_merges.1 hm'
  obtain rfl : n = n' := (node_of_merge? hv).symm.trans (hnode.trans (node_of_merge? hv'))
  exact Option.some.inj (hv.symm.trans hv')

/-- The merges of a report are those of the merge nodes whose paths can be reconciled. -/
theorem mem_merges_iff (h : a.Settles g r) : m ∈ r.merges ↔ ∃ n ∈ r.paths.mergeNodes,
    Merge.ofPaths g.effect? n (r.paths.pathsTo n) = .ok m := by
  simp only [h.mem_merges, merge?_verdict]

/-- Without a policy a block fails if its paths cannot be reconciled. -/
theorem mem_failures_iff (h : a.Settles g r) (hpolicy : a.policy = none) :
    n ∈ r.failures.map (·.node) ↔ n ∈ r.paths.mergeNodes ∧
      ∃ e, Merge.ofPaths g.effect? n (r.paths.pathsTo n) = .error e := by
  rw [h.mem_map_failures]
  refine and_congr_right (fun _ => ?_)
  cases hm : Merge.ofPaths g.effect? n (r.paths.pathsTo n) with
  | error e =>
    rw [Decides.verdict_eq (v := .irreconcilable e) hm]
    exact iff_of_true rfl ⟨e, rfl⟩
  | ok m =>
    cases hsingle : m.single? with
    | some x =>
      rw [Decides.verdict_eq (v := .agreed m x) ⟨hm, hsingle⟩]
      exact iff_of_false (by nofun) (by nofun)
    | none =>
      rw [Decides.verdict_eq (v := .unresolved m) ⟨hm, hsingle, hpolicy⟩]
      exact iff_of_false (by nofun) (by nofun)

/-! ## Fewer paths -/

section Subset

variable (h : a.Settles g r) (h' : b.Settles g r') (hsub : ∀ p ∈ r.paths, p ∈ r'.paths)
include h h' hsub

/-- Where fewer paths meet, more paths meet as well. -/
theorem hasMerge_of_subset (hn : r.HasMerge n) : r'.HasMerge n :=
  h'.hasMerge_iff.2 (Paths.mem_mergeNodes_of_subset hsub (h.hasMerge_iff.1 hn))

/-- A block that fails still fails if there are more paths. -/
theorem mem_failures_of_subset (hpolicy : a.policy = none) (hpolicy' : b.policy = none)
    (hn : n ∈ r.failures.map (·.node)) : n ∈ r'.failures.map (·.node) := by
  rw [h.mem_failures_iff hpolicy] at hn
  obtain ⟨hn, e, he⟩ := hn
  refine (h'.mem_failures_iff hpolicy').2 ⟨Paths.mem_mergeNodes_of_subset hsub hn, ?_⟩
  cases hm : Merge.ofPaths g.effect? n (r'.paths.pathsTo n) with
  | error e' => exact ⟨e', rfl⟩
  | ok m =>
    obtain ⟨m', hm'⟩ := Merge.exists_ofPaths_of_subset (Paths.pathsTo_ne_nil hn)
      (fun p hp => Paths.mem_pathsTo_of_subset hsub hp) hm
    exact absurd (he.symm.trans hm') (by nofun)

/-- Paths that agree still agree if there are fewer. -/
theorem exists_single_of_subset {m : Merge} {x : Balance} (hm : m ∈ r'.merges)
    (hsingle : m.single? = some x) (hn : r.HasMerge m.node) :
    ∃ m' ∈ r.merges, m'.node = m.node ∧ m'.single? = some x := by
  rw [h.hasMerge_iff] at hn
  obtain ⟨k, -, hofPaths⟩ := h'.mem_merges_iff.1 hm
  obtain rfl := Merge.node_of_ofPaths hofPaths
  have hpathsTo : ∀ p ∈ r.paths.pathsTo m.node, p ∈ r'.paths.pathsTo m.node :=
    fun p hp => Paths.mem_pathsTo_of_subset hsub hp
  obtain ⟨m', hm'⟩ := Merge.exists_ofPaths_of_subset (Paths.pathsTo_ne_nil hn) hpathsTo hofPaths
  exact ⟨m', h.mem_merges_iff.2 ⟨m.node, hn, hm'⟩, Merge.node_of_ofPaths hm',
    Merge.single?_of_subset hpathsTo hofPaths hm' hsingle⟩

/-- A block that is ambiguous is still ambiguous if there are more paths, or else it fails. -/
theorem ambiguous_or_failed_of_subset {m : Merge} (hm : m ∈ r.merges)
    (hsingle : m.single? = none) :
    (∃ m' ∈ r'.merges, m'.node = m.node ∧ m'.single? = none) ∨
      m.node ∈ r'.failures.map (·.node) := by
  have hn : r.HasMerge m.node := .inl (List.mem_map_of_mem hm)
  rcases hasMerge_of_subset h h' hsub hn with hmerge | hfailure
  · obtain ⟨m', hm', hnode⟩ := List.mem_map.1 hmerge
    refine .inl ⟨m', hm', hnode, ?_⟩
    -- if more paths agreed, so would these
    cases hsingle' : m'.single? with
    | none => rfl
    | some x =>
      obtain ⟨m'', hm'', hnode', hx⟩ :=
        exists_single_of_subset h h' hsub hm' hsingle' (hnode ▸ hn)
      obtain rfl := h.eq_of_node_eq hm hm'' (hnode'.trans hnode).symm
      exact absurd (hsingle.symm.trans hx) (by nofun)
  · exact .inr hfailure

end Subset

end Settles

/-- A report with a limit is a sound part of the report without one, whatever the orders in which
the two searches try candidates. It lists as many of the paths as the limit allows. Where its paths
meet, others meet too; a block that fails or is ambiguous does not agree without the limit; paths
that agree without the limit agree with it, on the same balance; and if all paths converge, so do
the listed ones. -/
theorem limited_report_sound (a b : Analysis) (g : Graph) (s : BlockId) (hs : g.hasNode s = true)
    (hstrict : a.strict = false) (hpolicy : a.policy = none) (hlimit : 0 < a.limit)
    (hstrict' : b.strict = false) (hpolicy' : b.policy = none) (hlimit' : b.limit ≤ 0) :
    ∃ part all, (a.report g s).1 = .ok part ∧ (b.report g s).1 = .ok all ∧
      (∀ p ∈ part.paths, p ∈ all.paths) ∧
      part.paths.length = min a.limit.toNat all.paths.length ∧
      (∀ n, part.HasMerge n → all.HasMerge n) ∧
      (∀ n ∈ part.failures.map (·.node), n ∈ all.failures.map (·.node)) ∧
      (∀ m ∈ part.merges, m.single? = none →
        (∃ m' ∈ all.merges, m'.node = m.node ∧ m'.single? = none) ∨
          m.node ∈ all.failures.map (·.node)) ∧
      (∀ m ∈ all.merges, ∀ x, m.single? = some x → part.HasMerge m.node →
        ∃ m' ∈ part.merges, m'.node = m.node ∧ m'.single? = some x) ∧
      ∀ x, all.convergence.node? = some x → part.convergence.node? = some x := by
  obtain ⟨part, hpart, hpaths, hnode⟩ := exists_report_of_hasNode hstrict hs
  obtain ⟨all, hall, hpaths', hnode'⟩ := exists_report_of_hasNode hstrict' hs
  have hsub : ∀ p ∈ part.paths, p ∈ all.paths := by
    intro p hp
    rw [hpaths] at hp
    rw [hpaths', mem_listed_of_limit_nonpos hlimit']
    exact Graph.mem_pathsWith.1 (mem_pathsWith_of_mem_listed hp)
  have hlength : part.paths.length = min a.limit.toNat all.paths.length := by
    rw [hpaths, length_listed hlimit b.order, hpaths', listed, if_pos hlimit',
      (Paths.sorted_perm _).length_eq]
  have hr := settles hpart
  have hr' := settles hall
  refine ⟨part, all, hpart, hall, hsub, hlength, fun n => hr.hasMerge_of_subset hr' hsub,
    fun n => hr.mem_failures_of_subset hr' hsub hpolicy hpolicy',
    fun m => hr.ambiguous_or_failed_of_subset hr' hsub,
    fun m hm x => hr.exists_single_of_subset hr' hsub hm, fun x hx => ?_⟩
  obtain ⟨hne, hlast⟩ := (hnode' x).1 hx
  rw [← hpaths'] at hne hlast
  rw [hnode, ← hpaths]
  refine ⟨List.ne_nil_of_length_pos ?_, fun p hp => hlast p (hsub p hp)⟩
  -- the limit allows for at least one path, and there is one
  have hpos := List.length_pos_of_ne_nil hne
  rw [hlength]
  omega

/-- Three ways from block 0 to block 4. -/
def threeWays : Graph := Graph.ofEdges [⟨0, 1⟩, ⟨0, 2⟩, ⟨0, 3⟩, ⟨1, 4⟩, ⟨2, 4⟩, ⟨3, 4⟩]

/-- An analysis that lists at most two paths and tries candidates last one first. -/
def atMostTwo : Analysis :=
  { default with limit := 2, order := ⟨fun _ l => l.reverse, fun _ l => l.reverse_perm⟩ }

/-- Two of the three ways are listed, and they meet and converge where all of them do. -/
theorem limited_report_sound_threeWays :
    threeWays.hasNode 0 = true ∧ 0 < atMostTwo.limit ∧ default.limit ≤ 0 ∧
      ∃ part all, (atMostTwo.report threeWays 0).1 = .ok part ∧
        (default.report threeWays 0).1 = .ok all ∧
        part.paths = [[0, 1, 4], [0, 2, 4]] ∧ all.paths = [[0, 1, 4], [0, 2, 4], [0, 3, 4]] ∧
        part.HasMerge 4 ∧ all.HasMerge 4 ∧ part.convergence.node? = some 4 := by
  have hnode : threeWays.hasNode 0 = true := by decide
  obtain ⟨part, all, hpart, hall, -, -, hmerge, -, -, -, hconverges⟩ :=
    limited_report_sound atMostTwo default threeWays 0 hnode rfl rfl (by decide) rfl rfl (by decide)
  have hpaths : part.paths = [[0, 1, 4], [0, 2, 4]] := by
    rw [paths_of_report hnode hpart]
    cbv
  have hlisted : default.listed threeWays 0 = [[0, 1, 4], [0, 2, 4], [0, 3, 4]] := by cbv
  have hfour : part.HasMerge 4 := by
    have hnodes : part.paths.mergeNodes = [4] := by rw [hpaths]; cbv
    rw [(settles hpart).hasMerge_iff, hnodes]
    decide
  have hend : all.convergence.node? = some 4 := by
    obtain ⟨all', hall', -, hiff⟩ :=
      exists_report_of_hasNode (a := default) (g := threeWays) rfl hnode
    obtain rfl := Except.ok.inj (hall.symm.trans hall')
    rw [hiff, hlisted]
    decide
  exact ⟨hnode, by decide, by decide, part, all, hpart, hall, hpaths,
    (paths_of_report hnode hall).trans hlisted, hfour, hmerge 4 hfour, hconverges 4 hend⟩

end Analysis

end StackFlow
