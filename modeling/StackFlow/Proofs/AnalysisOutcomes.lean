import StackFlow.Proofs.PartialReports

/-!
# What an analysis comes to

A report on a node lists as many paths as there are, up to the limit, and it is truncated exactly if
there are more (`report_paths_by_limit`). A search with a limit stops one path behind it, so that
the paths to be kept are always there.

An analysis that is not strict has a report on each of its start blocks. A strict one refuses blocks
that are not in the graph and blocks from which no path leads to a leaf (`Refuses`), and the first
block that it refuses ends it (`run_fails_at_first_refused`). A limit does not hide that there is a
path, since it allows for at least one (`listed_eq_nil_iff`), so that what is refused depends on the
graph alone.
-/

namespace StackFlow

namespace Analysis

variable {a : Analysis} {g : Graph} {s : BlockId} {r : Report} {e : AnalysisError}

/-! ## The paths of a report -/

/-- Reconciling merge nodes changes neither the start of a report nor whether it is truncated. -/
theorem start_truncated_of_report (hs : g.hasNode s = true) (h : (a.report g s).1 = .ok r) :
    r.start = s ∧ r.truncated = a.exceeds g s := by
  obtain ⟨c, -, rfl⟩ := form_of_report hs h
  obtain ⟨resolved, -, hform⟩ :=
    fst_reconcileAll a g (a.unreconciled g s c) (a.listed g s).mergeNodes
  rw [hform]
  exact ⟨rfl, rfl⟩

/-- Every report names the block that it is about. -/
theorem start_of_report (h : (a.report g s).1 = .ok r) : r.start = s := by
  cases hs : g.hasNode s with
  | true => exact (start_truncated_of_report hs h).1
  | false =>
    rw [fst_report_of_not_hasNode hs] at h
    cases hstrict : a.strict with
    | true => rw [hstrict] at h; exact absurd h (by nofun)
    | false =>
      rw [hstrict] at h
      rw [← Except.ok.inj h]
      rfl

/-- The number of paths does not depend on the order of the search. -/
theorem exceeds_iff (order : CandidateOrder) :
    a.exceeds g s = true ↔ 0 < a.limit ∧ a.limit < (g.pathsWith order s).length := by
  rw [exceeds, Bool.and_eq_true, decide_eq_true_eq, decide_eq_true_eq,
    (Graph.pathsWith_perm rfl a.order order s).length_eq]

/-- Without a limit a report lists as many paths as there are. -/
theorem length_listed_of_limit_nonpos (hlimit : a.limit ≤ 0) (order : CandidateOrder) :
    (a.listed g s).length = (g.pathsWith order s).length := by
  rw [listed, if_pos hlimit, (Paths.sorted_perm _).length_eq,
    (Graph.pathsWith_perm rfl a.order order s).length_eq]

/-- The paths of a report are in ascending order, and none is listed twice. -/
theorem pairwise_lt_listed (a : Analysis) (g : Graph) (s : BlockId) :
    (a.listed g s).Pairwise (· < ·) := by
  unfold listed
  refine Paths.pairwise_lt_sorted ?_
  split
  · exact g.nodup_pathsWith a.order s
  · exact (g.nodup_pathsWith a.order s).sublist (List.take_sublist _ _)

/-- A limit leaves at least one path, if there is any. -/
theorem listed_eq_nil_iff (order : CandidateOrder) :
    a.listed g s = [] ↔ g.pathsWith order s = [] := by
  rw [← List.length_eq_zero_iff, ← List.length_eq_zero_iff]
  by_cases hlimit : a.limit ≤ 0
  · rw [length_listed_of_limit_nonpos hlimit order]
  · rw [length_listed (by omega) order]
    omega

/-- A search that is stopped has found one path more than the limit. -/
theorem length_search_of_stopped (h : (a.search g s).2 = false) :
    0 < a.limit ∧ ((a.search g s).1.length : Int) = a.limit + 1 := by
  rw [search_eq] at h ⊢
  by_cases hmore : a.exceeds g s = true
  · obtain ⟨hlimit, hlt⟩ := (exceeds_iff a.order).1 hmore
    rw [if_pos hmore, List.length_take]
    omega
  · rw [if_neg hmore] at h
    exact absurd h (by nofun)

/-! ## Start blocks that are refused -/

/-- A strict analysis refuses a start block with an error. -/
inductive Refuses (g : Graph) (s : BlockId) : AnalysisError → Prop
  /-- The block is not in the graph. -/
  | unknown (hs : g.hasNode s = false) : Refuses g s (.unknownStart s)
  /-- The block is in the graph and reaches no leaf in one or more steps. -/
  | noPaths (hs : g.hasNode s = true)
      (hleaf : ∀ n, Relation.TransGen g.Adj s n → g.isLeaf n = false) :
      Refuses g s (.convergence (.noPaths s))

/-- A block is refused if it is unknown or reaches no leaf; an unknown block does neither. -/
theorem exists_refuses_iff :
    (∃ e, Refuses g s e) ↔
      g.hasNode s = false ∨ ∀ n, Relation.TransGen g.Adj s n → g.isLeaf n = false := by
  constructor
  · rintro ⟨e, hs | ⟨hs, hleaf⟩⟩
    · exact .inl hs
    · exact .inr hleaf
  · intro h
    cases hs : g.hasNode s with
    | false => exact ⟨_, .unknown hs⟩
    | true => exact ⟨_, .noPaths hs (h.resolve_left (by rw [hs]; decide))⟩

/-- There is no report on a block exactly if the analysis is strict and refuses the block. -/
theorem report_eq_error_iff :
    (a.report g s).1 = .error e ↔ a.strict = true ∧ Refuses g s e := by
  cases hs : g.hasNode s with
  | false =>
    -- a block that is not in the graph is refused as such
    rw [fst_report_of_not_hasNode hs]
    cases a.strict with
    | false => exact iff_of_false (by nofun) (by nofun)
    | true =>
      rw [if_pos rfl, and_iff_right rfl, Except.error.injEq]
      constructor
      · rintro rfl
        exact .unknown hs
      · rintro (_ | ⟨hs', -⟩)
        · rfl
        · exact absurd (hs.symm.trans hs') (by decide)
  | true =>
    -- a block of the graph is refused if no paths are listed
    have hne : ∀ p ∈ a.listed g s, p ≠ [] :=
      fun p hp => Graph.ne_nil_of_mem_pathsWith (mem_pathsWith_of_mem_listed hp)
    have hnil : a.listed g s = [] ↔ _ :=
      (listed_eq_nil_iff a.order).trans Graph.pathsWith_eq_nil_iff_transGen
    have hconclude : ∀ c, Convergence.conclude a.strict s (a.listed g s) = .error c ↔ _ :=
      fun _ => Convergence.conclude_eq_error_iff hne s
    rw [fst_report_of_hasNode hs]
    constructor
    · intro h
      cases hc : Convergence.conclude a.strict s (a.listed g s) with
      | ok c => rw [hc] at h; exact absurd h (by nofun)
      | error c =>
        rw [hc] at h
        obtain ⟨hstrict, hempty, rfl⟩ := (hconclude c).1 hc
        rw [← Except.error.inj h]
        exact ⟨hstrict, .noPaths hs (hnil.1 hempty)⟩
    · rintro ⟨hstrict, hs' | ⟨-, hleaf⟩⟩
      · exact absurd (hs.symm.trans hs') (by decide)
      · rw [(hconclude _).2 ⟨hstrict, hnil.2 hleaf, rfl⟩]

/-- There is a report on a block unless the analysis is strict and refuses it. -/
theorem exists_report_iff :
    (∃ r, (a.report g s).1 = .ok r) ↔ (a.strict = true → ∀ e, ¬ Refuses g s e) := by
  constructor
  · rintro ⟨r, hr⟩ hstrict e he
    exact absurd (hr.symm.trans (report_eq_error_iff.2 ⟨hstrict, he⟩)) (by nofun)
  · intro h
    cases hr : (a.report g s).1 with
    | ok r => exact ⟨r, rfl⟩
    | error e =>
      obtain ⟨hstrict, he⟩ := report_eq_error_iff.1 hr
      exact absurd he (h hstrict e)

/-- On a node, a report lists as many paths as there are, up to the limit if this is positive, in
ascending order and each of them found by a search of any order. It is truncated exactly if there
are more paths than a positive limit. There is a report unless the analysis is strict and there is
no path. When the search is stopped, the limit is a length up to which the paths found can be cut.
-/
theorem report_paths_by_limit (a : Analysis) (g : Graph) (s : BlockId) (order : CandidateOrder)
    (hs : g.hasNode s = true) :
    ((∃ r, (a.report g s).1 = .ok r) ↔ (a.strict = true → g.pathsWith order s ≠ [])) ∧
    (∀ r, (a.report g s).1 = .ok r →
      (r.paths.length : Int) =
        (if 0 < a.limit then min a.limit (g.pathsWith order s).length
          else (g.pathsWith order s).length) ∧
      r.paths.Pairwise (· < ·) ∧
      (∀ p ∈ r.paths, p ∈ g.pathsWith order s) ∧
      (r.truncated = true ↔ 0 < a.limit ∧ a.limit < (g.pathsWith order s).length)) ∧
    ((a.search g s).2 = false → 0 ≤ a.limit ∧ a.limit ≤ (a.search g s).1.length) := by
  refine ⟨?_, fun r hr => ⟨?_, ?_, fun p hp => ?_, ?_⟩, fun hstopped => ?_⟩
  · rw [exists_report_iff, Ne, Graph.pathsWith_eq_nil_iff_transGen]
    refine forall_congr' (fun _ => ?_)
    rw [← not_exists, exists_refuses_iff, or_iff_right (by rw [hs]; decide)]
  · rw [paths_of_report hs hr]
    split
    next hlimit =>
      rw [length_listed hlimit order]
      omega
    next hlimit => rw [length_listed_of_limit_nonpos (by omega) order]
  · rw [paths_of_report hs hr]
    exact pairwise_lt_listed a g s
  · rw [paths_of_report hs hr] at hp
    rw [Graph.mem_pathsWith]
    exact Graph.mem_pathsWith.1 (mem_pathsWith_of_mem_listed hp)
  · rw [(start_truncated_of_report hs hr).2, exceeds_iff order]
  · obtain ⟨hlimit, hlength⟩ := length_search_of_stopped hstopped
    omega

/-- Of three ways two are listed by an analysis that lists at most two, and this one is truncated.
One that lists at most three, and is strict, lists them all. -/
theorem report_paths_by_limit_threeWays :
    threeWays.hasNode 0 = true ∧ (threeWays.pathsWith .insertion 0).length = 3 ∧
      (∃ r, (atMostTwo.report threeWays 0).1 = .ok r ∧ r.paths.length = 2 ∧
        r.truncated = true) ∧
      (atMostTwo.search threeWays 0).2 = false ∧
      2 ≤ (atMostTwo.search threeWays 0).1.length ∧
      ∃ r, (Analysis.report { atMostTwo with limit := 3, strict := true } threeWays 0).1 = .ok r ∧
        r.paths.length = 3 ∧ r.truncated = false := by
  have hnode : threeWays.hasNode 0 = true := by decide
  have hcount : (threeWays.pathsWith .insertion 0).length = 3 := by cbv
  have hstopped : (atMostTwo.search threeWays 0).2 = false := by cbv
  have hsome : threeWays.pathsWith .insertion 0 ≠ [] := by
    intro hnil
    rw [hnil] at hcount
    exact absurd hcount (by decide)
  obtain ⟨hexists, hall, hrange⟩ := report_paths_by_limit atMostTwo threeWays 0 .insertion hnode
  obtain ⟨hexists', hall', -⟩ :=
    report_paths_by_limit { atMostTwo with limit := 3, strict := true } threeWays 0 .insertion hnode
  obtain ⟨two, htwo⟩ := hexists.2 (fun _ => hsome)
  obtain ⟨three, hthree⟩ := hexists'.2 (fun _ => hsome)
  obtain ⟨hlength, -, -, htruncated⟩ := hall two htwo
  obtain ⟨hlength', -, -, htruncated'⟩ := hall' three hthree
  rw [hcount] at hlength htruncated hlength' htruncated'
  refine ⟨hnode, hcount, ⟨two, htwo, Int.ofNat.inj hlength, htruncated.2 (by decide)⟩, hstopped,
    Int.ofNat_le.1 (hrange hstopped).2, three, hthree, Int.ofNat.inj hlength', ?_⟩
  exact Bool.eq_false_iff.2 (fun h => absurd (htruncated'.1 h) (by decide))

/-! ## The end of an analysis -/

/-- The first element of a list with a property is its head, or the head lets the search go on. -/
theorem exists_first_cons_iff {α : Type} {passes stops : α → Prop} {x : α} {xs : List α} :
    (∃ before y after, x :: xs = before ++ y :: after ∧ (∀ z ∈ before, passes z) ∧ stops y) ↔
      stops x ∨ passes x ∧
        ∃ before y after, xs = before ++ y :: after ∧ (∀ z ∈ before, passes z) ∧ stops y := by
  constructor
  · rintro ⟨before, y, after, h, hbefore, hy⟩
    cases before with
    | nil =>
      obtain ⟨rfl, -⟩ := List.cons.inj h
      exact .inl hy
    | cons z before =>
      obtain ⟨rfl, hxs⟩ := List.cons.inj h
      obtain ⟨hx, hbefore⟩ := List.forall_mem_cons.1 hbefore
      exact .inr ⟨hx, before, y, after, hxs, hbefore, hy⟩
  · rintro (hx | ⟨hx, before, y, after, rfl, hbefore, hy⟩)
    · exact ⟨[], x, xs, rfl, by simp, hx⟩
    · exact ⟨x :: before, y, after, rfl, List.forall_mem_cons.2 ⟨hx, hbefore⟩, hy⟩

/-- An analysis that comes to its end has the report on each start block, in their order. -/
theorem map_start_of_result_reports {ns : List BlockId} {rs : List Report}
    (h : (a.reports g ns).result = .ok rs) :
    rs.map (·.start) = ns ∧ ∀ r ∈ rs, (a.report g r.start).1 = .ok r := by
  induction ns generalizing rs with
  | nil =>
    obtain rfl : [] = rs := Except.ok.inj h
    exact ⟨rfl, by simp⟩
  | cons s ns ih =>
    rw [result_reports_cons] at h
    cases hr : (a.report g s).1 with
    | error e => rw [hr] at h; exact absurd h (by nofun)
    | ok r =>
      cases hrest : (a.reports g ns).result with
      | error e => rw [hr, hrest] at h; exact absurd h (by nofun)
      | ok later =>
        rw [hr, hrest] at h
        obtain rfl : r :: later = rs := Except.ok.inj h
        obtain ⟨hmap, hlater⟩ := ih hrest
        have hstart := start_of_report hr
        refine ⟨by rw [List.map_cons, hstart, hmap], List.forall_mem_cons.2 ⟨?_, hlater⟩⟩
        rw [hstart]
        exact hr

/-- The first start block without a report ends an analysis with its error. -/
theorem result_reports_eq_error_iff {ns : List BlockId} :
    (a.reports g ns).result = .error e ↔
      ∃ before s after, ns = before ++ s :: after ∧
        (∀ t ∈ before, ∃ r, (a.report g t).1 = .ok r) ∧ (a.report g s).1 = .error e := by
  induction ns with
  | nil =>
    refine iff_of_false (by nofun) ?_
    rintro ⟨before, s, after, h, -⟩
    exact absurd h (by simp)
  | cons n ns ih =>
    rw [exists_first_cons_iff, ← ih, result_reports_cons]
    cases hn : (a.report g n).1 with
    | error e' => simp
    | ok r => cases (a.reports g ns).result <;> simp [Except.map]

/-- An analysis that is not strict comes to its end. A strict one fails exactly if one of its start
blocks is not in the graph or reaches no leaf in one or more steps, and then with the error of the
first such block. An analysis that does not fail has one report on each start block, in their
order. -/
theorem run_fails_at_first_refused (a : Analysis) (g : Graph) :
    (a.strict = false → ∃ rs, (a.run g).result = .ok rs) ∧
    (a.strict = true →
      ((∃ e, (a.run g).result = .error e) ↔ ∃ s ∈ a.startBlocks g,
        g.hasNode s = false ∨ ∀ n, Relation.TransGen g.Adj s n → g.isLeaf n = false) ∧
      ∀ e, (a.run g).result = .error e ↔
        ∃ before s after, a.startBlocks g = before ++ s :: after ∧
          (∀ t ∈ before, ∀ e', ¬ Refuses g t e') ∧ Refuses g s e) ∧
    ∀ rs, (a.run g).result = .ok rs →
      rs.map (·.start) = a.startBlocks g ∧ ∀ r ∈ rs, (a.report g r.start).1 = .ok r := by
  rw [result_run]
  refine ⟨fun hstrict => ?_, fun hstrict => ⟨⟨?_, ?_⟩, fun e => ?_⟩, fun rs hrs => ?_⟩
  · cases hresult : (a.reports g (a.startBlocks g)).result with
    | ok rs => exact ⟨rs, rfl⟩
    | error e =>
      obtain ⟨-, s, -, -, -, hs⟩ := result_reports_eq_error_iff.1 hresult
      exact absurd (hstrict.symm.trans (report_eq_error_iff.1 hs).1) (by decide)
  · rintro ⟨e, he⟩
    obtain ⟨before, s, after, hstarts, -, hs⟩ := result_reports_eq_error_iff.1 he
    refine ⟨s, ?_, exists_refuses_iff.1 ⟨e, (report_eq_error_iff.1 hs).2⟩⟩
    rw [hstarts]
    exact List.mem_append_right _ List.mem_cons_self
  · rintro ⟨s, hs, hrefused⟩
    cases hresult : (a.reports g (a.startBlocks g)).result with
    | error e => exact ⟨e, rfl⟩
    | ok rs =>
      -- the block would have a report, as all start blocks do
      obtain ⟨e, he⟩ := exists_refuses_iff.2 hrefused
      obtain ⟨hmap, hall⟩ := map_start_of_result_reports hresult
      rw [← hmap] at hs
      obtain ⟨r, hr, rfl⟩ := List.mem_map.1 hs
      exact absurd ((hall r hr).symm.trans (report_eq_error_iff.2 ⟨hstrict, he⟩)) (by nofun)
  · rw [result_reports_eq_error_iff]
    simp only [report_eq_error_iff, exists_report_iff, hstrict, true_and, forall_const]
  · exact map_start_of_result_reports hrs

/-- A block with a way to a leaf, and two blocks that lead to each other only. -/
def trap : Graph := Graph.ofEdges [⟨0, 1⟩, ⟨3, 4⟩, ⟨4, 3⟩]

/-- An analysis of the way, the trap and a block that is not there, which lists at most one path. -/
def threeStarts (strict : Bool) : Analysis :=
  { default with starts := [0, 3, 7], strict := strict, limit := 1 }

/-- The trap is refused before the unknown block is, and without strictness all have reports. -/
theorem run_fails_at_first_refused_trap :
    ((threeStarts true).run trap).result = .error (.convergence (.noPaths 3)) ∧
      ∃ rs, ((threeStarts false).run trap).result = .ok rs ∧ rs.map (·.start) = [0, 3, 7] := by
  have hway : ∀ e, ¬ Refuses trap 0 e := by
    intro e he
    rcases exists_refuses_iff.1 ⟨e, he⟩ with hs | hleaf
    · exact absurd hs (by decide)
    · have hstep : trap.Adj 0 1 := Graph.adj_ofEdges.2 (by decide)
      exact absurd (hleaf 1 (.single hstep)) (by decide)
  have htrap : Refuses trap 3 (.convergence (.noPaths 3)) := by
    refine .noPaths (by decide) (fun n hn => ?_)
    -- the two blocks of the trap are closed under edges
    have hclosed : n = 3 ∨ n = 4 := by
      refine Graph.Reach.closed (p := fun n => n = 3 ∨ n = 4) ?_ hn.to_reflTransGen (.inl rfl)
      rintro u v (rfl | rfl) huv
      · exact .inr (by simpa using Graph.adj_ofEdges.1 huv)
      · exact .inl (by simpa using Graph.adj_ofEdges.1 huv)
    rcases hclosed with rfl | rfl <;> decide
  obtain ⟨-, hstrict, -⟩ := run_fails_at_first_refused (threeStarts true) trap
  obtain ⟨hlenient, -, hreports⟩ := run_fails_at_first_refused (threeStarts false) trap
  obtain ⟨rs, hrs⟩ := hlenient rfl
  refine ⟨((hstrict rfl).2 _).2 ⟨[0], 3, [7], rfl, ?_, htrap⟩, rs, hrs, ?_⟩
  · exact fun t ht => List.mem_singleton.1 ht ▸ hway
  · exact (hreports rs hrs).1

end Analysis

end StackFlow
