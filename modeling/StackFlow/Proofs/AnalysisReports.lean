import StackFlow.Analysis
import StackFlow.Proofs.MergeNodes
import StackFlow.Proofs.ReachableLeaves

/-!
# The reports of an analysis

A search without a limit lists all paths (`search_of_limit_nonpos`). The first start block that has
no report ends an analysis (`result_reports_cons`), and one that nothing ends early has a report for
each of its start blocks (`result_reports`).
-/

namespace StackFlow

/-- A report lists a block as one where paths meet, with their balances or as a failure. -/
def Report.HasMerge (r : Report) (n : BlockId) : Prop :=
  n ∈ r.merges.map (·.node) ∨ n ∈ r.failures.map (·.node)

/-- The node of a merge is the block that its paths were reconciled at. -/
theorem Merge.node_of_ofPaths {effect? : BlockId → Option StackEffect} {n : BlockId} {ps : Paths}
    {m : Merge} (h : ofPaths effect? n ps = .ok m) : m.node = n := by
  unfold ofPaths at h
  split at h
  · exact absurd h (by nofun)
  · cases hg : gather effect? n .empty [] ps.sorted with
    | error e => rw [hg] at h; exact absurd h (by nofun)
    | ok bs =>
      rw [hg] at h
      rw [← Except.ok.inj h]

namespace Analysis

variable {a : Analysis} {g : Graph}

/-! ## The search for a report -/

/-- Without a limit a search lists all paths. -/
theorem search_of_limit_nonpos (hlimit : a.limit ≤ 0) (g : Graph) (s : BlockId) :
    a.search g s = (g.pathsWith a.order s, true) := by
  -- the consumer never asks to stop
  have hemit : (fun (found : Paths) p =>
      (found ++ [p], decide (a.limit ≤ 0) || decide ((found.length : Int) + 1 ≤ a.limit))) =
      Search.collect := by
    funext found p
    rw [decide_eq_true hlimit, Bool.true_or, Search.collect]
  unfold search
  rw [hemit, g.searchWith_collect]

/-! ## The reports of all start blocks -/

/-- The first start block that has no report ends an analysis. -/
theorem result_reports_cons (a : Analysis) (g : Graph) (n : BlockId) (ns : List BlockId) :
    (a.reports g (n :: ns)).result =
      match (a.report g n).1 with
      | .error e => .error e
      | .ok r => (a.reports g ns).result.map (r :: ·) := by
  rw [reports]
  cases hreport : a.report g n with
  | mk result events =>
    cases result with
    | error e => rfl
    | ok r =>
      unfold Outcome.result
      dsimp only
      cases (a.reports g ns).error? <;> rfl

/-- If there is a report on every start block, these are the reports of the analysis in order. -/
theorem result_reports {report : BlockId → Report} {ns : List BlockId}
    (h : ∀ s ∈ ns, (a.report g s).1 = .ok (report s)) :
    (a.reports g ns).result = .ok (ns.map report) := by
  induction ns with
  | nil => rfl
  | cons s ns ih =>
    rw [result_reports_cons, h s List.mem_cons_self,
      ih (fun s' hs' => h s' (List.mem_cons_of_mem _ hs'))]
    rfl

/-- An analysis comes to the reports on its start blocks. -/
theorem result_run (a : Analysis) (g : Graph) :
    (a.run g).result = (a.reports g (a.startBlocks g)).result := by
  unfold run
  dsimp only
  split
  next => rfl
  next herror => rw [Outcome.result, Outcome.result]

end Analysis

end StackFlow
