import StackFlow.Proofs.AnalysisReports
import StackFlow.Proofs.StoppedSearch

/-!
# The form of a report

With a limit a search keeps one path more than the limit before it stops, and the report drops that
one again. So a report lists the first paths of a search without a limit, as many as the limit
allows, and it is truncated if there are more (`search_eq`). A report on a node is then the
conclusion from these paths, with their merge nodes reconciled in turn (`fst_report_of_hasNode`).
-/

namespace StackFlow

namespace Search

/-- A consumer that keeps `limit` paths and asks to stop at the next one. -/
theorem offer_limited {limit : Nat} {emit : Paths → Path → Paths × Bool}
    (hemit : ∀ found p, emit found p = (found ++ [p], decide (found.length + 1 ≤ limit)))
    (found ps : Paths) (hfound : found.length ≤ limit) :
    offer emit found ps =
      if found.length + ps.length ≤ limit then ⟨found ++ ps, true⟩
      else ⟨(found ++ ps).take (limit + 1), false⟩ := by
  induction ps generalizing found with
  | nil =>
    have hle : found.length + ([] : Paths).length ≤ limit := hfound
    rw [if_pos hle, List.append_nil, offer]
  | cons p ps ih =>
    rw [offer, hemit]
    by_cases hroom : found.length + 1 ≤ limit
    · have hlength : (found ++ [p]).length = found.length + 1 := List.length_append
      have hrest := ih (found ++ [p]) (by omega)
      have hcount : (found ++ [p]).length + ps.length = found.length + (p :: ps).length := by
        rw [hlength, List.length_cons]
        omega
      rw [hcount, ← List.append_cons] at hrest
      rw [decide_eq_true hroom]
      exact hrest
    · -- this is the path behind the last one allowed
      have hfull : (found ++ [p]).length = limit + 1 := by
        rw [List.length_append, List.length_singleton]
        omega
      have hmore : ¬ found.length + (p :: ps).length ≤ limit := by
        rw [List.length_cons]
        omega
      have htake : (found ++ p :: ps).take (limit + 1) = found ++ [p] := by
        rw [List.append_cons, List.take_left' hfull]
      rw [decide_eq_false hroom, if_neg hmore, htake]

end Search

namespace Analysis

variable {a : Analysis} {g : Graph} {s : BlockId}

/-- Whether a start block has more paths than the limit allows. -/
def exceeds (a : Analysis) (g : Graph) (s : BlockId) : Bool :=
  0 < a.limit && a.limit < (g.pathsWith a.order s).length

/-- The paths from a start block that a report lists: all, or as many as the limit allows. -/
def listed (a : Analysis) (g : Graph) (s : BlockId) : Paths :=
  (if a.limit ≤ 0 then g.pathsWith a.order s
    else (g.pathsWith a.order s).take a.limit.toNat).sorted

/-- A search finds all paths, or stops one behind the limit. -/
theorem search_eq (a : Analysis) (g : Graph) (s : BlockId) :
    a.search g s =
      if a.exceeds g s then ((g.pathsWith a.order s).take (a.limit.toNat + 1), false)
      else (g.pathsWith a.order s, true) := by
  by_cases hlimit : a.limit ≤ 0
  · have hexceeds : ¬ a.exceeds g s = true := by
      rw [exceeds, Bool.and_eq_true, decide_eq_true_eq]
      omega
    rw [search_of_limit_nonpos hlimit, if_neg hexceeds]
  · have hemit : ∀ (found : Paths) (p : Path),
        (found ++ [p], decide (a.limit ≤ 0) || decide ((found.length : Int) + 1 ≤ a.limit)) =
          (found ++ [p], decide (found.length + 1 ≤ a.limit.toNat)) := by
      intro found p
      have hiff : (found.length : Int) + 1 ≤ a.limit ↔ found.length + 1 ≤ a.limit.toNat := by omega
      rw [decide_eq_false hlimit, Bool.false_or, decide_eq_decide.2 hiff]
    have hexceeds : a.exceeds g s = true ↔
        ¬ ([] : Paths).length + (g.pathsWith a.order s).length ≤ a.limit.toNat := by
      rw [exceeds, Bool.and_eq_true, decide_eq_true_eq, decide_eq_true_eq, List.length_nil]
      omega
    unfold search
    rw [g.searchWith_eq_offer, Search.offer_limited hemit [] _ (Nat.zero_le _)]
    by_cases hmore : a.exceeds g s = true
    · rw [if_neg (hexceeds.1 hmore), if_pos hmore, List.nil_append]
    · rw [if_pos (not_not.1 (mt hexceeds.2 hmore)), if_neg hmore, List.nil_append]

/-- What the paths of a report are when a search with a limit is over. -/
theorem sorted_search (a : Analysis) (g : Graph) (s : BlockId) :
    Paths.sorted (if (a.search g s).2 then (a.search g s).1
      else (a.search g s).1.take a.limit.toNat) = a.listed g s := by
  unfold listed
  rw [search_eq]
  by_cases hmore : a.exceeds g s = true
  · have hlimit : ¬ a.limit ≤ 0 := by
      rw [exceeds, Bool.and_eq_true, decide_eq_true_eq] at hmore
      omega
    rw [if_pos hmore, if_neg hlimit, if_neg Bool.false_ne_true, List.take_take,
      Nat.min_eq_left (Nat.le_succ _)]
  · rw [if_neg hmore, if_pos rfl]
    by_cases hlimit : a.limit ≤ 0
    · rw [if_pos hlimit]
    · -- the limit allows them all
      have hall : (g.pathsWith a.order s).length ≤ a.limit.toNat := by
        rw [exceeds, Bool.and_eq_true, decide_eq_true_eq, decide_eq_true_eq] at hmore
        omega
      rw [if_neg hlimit, List.take_of_length_le hall]

/-- The report on a start block before any paths are reconciled. -/
def unreconciled (a : Analysis) (g : Graph) (s : BlockId) (c : Convergence) : Report where
  start := s
  backEdges := (LoopDetector.empty.detect g s).found
  loops := (LoopDetector.empty.detect g s).detector.allLoops
  paths := a.listed g s
  truncated := a.exceeds g s
  convergence := c
  merges := []
  resolved := .empty
  failures := []

/-- A report on a node is the conclusion from the listed paths, with the merge nodes of these
reconciled in turn. -/
theorem fst_report_of_hasNode (hs : g.hasNode s = true) :
    (a.report g s).1 =
      match Convergence.conclude a.strict s (a.listed g s) with
      | .error e => .error (.convergence e)
      | .ok c =>
        .ok (a.reconcileAll g (a.unreconciled g s c) (a.listed g s).mergeNodes).1 := by
  have htruncated : (!(a.search g s).2) = a.exceeds g s := by
    rw [search_eq]
    cases a.exceeds g s <;> rfl
  unfold report unreconciled
  rw [hs, if_neg (by decide)]
  dsimp only
  rw [sorted_search, htruncated]
  cases Convergence.conclude a.strict s (a.listed g s) with
  | error e => rfl
  | ok c => rfl

/-- A block that is not in the graph has an empty report, unless the analysis is strict. -/
theorem fst_report_of_not_hasNode (hs : g.hasNode s = false) :
    (a.report g s).1 = if a.strict then .error (.unknownStart s) else .ok (.empty s) := by
  unfold report
  rw [hs]
  cases a.strict <;> rfl

end Analysis

end StackFlow
