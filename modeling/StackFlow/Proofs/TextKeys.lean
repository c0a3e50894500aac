import StackFlow.Proofs.PathIndex
import StackFlow.Proofs.Reconciliation

/-!
# Texts that stand for paths

In two places a path is remembered by its text: where the beginnings of paths are filed under the
blocks at which they end (`PathIndex`), and where a reconciliation passes over the paths that it has
met before (`Merge.gather`). No two paths have the same text (`Path.text_injective`), so that it
makes no difference if the paths themselves are remembered. For an index this says that a text leads
to the one path that it is the text of (`PathIndex.get?_under_ofPaths`). For a reconciliation
`gatherPaths` remembers paths, and both come to the same result (`gather_eq_gatherPaths`).
-/

namespace StackFlow

namespace PathIndex

/-- Under a block a text leads to the beginning that ends there and has this text. -/
theorem get?_under_ofPaths {ps : Paths} {n : BlockId} {t : String} {q : Path} :
    ((ofPaths ps).under n).get? t = some q ↔ q ∈ ps.pathsTo n ∧ q.text = t := by
  rw [holds_ofPaths ps n t q, ← and_assoc, ← (values_under_perm ps n).mem_iff,
    (holds_ofPaths ps).mem_values]

/-- The index of paths has as many paths under a block as lead there. -/
theorem size_under_ofPaths (ps : Paths) (n : BlockId) :
    ((ofPaths ps).under n).size = (ps.pathsTo n).length := by
  rw [← (values_under_perm ps n).length_eq, SortedMap.values, List.length_map]
  rfl

end PathIndex

namespace Merge

variable {effect? : BlockId → Option StackEffect} {node : BlockId} {seen : SortedSet String}
  {done : Paths}

/-- Adds the balances of paths that must all end at a block; a path that was met before adds
nothing. -/
def gatherPaths (effect? : BlockId → Option StackEffect) (node : BlockId) (done : Paths)
    (m : List PathBalance) : Paths → Except BalanceError (List PathBalance)
  | [] => .ok m
  | p :: ps =>
    match p.getLast? with
    | none => .error .emptyPath
    | some n =>
      if n ≠ node then .error (.notAtMerge p node)
      else if p ∈ done then gatherPaths effect? node done m ps
      else
        match Balance.ofPath effect? p with
        | .error e => .error (.onPath p e)
        | .ok b => gatherPaths effect? node (p :: done) (m ++ [⟨p, b⟩]) ps

/-- As long as the texts that were seen are those of the paths that are done, it does not matter
which of the two are remembered. -/
theorem gather_eq_gatherPaths (hseen : ∀ p : Path, p.text ∈ seen.toList ↔ p ∈ done)
    (m : List PathBalance) (ps : Paths) :
    gather effect? node seen m ps = gatherPaths effect? node done m ps := by
  induction ps generalizing seen done m with
  | nil => rfl
  | cons p ps ih =>
    have hmet : seen.contains p.text = true ↔ p ∈ done := (seen.contains_iff _).trans (hseen p)
    -- one more path is remembered on both sides
    have hnext : ∀ q : Path, q.text ∈ (seen.add p.text).toList ↔ q ∈ p :: done := by
      intro q
      rw [SortedSet.mem_toList_add, hseen, Path.text_injective.eq_iff, List.mem_cons, or_comm]
    rw [gather, gatherPaths]
    cases p.getLast? with
    | none => rfl
    | some n =>
      refine if_congr Iff.rfl rfl (if_congr hmet (ih hseen m) ?_)
      cases Balance.ofPath effect? p with
      | error e => rfl
      | ok b => exact ih hnext _

end Merge

/-- Paths with the same text are the same, whatever their blocks and however many they are. So the
texts under which beginnings of paths are filed stand for one beginning each, and all of them are
filed; and a reconciliation that remembers texts passes over the same paths as one that remembers
paths. -/
theorem Path.text_identifies_path :
    (∀ p q : Path, p.text = q.text ↔ p = q) ∧
      (∀ (ps : Paths) (n : BlockId),
        (∀ t q, ((PathIndex.ofPaths ps).under n).get? t = some q ↔
          q ∈ ps.pathsTo n ∧ q.text = t) ∧
        ((PathIndex.ofPaths ps).under n).size = (ps.pathsTo n).length) ∧
      ∀ (effect? : BlockId → Option StackEffect) (node : BlockId) (ps : Paths),
        Merge.gather effect? node .empty [] ps = Merge.gatherPaths effect? node [] [] ps := by
  refine ⟨fun p q => Path.text_injective.eq_iff,
    fun ps n => ⟨fun t q => PathIndex.get?_under_ofPaths, PathIndex.size_under_ofPaths ps n⟩,
    fun effect? node ps => Merge.gather_eq_gatherPaths (fun p => ?_) [] ps⟩
  exact iff_of_false List.not_mem_nil List.not_mem_nil

end StackFlow
