import StackFlow.Proofs.ExactBalance
import StackFlow.Proofs.PathIndex
import StackFlow.Proofs.Reconciliation

/-!
# What can go wrong at a merge node

The beginnings of paths that end at a merge node are reconciled there. Reconciling has to refuse an
empty collection, empty paths and paths that end elsewhere, but none of these comes from a merge
node: at least two beginnings end there, none of them is empty and the node is its last block.
What is left is a fault of a path on its own (`Balance.Fault`): a path that is not empty has a
balance exactly if it has no such fault (`Balance.exists_ofPath_iff`).
-/

namespace StackFlow

namespace Balance

variable {effect? : BlockId → Option StackEffect} {p : Path} {e : BalanceError}

/-- Why a path with blocks has no balance. -/
inductive Fault (effect? : BlockId → Option StackEffect) (p : Path) : BalanceError → Prop
  /-- Nothing is known of a block on the path. -/
  | missing {n : BlockId} (hn : n ∈ p) (hnone : effect? n = none) : Fault effect? p (.missing n)
  /-- A block on the path needs a negative number of items. -/
  | invalid {n : BlockId} {x : StackEffect} (hn : n ∈ p) (hx : effect? n = some x)
      (hneed : x.need < 0) : Fault effect? p (.invalid n x)
  /-- All blocks are in order, and the path leaves a negative number of items. -/
  | negativeExit (hknown : ∀ n ∈ p, ∃ x, effect? n = some x ∧ 0 ≤ x.need.toInt)
      (hexit : exitWord (effects effect? p) < 0) :
      Fault effect? p (.negativeExit p (exitWord (effects effect? p)))

/-- A run along a path stops only at a block that is not known or needs a negative number of items.
-/
theorem Running.fault_of_along {r : Running} (h : Running.along effect? r p = .error e) :
    (∃ n ∈ p, effect? n = none ∧ e = .missing n) ∨
      ∃ n ∈ p, ∃ x, effect? n = some x ∧ x.need < 0 ∧ e = .invalid n x := by
  induction p generalizing r with
  | nil => exact absurd h (by nofun)
  | cons n p ih =>
    rw [Running.along] at h
    cases hn : effect? n with
    | none =>
      rw [hn] at h
      exact .inl ⟨n, List.mem_cons_self, hn, (Except.error.inj h).symm⟩
    | some x =>
      rw [hn] at h
      dsimp only at h
      by_cases hneed : x.need < 0
      · rw [if_pos hneed] at h
        exact .inr ⟨n, List.mem_cons_self, x, hn, hneed, (Except.error.inj h).symm⟩
      · rw [if_neg hneed] at h
        rcases ih h with ⟨k, hk, hfault⟩ | ⟨k, hk, hfault⟩
        · exact .inl ⟨k, List.mem_cons_of_mem n hk, hfault⟩
        · exact .inr ⟨k, List.mem_cons_of_mem n hk, hfault⟩

/-- A path without a balance has a fault, the one that it is refused for. -/
theorem fault_of_ofPath (hne : p ≠ []) (h : ofPath effect? p = .error e) : Fault effect? p e := by
  cases hrun : Running.along effect? ⟨0, 0⟩ p with
  | error e' =>
    have he : ofPath effect? p = .error e' := by
      obtain ⟨n, p, rfl⟩ := List.exists_cons_of_ne_nil hne
      unfold ofPath
      dsimp only
      rw [hrun]
      rfl
    obtain rfl : e = e' := Except.error.inj (h.symm.trans he)
    rcases Running.fault_of_along hrun with ⟨n, hn, hnone, rfl⟩ | ⟨n, hn, x, hx, hneed, rfl⟩
    · exact .missing hn hnone
    · exact .invalid hn hx hneed
  | ok r =>
    -- the run went through, so that only the number of items left can be at fault
    have hknown := (Running.along_eq_ok hrun).1
    rw [ofPath_of_known hne hknown] at h
    by_cases hexit : exitWord (effects effect? p) < 0
    · rw [if_pos hexit] at h
      obtain rfl := Except.error.inj h
      exact .negativeExit hknown hexit
    · rw [if_neg hexit] at h
      exact absurd h (by nofun)

/-- A path with a fault has no balance. -/
theorem Fault.not_ofPath_eq_ok (h : Fault effect? p e) (b : Balance) :
    ofPath effect? p ≠ .ok b := by
  intro hb
  obtain ⟨r, hr, -⟩ := ofPath_eq_ok hb
  obtain ⟨hknown, -⟩ := Running.along_eq_ok hr
  cases h with
  | missing hn hnone =>
    obtain ⟨x, hx, -⟩ := hknown _ hn
    exact absurd (hnone.symm.trans hx) (by nofun)
  | invalid hn hx hneed =>
    obtain ⟨y, hy, hnonneg⟩ := hknown _ hn
    obtain rfl := Option.some.inj (hx.symm.trans hy)
    have hlt := Int64.lt_iff_toInt_lt.1 hneed
    rw [Int64.toInt_zero] at hlt
    omega
  | negativeExit hknown' hexit =>
    have hne : p ≠ [] := by
      rintro rfl
      exact absurd hb (by nofun)
    rw [ofPath_of_known hne hknown', if_pos hexit] at hb
    exact absurd hb (by nofun)

/-- A path that is not empty has a balance exactly if it is not at fault. -/
theorem exists_ofPath_iff (hne : p ≠ []) :
    (∃ b, ofPath effect? p = .ok b) ↔ ∀ e, ¬ Fault effect? p e := by
  constructor
  · rintro ⟨b, hb⟩ e hfault
    exact hfault.not_ofPath_eq_ok b hb
  · intro hnone
    cases hp : ofPath effect? p with
    | ok b => exact ⟨b, rfl⟩
    | error e => exact absurd (fault_of_ofPath hne hp) (hnone e)

end Balance

/-- A beginning that leads to a block is not empty. -/
theorem Paths.ne_nil_of_mem_pathsTo {ps : Paths} {n : BlockId} {p : Path}
    (hp : p ∈ ps.pathsTo n) : p ≠ [] := by
  rintro rfl
  exact absurd (mem_pathsTo.1 hp).2 (by nofun)

namespace Merge

open Balance

/-- At a merge node of any collection of paths, reconciling the beginnings that end there fails only
because of a fault of one of them: a block on it is not known or needs a negative number of items,
or it leaves a negative number of items. So there is never a lack of paths, an empty path or a path
that ends elsewhere. It succeeds exactly if no beginning is at fault, and then lists the beginnings
in their order, which are at least two. -/
theorem ofPaths_at_mergeNode (effect? : BlockId → Option StackEffect) (ps : Paths) (n : BlockId)
    (hn : n ∈ ps.mergeNodes) :
    (∀ e, ofPaths effect? n (ps.pathsTo n) = .error e →
        ∃ p ∈ ps.pathsTo n, ∃ cause, Fault effect? p cause ∧ e = .onPath p cause) ∧
      ((∃ m, ofPaths effect? n (ps.pathsTo n) = .ok m) ↔
        ∀ p ∈ ps.pathsTo n, ∀ cause, ¬ Fault effect? p cause) ∧
      ∀ m, ofPaths effect? n (ps.pathsTo n) = .ok m →
        m.perPath.map (·.path) = ps.pathsTo n ∧ 2 ≤ m.perPath.length := by
  have hne := Paths.pathsTo_ne_nil hn
  have hlast : ∀ p ∈ ps.pathsTo n, p.getLast? = some n := fun p hp => (Paths.mem_pathsTo.1 hp).2
  refine ⟨fun e he => ?_, ?_, fun m hm => ?_⟩
  · obtain ⟨p, hp, hoffends, -⟩ := (ofPaths_eq_error_iff hne).1 he
    cases hoffends with
    | empty => exact absurd rfl (Paths.ne_nil_of_mem_pathsTo hp)
    | elsewhere hlast' hk => exact absurd (Option.some.inj (hlast'.symm.trans (hlast p hp))) hk
    | unbalanced _ hcause =>
      exact ⟨p, hp, _, fault_of_ofPath (Paths.ne_nil_of_mem_pathsTo hp) hcause, rfl⟩
  · rw [exists_ofPaths_iff hne]
    refine forall₂_congr (fun p hp => ?_)
    rw [and_iff_right (hlast p hp), exists_ofPath_iff (Paths.ne_nil_of_mem_pathsTo hp)]
  · obtain ⟨-, -, hbalances⟩ := balances_of_ofPaths hm
    -- both lists ascend and have the same members
    have hpaths : m.perPath.map (·.path) = ps.pathsTo n :=
      Paths.eq_of_mem_iff hbalances.ascending (ps.pairwise_lt_pathsTo n) hbalances.mem_iff
    refine ⟨hpaths, ?_⟩
    calc 2 ≤ (ps.pathsTo n).length := Paths.mem_mergeNodes_iff_length.1 hn
      _ = m.perPath.length := by rw [← hpaths, List.length_map]

/-- Each block puts an item on the stack, except block 2, of which nothing is known. -/
def unknownTwo (n : BlockId) : Option StackEffect := if n = 2 then none else some ⟨0, 1⟩

/-- Among the paths is an empty one, and one meets itself at block 1. If all blocks are known, both
its beginnings there have a balance. Otherwise the longer one, which passes block 2, is at fault. -/
theorem ofPaths_at_mergeNode_winding :
    1 ∈ Paths.windingPaths.mergeNodes ∧
      (∃ m, ofPaths (fun _ => some ⟨0, 1⟩) 1 (Paths.windingPaths.pathsTo 1) = .ok m ∧
        m.perPath.map (·.path) = [[0, 1], [0, 1, 2, 1]] ∧ 2 ≤ m.perPath.length) ∧
      ¬ (∃ m, ofPaths unknownTwo 1 (Paths.windingPaths.pathsTo 1) = .ok m) ∧
      ∃ p cause, ofPaths unknownTwo 1 (Paths.windingPaths.pathsTo 1) = .error (.onPath p cause) ∧
        Fault unknownTwo p cause := by
  have hnodes : Paths.windingPaths.mergeNodes = [1, 2] := by cbv
  have hn : 1 ∈ Paths.windingPaths.mergeNodes := hnodes ▸ List.mem_cons_self
  have hpaths : Paths.windingPaths.pathsTo 1 = [[0, 1], [0, 1, 2, 1]] := by cbv
  obtain ⟨-, hexists', hlists⟩ :=
    ofPaths_at_mergeNode (fun _ => some ⟨0, 1⟩) Paths.windingPaths 1 hn
  obtain ⟨hfails, hexists, -⟩ := ofPaths_at_mergeNode unknownTwo Paths.windingPaths 1 hn
  have hok : ∃ m, ofPaths (fun _ => some ⟨0, 1⟩) 1 (Paths.windingPaths.pathsTo 1) = .ok m := by
    rw [hexists', hpaths]
    refine List.forall_mem_cons.2 ⟨?_, List.forall_mem_singleton.2 ?_⟩
    · exact (exists_ofPath_iff (by decide)).1 ⟨⟨0, 2⟩, by decide⟩
    · exact (exists_ofPath_iff (by decide)).1 ⟨⟨0, 4⟩, by decide⟩
  have hnot : ¬ ∃ m, ofPaths unknownTwo 1 (Paths.windingPaths.pathsTo 1) = .ok m := by
    rw [hexists, hpaths]
    intro hnone
    exact hnone [0, 1, 2, 1] (by decide) _ (.missing (n := 2) (by decide) rfl)
  refine ⟨hn, ?_, hnot, ?_⟩
  · obtain ⟨m, hm⟩ := hok
    obtain ⟨hlisted, htwo⟩ := hlists m hm
    exact ⟨m, hm, hlisted.trans hpaths, htwo⟩
  · cases hresult : ofPaths unknownTwo 1 (Paths.windingPaths.pathsTo 1) with
    | ok m => exact absurd ⟨m, hresult⟩ hnot
    | error e =>
      obtain ⟨p, -, cause, hfault, rfl⟩ := hfails e hresult
      exact ⟨p, cause, rfl, hfault⟩

end Merge

end StackFlow
