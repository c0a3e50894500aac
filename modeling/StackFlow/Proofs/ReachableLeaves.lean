import StackFlow.Convergence
import StackFlow.Proofs.Walks

/-!
# Paths end at the leaves that are reached

A search follows only paths without repetition. Still the last blocks of the paths from a block are
all the leaves that the block reaches by any walk. So the paths converge exactly if there is one
such leaf, and there is no path exactly if there is none.
-/

namespace StackFlow

/-- A path that is not empty ends somewhere. -/
theorem Path.exists_getLast? {p : Path} (h : p ≠ []) : ∃ n, p.getLast? = some n :=
  ⟨_, List.getLast?_eq_some_getLast h⟩

/-- The end of a path is its last block. -/
theorem Path.ending_eq_ok {p : Path} {n : BlockId} (h : p.getLast? = some n) :
    p.ending = .ok n := by
  unfold Path.ending
  rw [h]

namespace Paths

/-- Paths with blocks have last blocks. -/
theorem endings_eq_ok {ps : Paths} (h : ∀ p ∈ ps, p ≠ []) :
    ∃ ns, ps.endings = .ok ns ∧ ∀ n, n ∈ ns ↔ ∃ p ∈ ps, p.getLast? = some n := by
  unfold endings
  induction ps with
  | nil => exact ⟨[], rfl, by simp⟩
  | cons p ps ih =>
    obtain ⟨ns, hns, hmem⟩ := ih (fun q hq => h q (List.mem_cons_of_mem _ hq))
    obtain ⟨m, hm⟩ := Path.exists_getLast? (h p List.mem_cons_self)
    refine ⟨m :: ns, ?_, fun n => ?_⟩
    · rw [List.mapM_cons, Path.ending_eq_ok hm, hns]
      rfl
    · rw [List.mem_cons, hmem, List.exists_mem_cons_iff, hm, Option.some.injEq, eq_comm]

/-- The distinct last blocks of paths with blocks, in ascending order. -/
theorem ends_eq_ok {ps : Paths} (h : ∀ p ∈ ps, p ≠ []) :
    ∃ es, ps.ends = .ok es ∧ es.Pairwise (· < ·) ∧
      ∀ n, n ∈ es ↔ ∃ p ∈ ps, p.getLast? = some n := by
  obtain ⟨ns, hns, hmem⟩ := endings_eq_ok h
  refine ⟨(SortedSet.ofList ns).toList, ?_, SortedMap.pairwise_lt_keys _, fun n => ?_⟩
  · unfold ends
    rw [hns]
    rfl
  · rw [SortedSet.mem_toList_ofList, hmem]

end Paths

namespace Convergence

/-- For paths that are not empty it can be told whether all of them end at a block. -/
theorem allEndAt_eq_ok {ps : Paths} (h : ∀ p ∈ ps, p ≠ []) (n : BlockId) :
    ∃ b, allEndAt n ps = .ok b ∧ (b = true ↔ ∀ p ∈ ps, p.getLast? = some n) := by
  induction ps with
  | nil => exact ⟨true, rfl, by simp⟩
  | cons p ps ih =>
    obtain ⟨m, hm⟩ := Path.exists_getLast? (h p List.mem_cons_self)
    rw [allEndAt, Path.ending_eq_ok hm]
    by_cases hmn : m = n
    · obtain ⟨b, hb, hiff⟩ := ih (fun q hq => h q (List.mem_cons_of_mem _ hq))
      refine ⟨b, ?_, ?_⟩
      · rw [← hb]
        exact if_pos hmn
      · rw [hiff, List.forall_mem_cons, hm, hmn]
        exact (and_iff_right rfl).symm
    · -- the first path that ends elsewhere settles it
      refine ⟨false, if_neg hmn, iff_of_false Bool.false_ne_true ?_⟩
      intro hall
      have hn := hall p List.mem_cons_self
      rw [hm, Option.some.injEq] at hn
      exact hmn hn

/-- Paths with blocks converge at a block exactly if there are any and all of them end there. -/
theorem ofPaths_eq_ok {ps : Paths} (h : ∀ p ∈ ps, p ≠ []) :
    ∃ c, ofPaths ps = .ok c ∧ c.paths = ps ∧
      ∀ x, c.node? = some x ↔ ps ≠ [] ∧ ∀ p ∈ ps, p.getLast? = some x := by
  cases ps with
  | nil => exact ⟨⟨none, []⟩, rfl, rfl, by simp⟩
  | cons p ps =>
    obtain ⟨m, hm⟩ := Path.exists_getLast? (h p List.mem_cons_self)
    obtain ⟨b, hb, hiff⟩ := allEndAt_eq_ok (fun q hq => h q (List.mem_cons_of_mem _ hq)) m
    refine ⟨⟨if b then some m else none, p :: ps⟩, ?_, rfl, fun x => ?_⟩
    · rw [ofPaths, Path.ending_eq_ok hm]
      simp only [bind, Except.bind, hb]
      rfl
    · dsimp only
      rw [and_iff_right (List.cons_ne_nil p ps), List.forall_mem_cons, hm, Option.some.injEq]
      constructor
      · intro hx
        by_cases hbt : b = true
        · rw [if_pos hbt, Option.some.injEq] at hx
          exact ⟨hx, hx ▸ hiff.1 hbt⟩
        · rw [if_neg hbt] at hx
          exact absurd hx (by simp)
      · rintro ⟨rfl, hall⟩
        rw [if_pos (hiff.2 hall)]

/-- Where no path is required, paths with blocks lead to a conclusion. -/
theorem conclude_eq_ok {ps : Paths} (h : ∀ p ∈ ps, p ≠ []) (start : BlockId) :
    ∃ c, conclude false start ps = .ok c ∧
      ∀ x, c.node? = some x ↔ ps ≠ [] ∧ ∀ p ∈ ps, p.getLast? = some x := by
  obtain ⟨c, hc, -, hnode⟩ := ofPaths_eq_ok h
  refine ⟨c, ?_, hnode⟩
  rw [conclude, hc]
  rfl

/-- Paths with blocks lead to a conclusion, unless a path is required and there is none. -/
theorem conclude_eq_error_iff {strict : Bool} {ps : Paths} (h : ∀ p ∈ ps, p ≠ []) (start : BlockId)
    {e : ConvergenceError} :
    conclude strict start ps = .error e ↔ strict = true ∧ ps = [] ∧ e = .noPaths start := by
  obtain ⟨c, hc, rfl, -⟩ := ofPaths_eq_ok h
  rw [conclude, hc]
  cases strict with
  | false => simp
  | true =>
    cases hempty : c.paths with
    | nil => simp [hempty, eq_comm]
    | cons p ps => simp [hempty]

/-- Where a path is required, there is a complaint exactly if there is none. -/
theorem conclude_eq_noPaths_iff {ps : Paths} (h : ∀ p ∈ ps, p ≠ []) (start : BlockId) :
    conclude true start ps = .error (.noPaths start) ↔ ps = [] := by
  rw [conclude_eq_error_iff h, and_iff_right rfl, and_iff_left rfl]

end Convergence

namespace Graph

variable {g : Graph} {order : CandidateOrder} {s : BlockId} {p : Path}

/-- Whether a path leads to a leaf depends on the successors only. -/
theorem IsLeafPath.of_successors_eq {g' : Graph} (hsuccs : g.successors = g'.successors)
    (h : g.IsLeafPath s p) : g'.IsLeafPath s p := by
  obtain ⟨hlength, hhead, hsteps, hnodup, hend⟩ := h
  rw [hsuccs] at hsteps hend
  exact ⟨hlength, hhead, hsteps, hnodup, hend⟩

/-- The paths depend on the successors only, up to the order in which they are found. -/
theorem pathsWith_perm {g' : Graph} (hsuccs : g.successors = g'.successors)
    (order order' : CandidateOrder) (s : BlockId) :
    (g.pathsWith order s).Perm (g'.pathsWith order' s) := by
  rw [List.perm_ext_iff_of_nodup (g.nodup_pathsWith order s) (g'.nodup_pathsWith order' s)]
  intro p
  rw [mem_pathsWith, mem_pathsWith]
  exact ⟨fun h => h.of_successors_eq hsuccs, fun h => h.of_successors_eq hsuccs.symm⟩

/-- Paths that are found are not empty. -/
theorem ne_nil_of_mem_pathsWith (h : p ∈ g.pathsWith order s) : p ≠ [] := by
  rintro rfl
  exact absurd (mem_pathsWith.1 h).head (by simp)

/-- The last blocks of the paths from a block with successors are the leaves that it reaches. -/
theorem exists_mem_pathsWith_iff (order : CandidateOrder) {n : BlockId} :
    (∃ p ∈ g.pathsWith order s, p.getLast? = some n) ↔
      g.successors s ≠ [] ∧ g.Reach s n ∧ g.isLeaf n = true := by
  unfold isLeaf
  rw [List.isEmpty_iff, ← exists_leafPath_iff]
  simp only [mem_pathsWith]

/-- There is a path from a block exactly if it has successors and reaches a leaf. -/
theorem pathsWith_eq_nil_iff :
    g.pathsWith order s = [] ↔
      g.isLeaf s = true ∨ ∀ n, g.Reach s n → g.isLeaf n = false := by
  constructor
  · intro hnil
    by_cases hs : g.isLeaf s = true
    · exact .inl hs
    · refine .inr (fun n hn => Bool.eq_false_iff.2 (fun hleaf => ?_))
      have hsuccs : g.successors s ≠ [] := fun he => hs (List.isEmpty_iff.2 he)
      obtain ⟨p, hp, -⟩ := (exists_mem_pathsWith_iff order).2 ⟨hsuccs, hn, hleaf⟩
      rw [hnil] at hp
      exact List.not_mem_nil hp
  · intro h
    rw [List.eq_nil_iff_forall_not_mem]
    intro p hp
    obtain ⟨n, hn⟩ := Path.exists_getLast? (ne_nil_of_mem_pathsWith hp)
    obtain ⟨hsuccs, hreach, hleaf⟩ := (exists_mem_pathsWith_iff order).1 ⟨p, hp, hn⟩
    rcases h with h | h
    · exact hsuccs (List.isEmpty_iff.1 h)
    · rw [h n hreach] at hleaf
      exact absurd hleaf (by decide)

/-- There is a path from a block exactly if it reaches a leaf in one or more steps. -/
theorem pathsWith_eq_nil_iff_transGen :
    g.pathsWith order s = [] ↔ ∀ n, Relation.TransGen g.Adj s n → g.isLeaf n = false := by
  rw [pathsWith_eq_nil_iff]
  constructor
  · rintro (hleaf | hall) n hn
    · -- a leaf takes no step
      obtain ⟨m, hsm, -⟩ := Relation.TransGen.head'_iff.1 hn
      exact absurd (List.isEmpty_iff.1 hleaf) (List.ne_nil_of_mem hsm)
    · exact hall n hn.to_reflTransGen
  · intro hall
    by_cases hs : g.isLeaf s = true
    · exact .inl hs
    · refine .inr (fun n hn => ?_)
      rcases Relation.reflTransGen_iff_eq_or_transGen.1 hn with rfl | hn
      · exact Bool.eq_false_iff.2 hs
      · exact hall n hn

/-- The paths from a block with successors all end at one block exactly if this is the only leaf
that it reaches. -/
theorem forall_getLast?_pathsWith_iff (order : CandidateOrder) {x : BlockId} :
    (g.pathsWith order s ≠ [] ∧ ∀ p ∈ g.pathsWith order s, p.getLast? = some x) ↔
      g.successors s ≠ [] ∧ (g.Reach s x ∧ g.isLeaf x = true) ∧
        ∀ y, g.Reach s y → g.isLeaf y = true → y = x := by
  constructor
  · rintro ⟨hsome, hall⟩
    obtain ⟨p, hp⟩ := List.exists_mem_of_ne_nil _ hsome
    obtain ⟨hsuccs, hx⟩ := (exists_mem_pathsWith_iff order).1 ⟨p, hp, hall p hp⟩
    refine ⟨hsuccs, hx, fun y hy hleaf => ?_⟩
    -- a path to another leaf would not end at this one
    obtain ⟨q, hq, hlast⟩ := (exists_mem_pathsWith_iff order).2 ⟨hsuccs, hy, hleaf⟩
    exact Option.some.inj (hlast.symm.trans (hall q hq))
  · rintro ⟨hsuccs, hx, honly⟩
    obtain ⟨p, hp, -⟩ := (exists_mem_pathsWith_iff order).2 ⟨hsuccs, hx⟩
    refine ⟨List.ne_nil_of_mem hp, fun q hq => ?_⟩
    obtain ⟨y, hy⟩ := Path.exists_getLast? (ne_nil_of_mem_pathsWith hq)
    obtain ⟨-, hreach, hleaf⟩ := (exists_mem_pathsWith_iff order).1 ⟨q, hq, hy⟩
    rw [hy, honly y hreach hleaf]

/-- Whatever the order in which a search tries its candidates, the distinct last blocks of the paths
from a block are the leaves that it reaches by any walk, in ascending order, provided that it has
successors; otherwise there are none. So the paths converge at a block exactly if it is the only
leaf reached from a block with successors. Where a path is required, there is a complaint exactly if
the block is a leaf, unknown, or reaches no leaf. -/
theorem paths_end_at_reachable_leaves (g : Graph) (order : CandidateOrder) (s : BlockId) :
    (∃ es, (g.pathsWith order s).ends = .ok es ∧ es.Pairwise (· < ·) ∧
      ∀ n, n ∈ es ↔ g.successors s ≠ [] ∧ g.Reach s n ∧ g.isLeaf n = true) ∧
    (∃ c, g.convergenceWith order false s = .ok c ∧
      ∀ x, c.node? = some x ↔
        g.successors s ≠ [] ∧ (g.Reach s x ∧ g.isLeaf x = true) ∧
          ∀ y, g.Reach s y → g.isLeaf y = true → y = x) ∧
    (g.convergenceWith order true s = .error (.noPaths s) ↔
      g.isLeaf s = true ∨ g.hasNode s = false ∨ ∀ n, g.Reach s n → g.isLeaf n = false) := by
  have hne : ∀ p ∈ g.pathsWith order s, p ≠ [] := fun p hp => ne_nil_of_mem_pathsWith hp
  refine ⟨?_, ?_, ?_⟩
  · obtain ⟨es, hes, hsorted, hmem⟩ := Paths.ends_eq_ok hne
    exact ⟨es, hes, hsorted, fun n => (hmem n).trans (exists_mem_pathsWith_iff order)⟩
  · obtain ⟨c, hc, hnode⟩ := Convergence.conclude_eq_ok hne s
    exact ⟨c, hc, fun x => (hnode x).trans (forall_getLast?_pathsWith_iff order)⟩
  · -- an unknown block has no successors either
    have hunknown : g.hasNode s = false → g.isLeaf s = true := isLeaf_of_hasNode_eq_false
    rw [convergenceWith, Convergence.conclude_eq_noPaths_iff hne, pathsWith_eq_nil_iff, ← or_assoc,
      or_iff_left_of_imp hunknown]

end Graph

end StackFlow
