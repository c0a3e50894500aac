import Mathlib.Data.List.Permutation
import StackFlow.Proofs.MergeNodes
import StackFlow.Proofs.ReachableLeaves

/-!
# Which ways into a block are seen

A search offers whole paths to leaves, and the ways into a block on them are read off as the
beginnings of these paths. A way into a block is therefore seen if it can go on to a leaf without
touching itself, which `Graph.IsBeginning` says without reference to a search
(`mem_pathsTo_pathsWith`). Around a cycle some ways are not seen: what would go on is blocked by
what was passed. At a leaf nothing has to go on, and without cycles a walk cannot touch itself, so
that there all ways are seen.
-/

namespace StackFlow

namespace Graph

/-- A walk from `s` to `n` that takes an edge, repeats no block, and can go on to a leaf without
repeating one. -/
structure IsBeginning (g : Graph) (s n : BlockId) (p : Path) : Prop where
  /-- The blocks are those along a walk. -/
  walk : g.IsWalk s n p
  /-- The walk takes an edge. -/
  two_le_length : 2 ≤ p.length
  /-- No block occurs twice. -/
  nodup : p.Nodup
  /-- The walk goes on to a leaf, and still no block occurs twice. -/
  goes_on : ∃ t l, g.IsWalk s l (p ++ t) ∧ (p ++ t).Nodup ∧ g.isLeaf l = true

variable {g : Graph} {order : CandidateOrder} {s n : BlockId} {p : Path}

/-- A leaf is a block without successors. -/
theorem isLeaf_iff : g.isLeaf n = true ↔ g.successors n = [] := List.isEmpty_iff

/-- The beginnings of paths that end at a block are the ways there that can go on to a leaf. -/
theorem mem_pathsTo_pathsWith :
    p ∈ (g.pathsWith order s).pathsTo n ↔ g.IsBeginning s n p := by
  rw [Paths.mem_pathsTo, Paths.mem_arrivals]
  constructor
  · rintro ⟨⟨full, hfull, ⟨t, rfl⟩, hlength⟩, hlast⟩
    obtain ⟨-, hnodup, l, hwalk, hleaf⟩ := isLeafPath_iff.1 (mem_pathsWith.1 hfull)
    exact ⟨hwalk.of_prefix (List.prefix_append p t) hlast, hlength, hnodup.of_append_left, t, l,
      hwalk, hnodup, isLeaf_iff.2 hleaf⟩
  · rintro ⟨hwalk, hlength, -, t, l, hfull, hnodup, hleaf⟩
    have hlength' : 2 ≤ (p ++ t).length := by
      rw [List.length_append]
      omega
    have hpath : g.IsLeafPath s (p ++ t) :=
      isLeafPath_iff.2 ⟨hlength', hnodup, l, hfull, isLeaf_iff.1 hleaf⟩
    exact ⟨⟨p ++ t, mem_pathsWith.2 hpath, List.prefix_append p t, hlength⟩, hwalk.last⟩

/-- A way that takes an edge and repeats no block does not come back to where it begins. -/
theorem not_isBeginning_self : ¬ g.IsBeginning s s p := by
  intro h
  have hlength := h.two_le_length
  rw [h.walk.eq_singleton h.nodup, List.length_singleton] at hlength
  omega

/-- Paths do not meet at their start. -/
theorem start_notMem_mergeNodes (g : Graph) (order : CandidateOrder) (s : BlockId) :
    s ∉ (g.pathsWith order s).mergeNodes := by
  rw [Paths.mem_mergeNodes]
  rintro ⟨p, -, -, hp, -⟩
  exact not_isBeginning_self (mem_pathsTo_pathsWith.1 hp)

/-! ## Ways to a leaf -/

/-- At a leaf a way has come to its end. -/
theorem isBeginning_iff_of_isLeaf (hn : g.isLeaf n = true) :
    g.IsBeginning s n p ↔ g.IsWalk s n p ∧ p.Nodup ∧ 2 ≤ p.length := by
  constructor
  · intro h
    exact ⟨h.walk, h.nodup, h.two_le_length⟩
  · rintro ⟨hwalk, hnodup, hlength⟩
    refine ⟨hwalk, hlength, hnodup, [], n, ?_, ?_, hn⟩
    · rwa [List.append_nil]
    · rwa [List.append_nil]

/-- The beginnings that end at a leaf are the paths that end there. -/
theorem mem_pathsTo_iff_of_isLeaf (hn : g.isLeaf n = true) :
    p ∈ (g.pathsWith order s).pathsTo n ↔
      p ∈ g.pathsWith order s ∧ p.getLast? = some n := by
  rw [mem_pathsTo_pathsWith, isBeginning_iff_of_isLeaf hn, mem_pathsWith, isLeafPath_iff]
  constructor
  · rintro ⟨hwalk, hnodup, hlength⟩
    exact ⟨⟨hlength, hnodup, n, hwalk, isLeaf_iff.1 hn⟩, hwalk.last⟩
  · rintro ⟨⟨hlength, hnodup, l, hwalk, -⟩, hlast⟩
    obtain rfl : l = n := Option.some.inj (hwalk.last.symm.trans hlast)
    exact ⟨hwalk, hnodup, hlength⟩

/-! ## Ways without cycles -/

/-- Without cycles a walk along an edge can go on to a leaf. -/
theorem Acyclic.isBeginning_iff (h : g.Acyclic) :
    g.IsBeginning s n p ↔ g.IsWalk s n p ∧ 2 ≤ p.length := by
  constructor
  · intro hp
    exact ⟨hp.walk, hp.two_le_length⟩
  · rintro ⟨hwalk, hlength⟩
    -- the walk goes on from its end
    obtain ⟨l, hreach, hleaf⟩ := h.exists_leaf n
    obtain ⟨q, hq, -⟩ := hreach.exists_simple_walk
    obtain ⟨t, rfl⟩ := hq.exists_eq_cons
    have hfull := hwalk.append hq
    exact ⟨hwalk, hlength, h.nodup_of_isWalk hwalk, t, l, hfull, h.nodup_of_isWalk hfull,
      isLeaf_iff.2 hleaf⟩

/-- Without cycles the beginnings of paths that end at a block are the walks there. -/
theorem Acyclic.mem_pathsTo (h : g.Acyclic) (order : CandidateOrder) :
    p ∈ (g.pathsWith order s).pathsTo n ↔ g.IsWalk s n p ∧ 2 ≤ p.length :=
  mem_pathsTo_pathsWith.trans h.isBeginning_iff

/-! ## Paths that converge -/

/-- Where paths converge, all of them end, and there is one. -/
theorem ends_of_convergenceWith {strict : Bool} {c : Convergence} {x : BlockId}
    (h : g.convergenceWith order strict s = .ok c) (hx : c.node? = some x) :
    g.pathsWith order s ≠ [] ∧ ∀ p ∈ g.pathsWith order s, p.getLast? = some x := by
  obtain ⟨c', hc', -, hnode⟩ := Convergence.ofPaths_eq_ok
    (fun p (hp : p ∈ g.pathsWith order s) => ne_nil_of_mem_pathsWith hp)
  unfold convergenceWith Convergence.conclude at h
  rw [hc'] at h
  dsimp only at h
  split at h
  next => exact absurd h (by nofun)
  next =>
    obtain rfl := Except.ok.inj h
    exact (hnode x).1 hx

/-- The beginnings that end where all paths end are the paths. -/
theorem pathsTo_eq_sorted {x : BlockId} (hne : g.pathsWith order s ≠ [])
    (hall : ∀ p ∈ g.pathsWith order s, p.getLast? = some x) :
    (g.pathsWith order s).pathsTo x = (g.pathsWith order s).sorted := by
  obtain ⟨-, ⟨-, hleaf⟩, -⟩ := (forall_getLast?_pathsWith_iff order).1 ⟨hne, hall⟩
  refine (Paths.sorted_eq_of_mem_iff (g.nodup_pathsWith order s)
    (Paths.pairwise_lt_pathsTo _ x) (fun p => ?_)).symm
  rw [mem_pathsTo_iff_of_isLeaf hleaf]
  exact (and_iff_left_of_imp (hall p)).symm

/-- Whatever the order in which a search tries its candidates, the beginnings of the paths from a
block that end at another are the ways there which take an edge, repeat no block, and can go on to a
leaf without repeating one. So paths never meet where they start. To a leaf these are all ways that
take an edge and repeat no block, and in a graph without cycles all walks that take an edge. If the
paths converge at a block and there are at least two, they meet at this block, and the beginnings
that end there are the paths themselves. -/
theorem pathsTo_are_ways_on (g : Graph) (order : CandidateOrder) (s : BlockId) :
    (∀ n p, p ∈ (g.pathsWith order s).pathsTo n ↔ g.IsBeginning s n p) ∧
    s ∉ (g.pathsWith order s).mergeNodes ∧
    (∀ n, g.isLeaf n = true → ∀ p, p ∈ (g.pathsWith order s).pathsTo n ↔
      g.IsWalk s n p ∧ p.Nodup ∧ 2 ≤ p.length) ∧
    (g.Acyclic → ∀ n p, p ∈ (g.pathsWith order s).pathsTo n ↔
      g.IsWalk s n p ∧ 2 ≤ p.length) ∧
    ∀ strict c x, g.convergenceWith order strict s = .ok c → c.node? = some x →
      2 ≤ (g.pathsWith order s).length →
      x ∈ (g.pathsWith order s).mergeNodes ∧
        (g.pathsWith order s).pathsTo x = (g.pathsWith order s).sorted := by
  refine ⟨fun n p => mem_pathsTo_pathsWith, start_notMem_mergeNodes g order s,
    fun n hn p => mem_pathsTo_pathsWith.trans (isBeginning_iff_of_isLeaf hn),
    fun h n p => h.mem_pathsTo order, fun strict c x hc hx hlength => ?_⟩
  obtain ⟨hne, hall⟩ := ends_of_convergenceWith hc hx
  have hsorted := pathsTo_eq_sorted hne hall
  refine ⟨?_, hsorted⟩
  rw [Paths.mem_mergeNodes_iff_length, hsorted, (Paths.sorted_perm _).length_eq]
  exact hlength

/-- A loop of blocks 1 and 2 that both are entered from block 0 and only block 1 leaves. -/
def oneExit : Graph := ofEdges [⟨0, 1⟩, ⟨0, 2⟩, ⟨1, 2⟩, ⟨2, 1⟩, ⟨1, 3⟩]

/-- Two ways from block 0 to block 3. -/
def forked : Graph := ofEdges [⟨0, 1⟩, ⟨0, 2⟩, ⟨1, 3⟩, ⟨2, 3⟩]

/-- Of the two ways into block 2 of the loop the one through block 1 is not seen, since it cannot
leave the loop any more. Without a loop the way through block 1 is seen. -/
theorem pathsTo_are_ways_on_oneExit :
    oneExit.convergenceWith .insertion true 0 = .ok ⟨some 3, [[0, 2, 1, 3], [0, 1, 3]]⟩ ∧
      2 ≤ (oneExit.pathsWith .insertion 0).length ∧
      3 ∈ (oneExit.pathsWith .insertion 0).mergeNodes ∧
      oneExit.isLeaf 3 = true ∧ [0, 1, 3] ∈ (oneExit.pathsWith .insertion 0).pathsTo 3 ∧
      oneExit.IsWalk 0 2 [0, 1, 2] ∧ (oneExit.pathsWith .insertion 0).pathsTo 2 = [[0, 2]] ∧
      forked.Acyclic ∧ [0, 1, 3] ∈ (forked.pathsWith .insertion 0).pathsTo 3 := by
  have hwalk : ∀ {g : Graph} {a : BlockId}, g.Adj 0 1 → g.Adj 1 a → g.IsWalk 0 a [0, 1, a] :=
    fun {g} _ h01 h1a => ((isWalk_singleton g 0).concat h01).concat h1a
  have hpaths : oneExit.pathsWith .insertion 0 = [[0, 2, 1, 3], [0, 1, 3]] := by cbv
  have hconverge :
      oneExit.convergenceWith .insertion true 0 = .ok ⟨some 3, [[0, 2, 1, 3], [0, 1, 3]]⟩ := by
    cbv
  have hlength : 2 ≤ (oneExit.pathsWith .insertion 0).length := by rw [hpaths]; decide
  have hleaf : oneExit.isLeaf 3 = true := by decide
  have hacyclic : forked.Acyclic := by
    refine acyclic_of_lt (fun m n hadj => ?_)
    have hedge := adj_ofEdges.1 hadj
    simp only [List.mem_cons, List.not_mem_nil, or_false, Edge.mk.injEq] at hedge
    rcases hedge with ⟨rfl, rfl⟩ | ⟨rfl, rfl⟩ | ⟨rfl, rfl⟩ | ⟨rfl, rfl⟩ <;> decide
  obtain ⟨-, -, hways, -, hmeet⟩ := pathsTo_are_ways_on oneExit .insertion 0
  obtain ⟨-, -, -, hwalks, -⟩ := pathsTo_are_ways_on forked .insertion 0
  refine ⟨hconverge, hlength, (hmeet true _ 3 hconverge rfl hlength).1, hleaf,
    (hways 3 hleaf _).2 ⟨?_, by decide, by decide⟩, ?_, by cbv, hacyclic,
    (hwalks hacyclic 3 _).2 ⟨?_, by decide⟩⟩
  all_goals exact hwalk (adj_ofEdges.2 (by decide)) (adj_ofEdges.2 (by decide))

end Graph

end StackFlow
