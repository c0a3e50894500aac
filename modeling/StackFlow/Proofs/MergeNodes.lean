import Mathlib.Data.List.Infix
import StackFlow.Convergence

/-!
# Where the beginnings of paths meet

The order of paths is the lexicographic one of lists (`Path.before_iff`). It is linear, so that a
sorted collection has equal paths side by side and `Paths.arrivals` lists each beginning of at least
two blocks once (`pairwise_lt_arrivals`, `mem_arrivals`). A block is a merge node if two different
beginnings end there (`mem_mergeNodes`). A strictly ascending list is given by its members
(`eq_of_mem_iff`), so that `arrivals` depends on which paths are collected, and not on how often or
in which order (`arrivals_congr`).
-/

namespace StackFlow

/-! ## The order of paths -/

namespace Path

/-- The test for the order of paths says what it should. -/
theorem before_iff {p q : Path} : before p q = true ↔ p < q := by
  fun_induction before p q with
  | case1 => exact iff_of_false Bool.false_ne_true (List.lt_irrefl [])
  | case2 b q => exact iff_of_true rfl (List.nil_lt_cons b q)
  | case3 a p => exact iff_of_false Bool.false_ne_true (List.not_lt_nil _)
  | case4 p b q ih =>
    rw [ih, List.cons_lt_cons_iff]
    exact ⟨fun h => .inr ⟨rfl, h⟩, fun h => h.elim (fun h => absurd h Std.lt_irrefl) And.right⟩
  | case5 a p b q hne =>
    rw [decide_eq_true_iff, List.cons_lt_cons_iff]
    exact ⟨.inl, fun h => h.elim id (fun h => absurd h.1 hne)⟩

/-- The test for the order of paths, the other way round. -/
theorem not_before_iff {p q : Path} : (!before q p) = true ↔ p ≤ q := by
  rw [Bool.not_eq_true', ← Bool.not_eq_true, before_iff, List.not_lt]

/-- The beginnings of a path with at least two blocks are its prefixes of this length. -/
theorem mem_arrivals {p q : Path} : q ∈ arrivals p ↔ q <+: p ∧ 2 ≤ q.length := by
  unfold arrivals
  simp only [List.mem_map, List.mem_range]
  constructor
  · rintro ⟨i, hi, rfl⟩
    refine ⟨List.take_prefix _ _, ?_⟩
    rw [List.length_take]
    omega
  · rintro ⟨hq, hlength⟩
    have hle := hq.length_le
    refine ⟨q.length - 2, by omega, ?_⟩
    rw [Nat.sub_add_cancel hlength]
    exact (List.prefix_iff_eq_take.1 hq).symm

end Path

namespace Paths

variable {ps : Paths} {p q : Path} {n : BlockId}

/-- Sorting keeps each path as often as it is there. -/
theorem sorted_perm (ps : Paths) : (sorted ps).Perm ps := List.mergeSort_perm _ _

/-- Sorting keeps the paths. -/
theorem mem_sorted : p ∈ sorted ps ↔ p ∈ ps := (sorted_perm ps).mem_iff

/-- Sorted paths are in order. -/
theorem pairwise_le_sorted (ps : Paths) : (sorted ps).Pairwise (· ≤ ·) := by
  refine (List.pairwise_mergeSort ?_ ?_ ps).imp Path.not_before_iff.1
  · intro p q r hpq hqr
    rw [Path.not_before_iff] at hpq hqr ⊢
    exact List.le_trans hpq hqr
  · intro p q
    rw [Bool.or_eq_true, Path.not_before_iff, Path.not_before_iff]
    exact List.le_total p q

/-- Sorting forgets the order of a collection. -/
theorem sorted_eq_of_perm {qs : Paths} (h : ps.Perm qs) : ps.sorted = qs.sorted :=
  List.Perm.eq_of_pairwise (fun _ _ _ _ => List.le_antisymm) (pairwise_le_sorted ps)
    (pairwise_le_sorted qs) ((sorted_perm ps).trans (h.trans (sorted_perm qs).symm))

/-- No path in strict order is listed twice. -/
theorem nodup_of_pairwise_lt (h : ps.Pairwise (· < ·)) : ps.Nodup := by
  refine h.imp ?_
  rintro p q hlt rfl
  exact Std.lt_irrefl hlt

/-- An ascending list of paths is known by its members. -/
theorem eq_of_mem_iff {qs : Paths} (hps : ps.Pairwise (· < ·)) (hqs : qs.Pairwise (· < ·))
    (h : ∀ p, p ∈ ps ↔ p ∈ qs) : ps = qs := by
  have hperm : ps.Perm qs :=
    (List.perm_ext_iff_of_nodup (nodup_of_pairwise_lt hps) (nodup_of_pairwise_lt hqs)).2 h
  refine hperm.eq_of_pairwise ?_ hps hqs
  intro p q _ _ hpq hqp
  exact absurd hqp (List.lt_asymm hpq)

/-- Without repetition the sorted paths ascend. -/
theorem pairwise_lt_sorted (h : ps.Nodup) : (sorted ps).Pairwise (· < ·) :=
  (List.Pairwise.and (pairwise_le_sorted ps) ((sorted_perm ps).nodup_iff.2 h)).imp
    (fun hpq => Std.lt_of_le_of_ne hpq.1 hpq.2)

/-- A collection without repetition is sorted to the ascending list of its members. -/
theorem sorted_eq_of_mem_iff {qs : Paths} (hps : ps.Nodup) (hqs : qs.Pairwise (· < ·))
    (h : ∀ p, p ∈ ps ↔ p ∈ qs) : ps.sorted = qs :=
  eq_of_mem_iff (pairwise_lt_sorted hps) hqs (fun p => mem_sorted.trans (h p))

/-! ## Beginnings of paths -/

/-- The beginnings of a collection ascend, so that none is listed twice. -/
theorem pairwise_lt_arrivals (ps : Paths) : (arrivals ps).Pairwise (· < ·) :=
  (pairwise_dropRepeats (fun _ _ => List.le_antisymm) (pairwise_le_sorted _)).imp
    (fun h => Std.lt_of_le_of_ne h.1 h.2)

/-- The arrivals are the beginnings of paths, of two blocks at least. -/
theorem mem_arrivals : q ∈ arrivals ps ↔ ∃ p ∈ ps, q <+: p ∧ 2 ≤ q.length := by
  unfold arrivals
  rw [mem_dropRepeats, mem_sorted, List.mem_flatMap]
  simp only [Path.mem_arrivals]

/-- Collections with the same members have the same beginnings. -/
theorem arrivals_congr {qs : Paths} (h : ∀ p, p ∈ ps ↔ p ∈ qs) : ps.arrivals = qs.arrivals := by
  refine eq_of_mem_iff (pairwise_lt_arrivals ps) (pairwise_lt_arrivals qs) (fun q => ?_)
  simp only [mem_arrivals, h]

/-- The paths to a block are the arrivals that end there. -/
theorem mem_pathsTo : q ∈ ps.pathsTo n ↔ q ∈ arrivals ps ∧ q.getLast? = some n := by
  rw [pathsTo, List.mem_filter, decide_eq_true_iff]

/-- The paths to a block are in strict order. -/
theorem pairwise_lt_pathsTo (ps : Paths) (n : BlockId) : (ps.pathsTo n).Pairwise (· < ·) :=
  (pairwise_lt_arrivals ps).filter _

/-- No path to a block is listed twice. -/
theorem nodup_pathsTo (ps : Paths) (n : BlockId) : (ps.pathsTo n).Nodup :=
  nodup_of_pairwise_lt (pairwise_lt_pathsTo ps n)

/-- Merge nodes are the blocks that more than one path leads to. -/
theorem mem_mergeNodes_iff_length : n ∈ ps.mergeNodes ↔ 1 < (ps.pathsTo n).length := by
  have hcount : ((arrivals ps).filterMap (·.getLast?)).count n = (ps.pathsTo n).length := by
    rw [List.count_filterMap, List.countP_eq_length_filter, pathsTo]
    simp only [beq_eq_decide]
  unfold mergeNodes
  rw [List.mem_filter, SortedSet.mem_toList_ofList, decide_eq_true_iff, hcount]
  -- what occurs more than once occurs
  refine and_iff_right_of_imp (fun h => List.count_pos_iff.1 ?_)
  rw [hcount]
  omega

/-- A block is a merge node if two different beginnings end there. -/
theorem mem_mergeNodes :
    n ∈ ps.mergeNodes ↔ ∃ p q, p ≠ q ∧ p ∈ ps.pathsTo n ∧ q ∈ ps.pathsTo n := by
  rw [mem_mergeNodes_iff_length, one_lt_length_iff_of_nodup (nodup_pathsTo ps n)]

/-- Some path leads to a merge node. -/
theorem pathsTo_ne_nil (h : n ∈ ps.mergeNodes) : ps.pathsTo n ≠ [] := by
  obtain ⟨p, -, -, hp, -⟩ := mem_mergeNodes.1 h
  exact List.ne_nil_of_mem hp

/-- Merge nodes are listed in ascending order. -/
theorem pairwise_lt_mergeNodes (ps : Paths) : ps.mergeNodes.Pairwise (· < ·) :=
  (SortedMap.pairwise_lt_keys _).filter _

/-- No paths meet nowhere. -/
theorem notMem_mergeNodes_nil : n ∉ mergeNodes [] := by
  rw [mem_mergeNodes]
  rintro ⟨p, -, -, hp, -⟩
  obtain ⟨full, hfull, -⟩ := mem_arrivals.1 (mem_pathsTo.1 hp).1
  exact absurd hfull List.not_mem_nil

/-- More paths have more beginnings. -/
theorem mem_pathsTo_of_subset {qs : Paths} (h : ∀ p ∈ ps, p ∈ qs) (hp : p ∈ ps.pathsTo n) :
    p ∈ qs.pathsTo n := by
  obtain ⟨harrival, hlast⟩ := mem_pathsTo.1 hp
  obtain ⟨full, hfull, hprefix⟩ := mem_arrivals.1 harrival
  exact mem_pathsTo.2 ⟨mem_arrivals.2 ⟨full, h full hfull, hprefix⟩, hlast⟩

/-- More paths meet at more blocks. -/
theorem mem_mergeNodes_of_subset {qs : Paths} (h : ∀ p ∈ ps, p ∈ qs) (hn : n ∈ ps.mergeNodes) :
    n ∈ qs.mergeNodes := by
  obtain ⟨p, q, hne, hp, hq⟩ := mem_mergeNodes.1 hn
  exact mem_mergeNodes.2 ⟨p, q, hne, mem_pathsTo_of_subset h hp, mem_pathsTo_of_subset h hq⟩

/-- The order of a collection does not matter for where its paths meet. -/
theorem mem_mergeNodes_sorted : n ∈ (sorted ps).mergeNodes ↔ n ∈ ps.mergeNodes := by
  simp only [mem_mergeNodes, mem_pathsTo, mem_arrivals, mem_sorted]

end Paths

end StackFlow
