import StackFlow.Proofs.MergeNodes
import StackFlow.Proofs.PathText

/-!
# Beginnings of paths by block and text

A `PathIndex` files the beginnings of paths under the block at which they end, and there under their
texts. A path that is filed replaces one with the same text. This loses nothing, because a text
stands for one path: after any sequence of paths the index holds exactly these (`holds_foldl`).

So the beginnings that end at a block can be read off the index in any order and be sorted, and a
block is a merge node if more than one text is filed under it. The main result,
`pathsTo_mergeNodes_by_beginnings`, says this beside what `Paths.pathsTo` and `Paths.mergeNodes`
list for any collection, with repeated blocks, repeated paths and empty ones.
-/

namespace StackFlow

/-- Paths filed under their last blocks and their texts. -/
abbrev PathIndex := SortedMap BlockId (SortedMap String Path)

namespace PathIndex

/-- What is filed under a block. -/
def under (index : PathIndex) (n : BlockId) : SortedMap String Path := (index.get? n).getD .empty

/-- Files a path; one that is filed under the same block and text is replaced. -/
def file (index : PathIndex) (q : Path) : PathIndex :=
  match q.getLast? with
  | none => index
  | some n => index.upsert n (fun filed? => (filed?.getD .empty).insert q.text q)

/-- The beginnings of a collection's paths, filed in turn. -/
def ofPaths (ps : Paths) : PathIndex := (ps.flatMap Path.arrivals).foldl file .empty

/-- The paths of a list, and no others, are filed. -/
def Holds (index : PathIndex) (qs : Paths) : Prop :=
  ∀ n t q, (index.under n).get? t = some q ↔ q ∈ qs ∧ q.getLast? = some n ∧ q.text = t

variable {index : PathIndex} {n : BlockId} {t : String} {q : Path} {ps qs : Paths}

/-! ## Filing -/

/-- A path that is filed is found under its end by its text, and the others are found as before. -/
theorem get?_under_file (index : PathIndex) (q : Path) (m : BlockId) (t : String) :
    ((index.file q).under m).get? t =
      if q.getLast? = some m ∧ q.text = t then some q else (index.under m).get? t := by
  unfold file under
  cases hlast : q.getLast? with
  | none => rw [if_neg (fun h => absurd h.1 (by nofun))]
  | some n =>
    dsimp only
    rw [SortedMap.get?_upsert]
    by_cases hm : m = n
    · subst hm
      rw [if_pos rfl, Option.getD_some, SortedMap.get?_insert]
      simp only [true_and, eq_comm]
    · rw [if_neg hm, if_neg (fun h => hm (Option.some.inj h.1).symm)]

/-- The empty index holds nothing. -/
theorem holds_empty : Holds .empty [] := by
  intro n t q
  exact iff_of_false (by nofun) (fun h => absurd h.1 List.not_mem_nil)

/-- Filing adds a path, and what it replaces is the path itself. -/
theorem Holds.file (h : index.Holds qs) (q : Path) : (index.file q).Holds (qs ++ [q]) := by
  intro m t r
  rw [get?_under_file, List.mem_append, List.mem_singleton]
  by_cases hq : q.getLast? = some m ∧ q.text = t
  · -- a path with this text is this path
    rw [if_pos hq, Option.some.injEq]
    refine ⟨fun hqr => hqr ▸ ⟨.inr rfl, hq⟩, fun hr => ?_⟩
    exact Path.text_injective (hq.2.trans hr.2.2.symm)
  · rw [if_neg hq, h m t r]
    refine and_congr_left (fun hr => (or_iff_left_of_imp ?_).symm)
    rintro rfl
    exact absurd hr hq

/-- After a sequence of paths is filed, the index holds these as well. -/
theorem holds_foldl (h : index.Holds qs) (rs : Paths) :
    (rs.foldl PathIndex.file index).Holds (qs ++ rs) := by
  induction rs generalizing index qs with
  | nil => rwa [List.append_nil]
  | cons r rs ih =>
    rw [List.append_cons]
    exact ih (h.file r)

/-- The index of paths holds all their arrivals. -/
theorem holds_ofPaths (ps : Paths) : (ofPaths ps).Holds (ps.flatMap Path.arrivals) :=
  holds_foldl holds_empty _

/-! ## Reading -/

/-- What an index has under a block is what it holds of the paths that end there. -/
theorem Holds.mem_values (h : index.Holds qs) :
    q ∈ (index.under n).values ↔ q ∈ qs ∧ q.getLast? = some n := by
  unfold SortedMap.values
  rw [List.mem_map]
  constructor
  · rintro ⟨⟨t, r⟩, hmem, rfl⟩
    obtain ⟨hr, hlast, -⟩ := (h n t r).1 (SortedMap.mem_entries_iff.1 hmem)
    exact ⟨hr, hlast⟩
  · rintro ⟨hq, hlast⟩
    exact ⟨(q.text, q), SortedMap.mem_entries_iff.2 ((h n q.text q).2 ⟨hq, hlast, rfl⟩), rfl⟩

/-- Paths are filed under their own texts, so that none is filed twice under a block. -/
theorem Holds.nodup_values (h : index.Holds qs) (n : BlockId) : (index.under n).values.Nodup := by
  have htexts : (index.under n).values.map Path.text = (index.under n).keys := by
    unfold SortedMap.values SortedMap.keys
    rw [List.map_map]
    refine List.map_congr_left (fun e he => ?_)
    exact ((h n e.1 e.2).1 (SortedMap.mem_entries_iff.1 he)).2.2
  refine List.Nodup.of_map Path.text ?_
  rw [htexts]
  exact SortedMap.nodup_keys _

/-- The paths that are filed under a block are the beginnings that end there. -/
theorem values_under_perm (ps : Paths) (n : BlockId) :
    ((ofPaths ps).under n).values.Perm (ps.pathsTo n) := by
  have hholds := holds_ofPaths ps
  rw [List.perm_ext_iff_of_nodup (hholds.nodup_values n) (ps.nodup_pathsTo n)]
  intro q
  rw [hholds.mem_values, Paths.mem_pathsTo, Paths.mem_arrivals, List.mem_flatMap]
  simp only [Path.mem_arrivals]

end PathIndex

namespace Paths

/-- The beginnings of paths that end at a block are listed once each and in lexicographic order, and
the blocks at which at least two of them end in ascending order. Both can be read off an index of
the beginnings by text, in any order, and depend on the members of the collection only. -/
theorem pathsTo_mergeNodes_by_beginnings (ps : Paths) :
    (∀ n, (ps.pathsTo n).Pairwise (· < ·) ∧
      ∀ q, q ∈ ps.pathsTo n ↔ (∃ p ∈ ps, q <+: p) ∧ 2 ≤ q.length ∧ q.getLast? = some n) ∧
    (ps.mergeNodes.Pairwise (· < ·) ∧
      ∀ n, n ∈ ps.mergeNodes ↔ 2 ≤ (ps.pathsTo n).length) ∧
    (∀ n, (∀ l : Paths, l.Perm ((PathIndex.ofPaths ps).under n).values →
        l.sorted = ps.pathsTo n) ∧
      (n ∈ ps.mergeNodes ↔ 1 < ((PathIndex.ofPaths ps).under n).size)) ∧
    ∀ qs : Paths, (∀ p, p ∈ ps ↔ p ∈ qs) →
      (∀ n, ps.pathsTo n = qs.pathsTo n) ∧ ps.mergeNodes = qs.mergeNodes := by
  refine ⟨fun n => ⟨ps.pairwise_lt_pathsTo n, fun q => ?_⟩,
    ⟨ps.pairwise_lt_mergeNodes, fun n => mem_mergeNodes_iff_length⟩, fun n => ⟨?_, ?_⟩, ?_⟩
  · rw [mem_pathsTo, mem_arrivals, ← and_assoc]
    simp only [← and_assoc, exists_and_right]
  · intro l hl
    have hperm := hl.trans (PathIndex.values_under_perm ps n)
    exact sorted_eq_of_mem_iff (hperm.nodup_iff.2 (ps.nodup_pathsTo n)) (ps.pairwise_lt_pathsTo n)
      (fun _ => hperm.mem_iff)
  · have hlength := (PathIndex.values_under_perm ps n).length_eq
    rw [SortedMap.values, List.length_map] at hlength
    rw [mem_mergeNodes_iff_length, ← hlength]
    rfl
  · intro qs hqs
    unfold pathsTo mergeNodes
    rw [arrivals_congr hqs]
    exact ⟨fun _ => rfl, rfl⟩

/-- A path that comes to block 1 twice, listed twice, beside a path without blocks and another one
to block 2. -/
def windingPaths : Paths := [[0, 1, 2, 1], [], [0, 2], [0, 1, 2, 1]]

/-- The one path meets itself at block 1, and both meet at block 2. The index lists the beginnings
that end at block 1 by their texts, the longer one first. -/
theorem pathsTo_mergeNodes_by_beginnings_winding :
    (∀ p, p ∈ windingPaths ↔ p ∈ ([[0, 2], [], [0, 1, 2, 1]] : Paths)) ∧
      windingPaths.pathsTo 1 = [[0, 1], [0, 1, 2, 1]] ∧ windingPaths.mergeNodes = [1, 2] ∧
      ((PathIndex.ofPaths windingPaths).under 1).values = [[0, 1, 2, 1], [0, 1]] ∧
      sorted [[0, 1, 2, 1], [0, 1]] = windingPaths.pathsTo 1 ∧
      windingPaths.mergeNodes = mergeNodes [[0, 2], [], [0, 1, 2, 1]] := by
  have hmem : ∀ p, p ∈ windingPaths ↔ p ∈ ([[0, 2], [], [0, 1, 2, 1]] : Paths) := by
    intro p
    simp only [windingPaths, List.mem_cons, List.not_mem_nil]
    tauto
  have hvalues : ((PathIndex.ofPaths windingPaths).under 1).values = [[0, 1, 2, 1], [0, 1]] := by
    cbv
  obtain ⟨-, -, hindex, hmembers⟩ := pathsTo_mergeNodes_by_beginnings windingPaths
  refine ⟨hmem, by cbv, by cbv, hvalues, ?_, (hmembers _ hmem).2⟩
  exact (hindex 1).1 _ (hvalues ▸ .refl _)

end Paths

end StackFlow
