import Mathlib.Data.List.Sort
import StackFlow.Proofs.ReachableLeaves

/-!
# Paths grouped by their last blocks

Paths with blocks are gone through three times: for their distinct last blocks, for the paths that
end at each of these, and for a block at which all of them end. The three answers agree. `Groups`
says that a map lists the paths of a collection under their last blocks, in their order and with
nothing lost. Filing one more path keeps this (`Groups.file`), so that it holds of the groups that
`Paths.byEnd` makes (`exists_byEnd`). Their keys are the distinct last blocks, and the paths
converge exactly if there is just one (`groups_ends_agree`).
-/

namespace StackFlow

namespace SortedMap

variable {α β : Type} [Ord α]

/-- What is filed under a key joins what is filed under all keys. -/
theorem flatMap_place_perm (k : α) (b : β) (l : List (α × List β)) :
    ((place k (·.getD [] ++ [b]) l).flatMap (·.2)).Perm (l.flatMap (·.2) ++ [b]) := by
  induction l with
  | nil => exact .refl _
  | cons e l ih =>
    obtain ⟨k', v⟩ := e
    unfold place
    split
    · exact (List.perm_append_singleton b _).symm
    · rw [List.flatMap_cons, List.flatMap_cons, Option.getD_some, List.append_assoc,
        List.append_assoc]
      exact List.perm_append_comm.append_left v
    · rw [List.flatMap_cons, List.flatMap_cons, List.append_assoc]
      exact ih.append_left v

/-- Putting an item behind the list of a key adds that item to all lists. -/
theorem flatten_values_upsert_perm [Std.TransOrd α] (m : SortedMap α (List β)) (k : α) (b : β) :
    (m.upsert k (·.getD [] ++ [b])).values.flatten.Perm (m.values.flatten ++ [b]) :=
  flatMap_place_perm k b m.entries

end SortedMap

namespace Paths

variable {ps qs : Paths} {p : Path} {m n : BlockId} {groups : SortedMap BlockId Paths}

/-- The paths that end at a block, in the order of the collection. -/
def endingAt (ps : Paths) (n : BlockId) : Paths := ps.filter (fun p => p.getLast? = some n)

/-- A map lists the paths of a collection under their last blocks. -/
structure Groups (ps : Paths) (groups : SortedMap BlockId Paths) : Prop where
  /-- Under a block stand the paths that end there, if there are any. -/
  get?_eq_some_iff : ∀ n group, groups.get? n = some group ↔ group ≠ [] ∧ group = ps.endingAt n
  /-- All paths are listed, as often as they occur. -/
  perm : groups.values.flatten.Perm ps

/-- There are paths that end at a block if some path does. -/
theorem endingAt_ne_nil_iff : ps.endingAt n ≠ [] ↔ ∃ p ∈ ps, p.getLast? = some n := by
  rw [endingAt, ne_eq, List.filter_eq_nil_iff]
  simp

/-- A further path joins the paths that end where it ends. -/
theorem endingAt_concat (hlast : p.getLast? = some n) (m : BlockId) :
    (ps ++ [p]).endingAt m = if m = n then ps.endingAt m ++ [p] else ps.endingAt m := by
  unfold endingAt
  rw [List.filter_append]
  by_cases hm : m = n
  · simp [hm, hlast]
  · simp [hm, hlast, Ne.symm hm]

/-! ## Filing paths -/

/-- No paths make no groups. -/
theorem groups_empty : Groups [] .empty where
  get?_eq_some_iff n group := iff_of_false (by nofun) (fun h => h.1 h.2)
  perm := .refl _

/-- The group of a block has the paths that end there. -/
theorem Groups.getD_get? (h : Groups ps groups) (n : BlockId) :
    (groups.get? n).getD [] = ps.endingAt n := by
  cases hn : groups.get? n with
  | some group => exact ((h.get?_eq_some_iff n group).1 hn).2
  | none =>
    by_contra hne
    have hsome := (h.get?_eq_some_iff n _).2 ⟨Ne.symm hne, rfl⟩
    exact absurd (hn.symm.trans hsome) (by nofun)

/-- A path is filed behind those that end where it does. -/
theorem Groups.file (h : Groups ps groups) (hlast : p.getLast? = some n) :
    Groups (ps ++ [p]) (groups.upsert n (·.getD [] ++ [p])) where
  get?_eq_some_iff m group := by
    rw [SortedMap.get?_upsert, endingAt_concat hlast]
    by_cases hm : m = n
    · subst hm
      rw [if_pos rfl, if_pos rfl, h.getD_get?, Option.some.injEq]
      exact ⟨fun heq => heq ▸ ⟨by simp, rfl⟩, fun hgroup => hgroup.2.symm⟩
    · rw [if_neg hm, if_neg hm]
      exact h.get?_eq_some_iff m group
  perm := (groups.flatten_values_upsert_perm n p).trans (h.perm.append_right [p])

/-- Paths with blocks can be filed one after the other. -/
theorem Groups.exists_foldlM (h : Groups ps groups) (hne : ∀ p ∈ qs, p ≠ []) :
    ∃ groups' : SortedMap BlockId Paths, qs.foldlM (fun groups p => do
        let n ← p.ending
        return groups.upsert n (·.getD [] ++ [p])) groups = Except.ok groups' ∧
      Groups (ps ++ qs) groups' := by
  -- the paths that are filed already grow by one in each step
  induction qs generalizing ps groups with
  | nil => exact ⟨groups, rfl, by rwa [List.append_nil]⟩
  | cons q qs ih =>
    obtain ⟨n, hlast⟩ := Path.exists_getLast? (hne q List.mem_cons_self)
    obtain ⟨groups', hfold, hgroups'⟩ :=
      ih (h.file hlast) (fun p hp => hne p (List.mem_cons_of_mem _ hp))
    refine ⟨groups', ?_, by rwa [List.append_cons]⟩
    rw [List.foldlM_cons, Path.ending_eq_ok hlast]
    exact hfold

/-- Paths that are not empty can be grouped by their ends. -/
theorem exists_byEnd (hne : ∀ p ∈ ps, p ≠ []) :
    ∃ groups, ps.byEnd = .ok groups ∧ Groups ps groups :=
  groups_empty.exists_foldlM hne

/-! ## Groups and last blocks -/

/-- There is a group for each block that some path ends at. -/
theorem Groups.mem_keys_iff (h : Groups ps groups) :
    n ∈ groups.keys ↔ ∃ p ∈ ps, p.getLast? = some n := by
  rw [← SortedMap.contains_iff, SortedMap.contains, Option.isSome_iff_exists, ← endingAt_ne_nil_iff]
  simp only [h.get?_eq_some_iff]
  constructor
  · rintro ⟨group, hgroup, rfl⟩
    exact hgroup
  · intro hgroup
    exact ⟨_, hgroup, rfl⟩

/-- All paths end at one block if it is the only last block of any. -/
theorem ends_eq_singleton_iff {ns : List BlockId} (hascend : ns.Pairwise (· < ·))
    (hne : ∀ p ∈ ps, p ≠ []) (hmem : ∀ n, n ∈ ns ↔ ∃ p ∈ ps, p.getLast? = some n) :
    ns = [n] ↔ ps ≠ [] ∧ ∀ p ∈ ps, p.getLast? = some n := by
  constructor
  · rintro rfl
    obtain ⟨p, hp, -⟩ := (hmem n).1 List.mem_cons_self
    refine ⟨List.ne_nil_of_mem hp, fun q hq => ?_⟩
    obtain ⟨m, hlast⟩ := Path.exists_getLast? (hne q hq)
    rw [hlast, List.mem_singleton.1 ((hmem m).2 ⟨q, hq, hlast⟩)]
  · rintro ⟨hps, hall⟩
    obtain ⟨p, hp⟩ := List.exists_mem_of_ne_nil ps hps
    refine hascend.eq_of_mem_iff (List.pairwise_singleton _ n) (fun m => ?_)
    rw [hmem, List.mem_singleton]
    constructor
    · rintro ⟨q, hq, hlast⟩
      exact Option.some.inj (hlast.symm.trans (hall q hq))
    · rintro rfl
      exact ⟨p, hp, hall p hp⟩

/-- Paths with blocks are grouped under their distinct last blocks, which are listed in ascending
order. A group holds the paths that end at its block, in their order in the collection, and the
groups together, taken in any order, are a rearrangement of the collection. The paths converge
exactly if there is one last block, and then at this block; the outcome keeps them all. -/
theorem groups_ends_agree (ps : Paths) (hne : ∀ p ∈ ps, p ≠ []) :
    ∃ groups ns c, ps.byEnd = .ok groups ∧ ps.ends = .ok ns ∧ Convergence.ofPaths ps = .ok c ∧
      groups.keys = ns ∧ ns.Pairwise (· < ·) ∧
      (∀ n, n ∈ ns ↔ ∃ p ∈ ps, p.getLast? = some n) ∧
      (∀ n ∈ ns, groups.get? n = some (ps.filter (fun p => p.getLast? = some n))) ∧
      (∀ listed : List Paths, listed.Perm groups.values → listed.flatten.Perm ps) ∧
      c.paths = ps ∧ (c.node?.isSome = true ↔ ns.length = 1) ∧
      ∀ n, c.node? = some n ↔ ns = [n] := by
  obtain ⟨groups, hbyEnd, hgroups⟩ := exists_byEnd hne
  obtain ⟨ns, hends, hascend, hmem⟩ := ends_eq_ok hne
  obtain ⟨c, hofPaths, hpaths, hnode⟩ := Convergence.ofPaths_eq_ok hne
  have hkeys : groups.keys = ns := by
    refine (SortedMap.pairwise_lt_keys groups).eq_of_mem_iff hascend (fun n => ?_)
    rw [hgroups.mem_keys_iff, hmem]
  have hsingle : ∀ n, c.node? = some n ↔ ns = [n] := by
    intro n
    rw [hnode, ends_eq_singleton_iff hascend hne hmem]
  refine ⟨groups, ns, c, hbyEnd, hends, hofPaths, hkeys, hascend, hmem, fun n hn => ?_,
    fun listed hlisted => hlisted.flatten.trans hgroups.perm, hpaths, ?_, hsingle⟩
  · exact (hgroups.get?_eq_some_iff n _).2 ⟨endingAt_ne_nil_iff.2 ((hmem n).1 hn), rfl⟩
  · rw [Option.isSome_iff_exists, List.length_eq_one_iff]
    simp only [hsingle]

/-- Paths to two blocks in turn, one of which comes twice. -/
def twoTargets : Paths := [[0, 2], [5, -1], [0, 3, 2], [5, -1], [2]]

/-- The paths to the two blocks are told apart and keep their order; without those to block 2 the
others converge. -/
theorem groups_ends_agree_twoTargets :
    (∀ p ∈ twoTargets, p ≠ []) ∧
      (∃ groups c, twoTargets.byEnd = .ok groups ∧ Convergence.ofPaths twoTargets = .ok c ∧
        groups.keys = [-1, 2] ∧ groups.get? 2 = some [[0, 2], [0, 3, 2], [2]] ∧
        groups.get? (-1) = some [[5, -1], [5, -1]] ∧ c.node?.isSome = false) ∧
      ∃ c, Convergence.ofPaths [[5, -1], [5, -1]] = .ok c ∧ c.node? = some (-1) := by
  have hne : ∀ p ∈ twoTargets, p ≠ [] := by decide
  obtain ⟨groups, ns, c, hbyEnd, hends, hofPaths, hkeys, -, -, hget, -, -, hfound, -⟩ :=
    groups_ends_agree twoTargets hne
  obtain rfl : ns = [-1, 2] := Except.ok.inj (hends.symm.trans (by rfl))
  obtain ⟨-, ns', c', -, hends', hofPaths', -, -, -, -, -, -, -, hnode'⟩ :=
    groups_ends_agree [[5, -1], [5, -1]] (by decide)
  obtain rfl : ns' = [-1] := Except.ok.inj (hends'.symm.trans (by rfl))
  refine ⟨hne, ⟨groups, c, hbyEnd, hofPaths, hkeys, hget 2 (by decide), hget (-1) (by decide), ?_⟩,
    c', hofPaths', (hnode' _).2 rfl⟩
  exact Bool.eq_false_iff.2 (fun h => absurd (hfound.1 h) (by decide))

end Paths

end StackFlow
