import Mathlib.Data.List.Perm.Basic
import StackFlow.Proofs.MergeNodes

/-!
# Comparing collections of paths

Two collections are compared by sorting both and comparing the results. A sort that need not be
stable may leave equal elements in any order, and what it leaves is known only up to that:
`IsSorting ps l` says that `l` has the paths of `ps`, none behind one that it comes before. The
order of paths is linear, so that paths which are not ordered are the same path, and there is just
one such list (`isSorting_iff`). Hence the comparison decides whether one collection is a
rearrangement of the other (`same_iff_perm`), however the paths were sorted.

`Path.Precedes` states the order of paths in terms of whole paths (`Path.precedes_iff_lt`).
-/

namespace StackFlow

/-! ## The order of paths -/

namespace Path

variable {a b : BlockId} {p q : Path}

/-- The path is a proper beginning of the other, or has the lesser block where they first differ. -/
def Precedes (p q : Path) : Prop :=
  (p <+: q ∧ p ≠ q) ∨
    ∃ front a b p' q', p = front ++ a :: p' ∧ q = front ++ b :: q' ∧ a < b

/-- The empty path precedes all others. -/
theorem nil_precedes_cons (b : BlockId) (q : Path) : Precedes [] (b :: q) :=
  .inl ⟨⟨b :: q, rfl⟩, by nofun⟩

/-- No path precedes the empty one. -/
theorem not_precedes_nil (p : Path) : ¬ p.Precedes [] := by
  rintro (⟨hbegins, hne⟩ | ⟨front, a, b, p', q', -, hq, -⟩)
  · exact hne (List.prefix_nil.1 hbegins)
  · exact absurd hq (by simp)

/-- The first blocks decide, unless they are the same. -/
theorem cons_precedes_cons_iff :
    Precedes (a :: p) (b :: q) ↔ a < b ∨ a = b ∧ p.Precedes q := by
  constructor
  · rintro (⟨hbegins, hne⟩ | ⟨front, x, y, p', q', hp, hq, hlt⟩)
    · obtain ⟨rfl, htail⟩ := List.cons_prefix_cons.1 hbegins
      exact .inr ⟨rfl, .inl ⟨htail, fun heq => hne (by rw [heq])⟩⟩
    · cases front with
      | nil =>
        obtain ⟨rfl, -⟩ := List.cons.inj hp
        obtain ⟨rfl, -⟩ := List.cons.inj hq
        exact .inl hlt
      | cons z front =>
        obtain ⟨rfl, hptail⟩ := List.cons.inj hp
        obtain ⟨rfl, hqtail⟩ := List.cons.inj hq
        exact .inr ⟨rfl, .inr ⟨front, x, y, p', q', hptail, hqtail, hlt⟩⟩
  · rintro (hlt | ⟨rfl, ⟨hbegins, hne⟩ | ⟨front, x, y, p', q', rfl, rfl, hlt⟩⟩)
    · exact .inr ⟨[], a, b, p, q, rfl, rfl, hlt⟩
    · exact .inl ⟨List.cons_prefix_cons.2 ⟨rfl, hbegins⟩, fun heq => hne (List.cons.inj heq).2⟩
    · exact .inr ⟨a :: front, x, y, p', q', rfl, rfl, hlt⟩

/-- The order is the lexicographic one of lists, which is linear. -/
theorem precedes_iff_lt : p.Precedes q ↔ p < q := by
  induction p generalizing q with
  | nil =>
    cases q with
    | nil => exact iff_of_false (not_precedes_nil []) (List.lt_irrefl [])
    | cons b q => exact iff_of_true (nil_precedes_cons b q) (List.nil_lt_cons b q)
  | cons a p ih =>
    cases q with
    | nil => exact iff_of_false (not_precedes_nil _) (List.not_lt_nil _)
    | cons b q => rw [cons_precedes_cons_iff, List.cons_lt_cons_iff, ih]

end Path

/-! ## Sorted collections -/

namespace Paths

variable {ps qs l : Paths}

/-- What a sort by the order of paths leaves of a collection, whether it is stable or not. -/
structure IsSorting (ps l : Paths) : Prop where
  /-- The paths are rearranged. -/
  perm : l.Perm ps
  /-- No path stands behind one that it comes before. -/
  ordered : l.Pairwise (fun p q => Path.before q p = false)

/-- A sort leaves the same list whatever it does with equal elements. -/
theorem isSorting_iff : IsSorting ps l ↔ l = ps.sorted := by
  have hordered : ∀ l : Paths,
      l.Pairwise (fun p q => Path.before q p = false) ↔ l.Pairwise (· ≤ ·) := by
    intro l
    simp only [← Bool.not_eq_true', Path.not_before_iff]
  constructor
  · intro h
    -- two paths that are in order both ways round are the same
    exact List.Perm.eq_of_pairwise (fun _ _ _ _ => List.le_antisymm) ((hordered l).1 h.ordered)
      (pairwise_le_sorted ps) (h.perm.trans (sorted_perm ps).symm)
  · rintro rfl
    exact ⟨sorted_perm ps, (hordered _).2 (pairwise_le_sorted ps)⟩

/-- Collections are the same if they are when sorted. -/
theorem same_iff_sorted_eq : ps.same qs = true ↔ ps.sorted = qs.sorted := beq_iff_eq

/-- Collections are equal when sorted if they have the same paths, each as often. -/
theorem sorted_eq_iff_perm : ps.sorted = qs.sorted ↔ qs.Perm ps := by
  constructor
  · intro h
    calc qs.Perm qs.sorted := (sorted_perm qs).symm
      _ = ps.sorted := h.symm
      List.Perm _ ps := sorted_perm ps
  · intro h
    exact sorted_eq_of_perm h.symm

/-- In a sorted collection each path is equal to those behind it or precedes them. -/
theorem pairwise_precedes_sorted (ps : Paths) :
    ps.sorted.Pairwise (fun p q => p = q ∨ p.Precedes q) := by
  refine (pairwise_le_sorted ps).imp (fun {p q} hle => ?_)
  rw [Path.precedes_iff_lt]
  by_cases heq : p = q
  · exact .inl heq
  · exact .inr (Std.lt_of_le_of_ne hle heq)

/-- Two collections compare as the same exactly if one is a rearrangement of the other, so that each
path occurs equally often in both, and exactly if they are sorted to the same list. Sorting
rearranges a collection into lexicographic order, in which a path comes before its extensions. Any
sort by this order leaves the same list, so that two collections are the same exactly if what any
two sorts leave of them agrees place by place. -/
theorem same_iff_perm (ps qs : Paths) :
    (ps.same qs = true ↔ qs.Perm ps) ∧
      (qs.Perm ps ↔ ∀ p, qs.count p = ps.count p) ∧
      (ps.same qs = true ↔ ps.sorted = qs.sorted) ∧
      (ps.sorted.Perm ps ∧ ps.sorted.Pairwise (fun p q => p = q ∨ p.Precedes q)) ∧
      (∀ l, IsSorting ps l ↔ l = ps.sorted) ∧
      ∀ l k, IsSorting ps l → IsSorting qs k → (ps.same qs = true ↔ ∀ i : Nat, l[i]? = k[i]?) := by
  refine ⟨same_iff_sorted_eq.trans sorted_eq_iff_perm, List.perm_iff_count, same_iff_sorted_eq,
    ⟨sorted_perm ps, pairwise_precedes_sorted ps⟩, fun l => isSorting_iff, fun l k hl hk => ?_⟩
  rw [same_iff_sorted_eq, ← isSorting_iff.1 hl, ← isSorting_iff.1 hk]
  exact List.ext_getElem?_iff

/-- A path that comes twice, its proper beginnings, and one that starts lower. -/
def nested : Paths := [[0, 1], [-1, 5], [], [0, 1], [0]]

/-- The nested paths are the same in any order, but not with another of them repeated. -/
theorem same_iff_perm_nested :
    IsSorting nested [[], [-1, 5], [0], [0, 1], [0, 1]] ∧
      nested.sorted = [[], [-1, 5], [0], [0, 1], [0, 1]] ∧
      nested.same [[0], [0, 1], [], [0, 1], [-1, 5]] = true ∧
      ¬ nested.same [[0], [0, 1], [], [0], [-1, 5]] = true := by
  obtain ⟨hsame, -, -, -, hsorting, hplaces⟩ :=
    same_iff_perm nested [[0], [0, 1], [], [0, 1], [-1, 5]]
  obtain ⟨hother, hcount, -⟩ := same_iff_perm nested [[0], [0, 1], [], [0], [-1, 5]]
  have hnested : IsSorting nested [[], [-1, 5], [0], [0, 1], [0, 1]] := ⟨by decide, by decide⟩
  have hrearranged : IsSorting [[0], [0, 1], [], [0, 1], [-1, 5]]
      [[], [-1, 5], [0], [0, 1], [0, 1]] := ⟨by decide, by decide⟩
  refine ⟨hnested, ((hsorting _).1 hnested).symm,
    (hplaces _ _ hnested hrearranged).2 (fun _ => rfl), fun h => ?_⟩
  -- the path of block 0 alone comes twice in one and once in the other
  exact absurd (hcount.1 (hother.1 h) [0]) (by decide)

end Paths

end StackFlow
