/-!
# Finite maps in ascending order of their keys

A `SortedMap` lists its entries by strictly ascending key, so that two maps with the same look-ups
are the same value (`SortedMap.ext_get?`) and the order in which a map is listed is part of its
type. A `SortedSet` is a map without values.
-/

namespace StackFlow

/-- A finite map, listed by strictly ascending key. -/
structure SortedMap (α : Type) (β : Type) [Ord α] where
  /-- The entries in order. -/
  entries : List (α × β)
  /-- Keys ascend strictly, so that none occurs twice. -/
  ascending : entries.Pairwise (fun a b => compare a.1 b.1 = .lt)

namespace SortedMap

variable {α β γ : Type} [Ord α]

/-- The value at a key in a list of entries. -/
def lookup (k : α) : List (α × β) → Option β
  | [] => none
  | (k', v) :: rest => if compare k k' = .eq then some v else lookup k rest

/-- Replaces the value at a key by `f` of it, at the key's place in the order. -/
def place (k : α) (f : Option β → β) : List (α × β) → List (α × β)
  | [] => [(k, f none)]
  | (k', v) :: rest =>
    match compare k k' with
    | .lt => (k, f none) :: (k', v) :: rest
    | .eq => (k', f (some v)) :: rest
    | .gt => (k', v) :: place k f rest

/-- Placing a key adds no other key. -/
theorem fst_mem_place {k : α} {f : Option β → β} {l : List (α × β)} {e : α × β}
    (h : e ∈ place k f l) : e.1 = k ∨ ∃ e' ∈ l, e'.1 = e.1 := by
  induction l with
  | nil => simp_all [place]
  | cons hd tl ih =>
    obtain ⟨k', v⟩ := hd
    simp only [place] at h
    split at h
    · rcases List.mem_cons.1 h with rfl | h
      · exact .inl rfl
      · exact .inr ⟨e, h, rfl⟩
    · rcases List.mem_cons.1 h with rfl | h
      · exact .inr ⟨(k', v), by simp, rfl⟩
      · exact .inr ⟨e, by simp [h], rfl⟩
    · rcases List.mem_cons.1 h with rfl | h
      · exact .inr ⟨(k', v), by simp, rfl⟩
      · rcases ih h with h | ⟨e', he', h⟩
        · exact .inl h
        · exact .inr ⟨e', by simp [he'], h⟩

/-- The map without entries. -/
def empty : SortedMap α β := ⟨[], List.Pairwise.nil⟩

instance : Inhabited (SortedMap α β) := ⟨empty⟩

instance [DecidableEq α] [DecidableEq β] : DecidableEq (SortedMap α β) := fun m n =>
  if h : m.entries = n.entries then
    .isTrue (by cases m; cases n; simp_all)
  else .isFalse (fun e => h (e ▸ rfl))

/-- The value at a key. -/
def get? (m : SortedMap α β) (k : α) : Option β := lookup k m.entries

/-- Whether a key has a value. -/
def contains (m : SortedMap α β) (k : α) : Bool := (m.get? k).isSome

/-- The keys in ascending order. -/
def keys (m : SortedMap α β) : List α := m.entries.map (·.1)

/-- The values in ascending order of their keys. -/
def values (m : SortedMap α β) : List β := m.entries.map (·.2)

/-- The number of entries. -/
def size (m : SortedMap α β) : Nat := m.entries.length

/-- The empty map has no value at any key. -/
theorem get?_empty (k : α) : (empty : SortedMap α β).get? k = none := rfl

/-- A key has a value exactly if it is listed. -/
theorem lookup_isSome_iff [Std.LawfulEqOrd α] (k : α) (l : List (α × β)) :
    (lookup k l).isSome ↔ k ∈ l.map (·.1) := by
  induction l with
  | nil => simp [lookup]
  | cons hd tl ih =>
    obtain ⟨k', v⟩ := hd
    by_cases h : k = k' <;> simp [lookup, h, ih]

/-- `contains` says whether a key is listed. -/
theorem contains_iff [Std.LawfulEqOrd α] (m : SortedMap α β) (k : α) :
    m.contains k = true ↔ k ∈ m.keys :=
  lookup_isSome_iff k m.entries

/-- What a look-up finds is listed under its key. -/
theorem mem_of_lookup [Std.LawfulEqOrd α] {k : α} {v : β} {l : List (α × β)}
    (h : lookup k l = some v) : (k, v) ∈ l := by
  induction l with
  | nil => simp [lookup] at h
  | cons e l ih =>
    obtain ⟨k', v'⟩ := e
    by_cases hk : k = k'
    · subst hk; simp_all [lookup]
    · exact List.mem_cons_of_mem _ (ih (by simpa [lookup, hk] using h))

/-- A key before all that are listed has no value. -/
theorem lookup_eq_none_of_lt {k : α} {l : List (α × β)} (h : ∀ e ∈ l, compare k e.1 = .lt) :
    lookup k l = none := by
  induction l with
  | nil => rfl
  | cons e l ih =>
    simp [lookup, h e List.mem_cons_self, ih (fun e' he' => h e' (List.mem_cons_of_mem e he'))]

/-- In an ascending list of entries a look-up finds what is listed. -/
theorem lookup_of_mem [Std.LawfulEqOrd α] {k : α} {v : β} {l : List (α × β)}
    (hl : l.Pairwise (fun a b => compare a.1 b.1 = .lt)) (h : (k, v) ∈ l) :
    lookup k l = some v := by
  induction l with
  | nil => simp at h
  | cons e l ih =>
    obtain ⟨he, hl'⟩ := List.pairwise_cons.1 hl
    rcases List.mem_cons.1 h with rfl | h
    · simp [lookup]
    · have hne : ¬ k = e.1 := by
        rintro rfl
        have hlt := he _ h
        simp at hlt
      simp [lookup, hne, ih hl' h]

/-- The entries are the keys with the values that a look-up finds. -/
theorem mem_entries_iff [Std.LawfulEqOrd α] {m : SortedMap α β} {k : α} {v : β} :
    (k, v) ∈ m.entries ↔ m.get? k = some v :=
  ⟨lookup_of_mem m.ascending, mem_of_lookup⟩

/-- No key is listed twice. -/
theorem nodup_keys [Std.LawfulEqOrd α] (m : SortedMap α β) : m.keys.Nodup := by
  refine List.pairwise_map.2 (m.ascending.imp ?_)
  intro a b hlt heq
  rw [heq, Std.compare_self] at hlt
  exact absurd hlt (by decide)

/-- The keys ascend in the order that the comparison stands for. -/
theorem pairwise_lt_keys [LT α] [LE α] [Std.LawfulOrderOrd α] [Std.LawfulOrderLT α]
    (m : SortedMap α β) : m.keys.Pairwise (· < ·) :=
  List.pairwise_map.2 (m.ascending.imp Std.compare_eq_lt.1)

variable [Std.TransOrd α]

/-- Placing a key keeps the keys ascending. -/
theorem pairwise_place (k : α) (f : Option β → β) {l : List (α × β)}
    (h : l.Pairwise (fun a b => compare a.1 b.1 = .lt)) :
    (place k f l).Pairwise (fun a b => compare a.1 b.1 = .lt) := by
  induction l with
  | nil => simp [place]
  | cons hd tl ih =>
    obtain ⟨k', v⟩ := hd
    obtain ⟨hd', tl'⟩ := List.pairwise_cons.1 h
    simp only [place]
    split
    next hc =>
      refine List.pairwise_cons.2 ⟨fun e he => ?_, h⟩
      rcases List.mem_cons.1 he with rfl | he
      · exact hc
      · exact Std.TransCmp.lt_trans hc (hd' e he)
    next hc => exact List.pairwise_cons.2 ⟨hd', tl'⟩
    next hc =>
      refine List.pairwise_cons.2 ⟨fun e he => ?_, ih tl'⟩
      rcases fst_mem_place he with h' | ⟨e', he', h'⟩
      · simpa [h'] using Std.OrientedCmp.lt_of_gt hc
      · simpa [h'] using hd' e' he'

/-- Replaces the value at a key by `f` of it; `f none` is the value at a new key. -/
def upsert (m : SortedMap α β) (k : α) (f : Option β → β) : SortedMap α β :=
  ⟨place k f m.entries, pairwise_place k f m.ascending⟩

/-- Sets the value at a key. -/
def insert (m : SortedMap α β) (k : α) (v : β) : SortedMap α β := m.upsert k (fun _ => v)

/-- Changes the value at a key, if the key has one. -/
def modify (m : SortedMap α β) (k : α) (f : β → β) : SortedMap α β :=
  match m.get? k with
  | none => m
  | some v => m.insert k (f v)

/-- A list's look-up is unaffected by what is placed at another key. -/
theorem lookup_place [Std.LawfulEqOrd α] [DecidableEq α] (k j : α) (f : Option β → β)
    {l : List (α × β)} (h : l.Pairwise (fun a b => compare a.1 b.1 = .lt)) :
    lookup j (place k f l) = if j = k then some (f (lookup k l)) else lookup j l := by
  induction l with
  | nil => by_cases hj : j = k <;> simp [place, lookup, hj]
  | cons hd tl ih =>
    obtain ⟨k', v⟩ := hd
    obtain ⟨hd', tl'⟩ := List.pairwise_cons.1 h
    simp only [place]
    split
    next hc =>
      have hne : ¬ compare k k' = .eq := by simp [hc]
      have hk : lookup k tl = none :=
        lookup_eq_none_of_lt (fun e he => Std.TransCmp.lt_trans hc (hd' e he))
      by_cases hj : j = k
      · subst hj; simp [lookup, hne, hk]
      · simp [lookup, hj]
    next hc =>
      have : k = k' := Std.compare_eq_iff_eq.1 hc
      subst this
      by_cases hj : j = k <;> simp [lookup, hj]
    next hc =>
      have hne : k ≠ k' := by rintro rfl; simp at hc
      rw [lookup, ih tl']
      by_cases hj : j = k
      · subst hj; simp [lookup, hne]
      · simp [lookup, hj]

/-- Look-up after `upsert`: the new value at the key, the old value elsewhere. -/
theorem get?_upsert [Std.LawfulEqOrd α] [DecidableEq α] (m : SortedMap α β) (k j : α)
    (f : Option β → β) :
    (m.upsert k f).get? j = if j = k then some (f (m.get? k)) else m.get? j :=
  lookup_place k j f m.ascending

/-- Look-up after `insert`: the new value at the key, the old value elsewhere. -/
theorem get?_insert [Std.LawfulEqOrd α] [DecidableEq α] (m : SortedMap α β) (k j : α) (v : β) :
    (m.insert k v).get? j = if j = k then some v else m.get? j :=
  get?_upsert m k j _

/-- The first key of an ascending list is not before that of another list with the same look-ups. -/
theorem not_lt_of_lookup [Std.LawfulEqOrd α] {a b : α × β} {l r : List (α × β)}
    (hb : ∀ e ∈ r, compare b.1 e.1 = .lt) (h : ∀ k, lookup k (a :: l) = lookup k (b :: r)) :
    compare a.1 b.1 ≠ .lt := by
  intro hlt
  -- otherwise its value would be found in the first list only
  have hnone : lookup a.1 r = none :=
    lookup_eq_none_of_lt (fun e he => Std.TransCmp.lt_trans hlt (hb e he))
  have hfound := h a.1
  simp [lookup, hlt, hnone] at hfound

/-- Two ascending lists of entries with the same look-ups are equal. -/
theorem entries_eq_of_lookup [Std.LawfulEqOrd α] {l r : List (α × β)}
    (hl : l.Pairwise (fun a b => compare a.1 b.1 = .lt))
    (hr : r.Pairwise (fun a b => compare a.1 b.1 = .lt))
    (h : ∀ k, lookup k l = lookup k r) : l = r := by
  induction l generalizing r with
  | nil =>
    cases r with
    | nil => rfl
    | cons e r => simpa [lookup] using h e.1
  | cons a l ih =>
    cases r with
    | nil => simpa [lookup] using h a.1
    | cons b r =>
      obtain ⟨ha, hl'⟩ := List.pairwise_cons.1 hl
      obtain ⟨hb, hr'⟩ := List.pairwise_cons.1 hr
      -- the first keys are equal, since neither is before the other
      have hab : a.1 = b.1 := by
        rcases hc : compare a.1 b.1 with _ | _ | _
        · exact absurd hc (not_lt_of_lookup hb h)
        · exact Std.compare_eq_iff_eq.1 hc
        · exact absurd (Std.OrientedCmp.lt_of_gt hc) (not_lt_of_lookup ha (fun k => (h k).symm))
      have hv : a.2 = b.2 := by simpa [lookup, hab] using h a.1
      -- behind them the look-ups are the same: that key is not listed again
      have hrest : l = r := by
        refine ih hl' hr' (fun k => ?_)
        by_cases hk : k = a.1
        · rw [hk, lookup_eq_none_of_lt ha, lookup_eq_none_of_lt (fun e he => hab ▸ hb e he)]
        · have hkb : ¬ k = b.1 := hab ▸ hk
          simpa [lookup, hk, hkb] using h k
      rw [hrest, show a = b from Prod.ext hab hv]

/-- Maps with the same look-ups are equal. -/
theorem ext_get? [Std.LawfulEqOrd α] {m n : SortedMap α β} (h : ∀ k, m.get? k = n.get? k) :
    m = n := by
  obtain ⟨l, hl⟩ := m
  obtain ⟨r, hr⟩ := n
  obtain rfl : l = r := entries_eq_of_lookup hl hr h
  rfl

/-- Look-up after `modify`: the changed value at the key, the old value elsewhere. -/
theorem get?_modify [Std.LawfulEqOrd α] [DecidableEq α] (m : SortedMap α β) (k j : α)
    (f : β → β) : (m.modify k f).get? j = if j = k then (m.get? k).map f else m.get? j := by
  unfold modify
  split
  next h =>
    by_cases hj : j = k
    · rw [hj, h, if_pos rfl, Option.map_none]
    · rw [if_neg hj]
  next v h => rw [get?_insert, h, Option.map_some]

/-- Changing the values at the keys of an ascending list changes each by the value listed for it. -/
theorem get?_foldl_modify [Std.LawfulEqOrd α] [DecidableEq α] {f : γ → β → β} {l : List (α × γ)}
    (hl : l.Pairwise (fun a b => compare a.1 b.1 = .lt)) (m : SortedMap α β) (j : α) :
    (l.foldl (fun m e => m.modify e.1 (f e.2)) m).get? j =
      (m.get? j).map (fun v => ((lookup j l).map (fun w => f w v)).getD v) := by
  induction l generalizing m with
  | nil => simp [lookup]
  | cons e l ih =>
    obtain ⟨k, w⟩ := e
    obtain ⟨hk, hl'⟩ := List.pairwise_cons.1 hl
    rw [List.foldl_cons, ih hl', get?_modify]
    by_cases hj : j = k
    · subst hj
      -- the key is not listed again
      have hnone : lookup j l = none := by
        rw [← Option.not_isSome_iff_eq_none, lookup_isSome_iff, List.mem_map]
        rintro ⟨e, he, rfl⟩
        have hlt := hk e he
        simp at hlt
      simp [lookup, hnone, Function.comp_def]
    · simp [lookup, hj]

end SortedMap

/-- A finite set, listed in ascending order. -/
abbrev SortedSet (α : Type) [Ord α] := SortedMap α Unit

namespace SortedSet

variable {α : Type} [Ord α]

/-- The elements in ascending order. -/
def toList (s : SortedSet α) : List α := SortedMap.keys s

/-- A set lists no element twice. -/
theorem nodup_toList [Std.LawfulEqOrd α] (s : SortedSet α) : (toList s).Nodup :=
  SortedMap.nodup_keys s

variable [Std.TransOrd α]

/-- The set with an element added. -/
def add (s : SortedSet α) (a : α) : SortedSet α := SortedMap.insert s a ()

/-- The set of a list's elements. -/
def ofList (l : List α) : SortedSet α := l.foldl add SortedMap.empty

/-- The elements of either set. -/
def union (s t : SortedSet α) : SortedSet α := (toList t).foldl add s

section Elements

variable [Std.LawfulEqOrd α]

/-- Sets with the same elements are equal. -/
theorem ext_toList {s t : SortedSet α} (h : ∀ a, a ∈ toList s ↔ a ∈ toList t) : s = t := by
  refine SortedMap.ext_get? (fun a => ?_)
  have hiff : (s.get? a).isSome ↔ (t.get? a).isSome := by
    rw [← SortedMap.contains, ← SortedMap.contains, SortedMap.contains_iff, SortedMap.contains_iff]
    exact h a
  cases hs : s.get? a <;> cases ht : t.get? a <;> simp_all

variable [DecidableEq α]

/-- Adding an element adds just that element. -/
theorem mem_toList_add {s : SortedSet α} {a b : α} :
    b ∈ toList (add s a) ↔ b ∈ toList s ∨ b = a := by
  unfold toList add
  rw [← SortedMap.contains_iff, ← SortedMap.contains_iff, SortedMap.contains, SortedMap.contains,
    SortedMap.get?_insert]
  by_cases h : b = a <;> simp [h]

/-- Adding the elements of a list adds just these. -/
theorem mem_toList_foldl_add {l : List α} {s : SortedSet α} {b : α} :
    b ∈ toList (l.foldl add s) ↔ b ∈ toList s ∨ b ∈ l := by
  induction l generalizing s with
  | nil => simp
  | cons a l ih => rw [List.foldl_cons, ih, mem_toList_add, List.mem_cons, or_assoc]

/-- The set of a list has the list's elements. -/
theorem mem_toList_ofList {l : List α} {b : α} : b ∈ toList (ofList l) ↔ b ∈ l := by
  rw [ofList, mem_toList_foldl_add]
  exact or_iff_right List.not_mem_nil

/-- A union has the elements of either set. -/
theorem mem_toList_union {s t : SortedSet α} {b : α} :
    b ∈ toList (union s t) ↔ b ∈ toList s ∨ b ∈ toList t :=
  mem_toList_foldl_add

end Elements

end SortedSet

end StackFlow
