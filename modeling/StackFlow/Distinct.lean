/-!
# Distinct elements of a list

`firsts l` keeps the first occurrence of each element of `l` and so the order in which elements
first appear. `dropRepeats l` drops an element before an equal one, which is enough where equal
elements stand together.
-/

namespace StackFlow

variable {α : Type}

/-- Appends an element unless the list has it already. -/
def appendNew [DecidableEq α] (l : List α) (a : α) : List α :=
  if a ∈ l then l else l ++ [a]

/-- The first occurrences of a list's elements, in order. -/
def firsts [DecidableEq α] (l : List α) : List α := l.foldl appendNew []

/-- The list without the elements that an equal one follows. -/
def dropRepeats [DecidableEq α] : List α → List α
  | a :: b :: l => if a = b then dropRepeats (b :: l) else a :: dropRepeats (b :: l)
  | l => l

/-- Appending a new element adds just that element. -/
theorem mem_appendNew [DecidableEq α] {l : List α} {a b : α} :
    b ∈ appendNew l a ↔ b ∈ l ∨ b = a := by
  unfold appendNew
  split
  next h => exact ⟨.inl, fun h' => h'.elim id (fun e => e ▸ h)⟩
  next => simp

/-- Appending a new element keeps a list free of repetition. -/
theorem nodup_appendNew [DecidableEq α] {l : List α} (h : l.Nodup) (a : α) :
    (appendNew l a).Nodup := by
  unfold appendNew
  split
  · exact h
  next ha =>
    refine List.nodup_append.2 ⟨h, by simp, fun x hx y hy => ?_⟩
    rintro rfl
    exact ha (by simpa using List.mem_singleton.1 hy ▸ hx)

/-- A fold of `appendNew` has the elements of both lists. -/
theorem mem_foldl_appendNew [DecidableEq α] {l acc : List α} {b : α} :
    b ∈ l.foldl appendNew acc ↔ b ∈ acc ∨ b ∈ l := by
  induction l generalizing acc with
  | nil => simp
  | cons a l ih => simp [ih, mem_appendNew, or_assoc]

/-- `firsts` has the elements of the list. -/
theorem mem_firsts [DecidableEq α] {l : List α} {b : α} : b ∈ firsts l ↔ b ∈ l := by
  simp [firsts, mem_foldl_appendNew]

/-- A fold of `appendNew` keeps a list free of repetition. -/
theorem nodup_foldl_appendNew [DecidableEq α] {l acc : List α} (h : acc.Nodup) :
    (l.foldl appendNew acc).Nodup := by
  induction l generalizing acc with
  | nil => exact h
  | cons a l ih => exact ih (nodup_appendNew h a)

/-- `firsts` repeats nothing. -/
theorem nodup_firsts [DecidableEq α] (l : List α) : (firsts l).Nodup :=
  nodup_foldl_appendNew List.nodup_nil

/-- A fold of `appendNew` is no longer than both lists together. -/
theorem length_foldl_appendNew_le [DecidableEq α] (l acc : List α) :
    (l.foldl appendNew acc).length ≤ acc.length + l.length := by
  induction l generalizing acc with
  | nil => simp
  | cons a l ih =>
    have h1 := ih (appendNew acc a)
    have h2 : (appendNew acc a).length ≤ acc.length + 1 := by
      unfold appendNew; split <;> simp
    simp only [List.foldl_cons, List.length_cons]
    omega

/-- `firsts` is no longer than the list. -/
theorem length_firsts_le [DecidableEq α] (l : List α) : (firsts l).length ≤ l.length := by
  simpa [firsts] using length_foldl_appendNew_le l []

/-- `dropRepeats` has the elements of the list. -/
theorem mem_dropRepeats [DecidableEq α] {l : List α} {x : α} : x ∈ dropRepeats l ↔ x ∈ l := by
  fun_induction dropRepeats l with
  | case1 l b ih => simp [ih]
  | case2 a b l h ih => simp [ih]
  | case3 l h => rfl

/-- Where equal elements stand together, `dropRepeats` keeps one of each. -/
theorem pairwise_dropRepeats [DecidableEq α] {r : α → α → Prop}
    (hanti : ∀ a b, r a b → r b a → a = b) {l : List α} (h : l.Pairwise r) :
    (dropRepeats l).Pairwise (fun a b => r a b ∧ a ≠ b) := by
  fun_induction dropRepeats l with
  | case1 l b ih => exact ih (List.pairwise_cons.1 h).2
  | case2 a b l hne ih =>
    obtain ⟨ha, hbl⟩ := List.pairwise_cons.1 h
    refine List.pairwise_cons.2 ⟨fun x hx => ?_, ih hbl⟩
    have hx' := mem_dropRepeats.1 hx
    refine ⟨ha x hx', ?_⟩
    rintro rfl
    -- what stands between two equal elements is equal to them
    rcases List.mem_cons.1 hx' with hab | hal
    · exact hne hab
    · exact hne (hanti a b (ha b List.mem_cons_self) ((List.pairwise_cons.1 hbl).1 a hal))
  | case3 l hl =>
    cases l with
    | nil => exact List.Pairwise.nil
    | cons a l =>
      cases l with
      | nil => exact List.pairwise_singleton _ a
      | cons b l => exact absurd rfl (hl a b l)

/-- Without repetition, a list with more than one entry has two different elements. -/
theorem one_lt_length_iff_of_nodup {l : List α} (h : l.Nodup) :
    1 < l.length ↔ ∃ a b, a ≠ b ∧ a ∈ l ∧ b ∈ l := by
  constructor
  · intro hlt
    match l, h, hlt with
    | a :: b :: l, h, _ =>
      exact ⟨a, b, (List.pairwise_cons.1 h).1 b List.mem_cons_self, by simp, by simp⟩
  · rintro ⟨a, b, hne, ha, hb⟩
    match l, ha, hb with
    | [c], ha, hb =>
      exact absurd ((List.mem_singleton.1 ha).trans (List.mem_singleton.1 hb).symm) hne
    | _ :: _ :: _, _, _ => simp

end StackFlow
