/-!
# Measures on lists

What shrinks when a graph is searched. `total f l` adds up a weight of the elements of `l`.
`countP_lt_countP` is for counts: a stronger test that refuses one more element counts fewer.
-/

namespace StackFlow

variable {α : Type}

/-- The sum of the weights of a list's elements. -/
def total (f : α → Nat) : List α → Nat
  | [] => 0
  | a :: l => f a + total f l

/-- The total of two lists is that of both parts. -/
theorem total_append (f : α → Nat) (l k : List α) : total f (l ++ k) = total f l + total f k := by
  induction l with
  | nil => simp [total]
  | cons a l ih =>
    rw [List.cons_append, total, total, ih]
    omega

/-- Weights up to a bound add up to at most that bound for each element. -/
theorem total_le {f : α → Nat} {l : List α} {b : Nat} (h : ∀ a ∈ l, f a ≤ b) :
    total f l ≤ l.length * b := by
  induction l with
  | nil => exact Nat.zero_le _
  | cons a l ih =>
    have h1 := ih (fun x hx => h x (List.mem_cons_of_mem _ hx))
    have h2 := h a List.mem_cons_self
    rw [total, List.length_cons, Nat.succ_mul]
    omega

/-- A test that is nowhere weaker and refuses one more element of the list counts fewer of its
elements. -/
theorem countP_lt_countP {p q : α → Bool} {l : List α} {a : α}
    (h : ∀ x ∈ l, q x = true → p x = true) (ha : a ∈ l) (hp : p a = true) (hq : q a = false) :
    l.countP q < l.countP p := by
  induction l with
  | nil => simp at ha
  | cons b l ih =>
    have hle : l.countP q ≤ l.countP p :=
      List.countP_mono_left (fun x hx => h x (List.mem_cons_of_mem _ hx))
    by_cases hab : a = b
    · subst hab
      simp only [List.countP_cons, hp, hq]
      simp
      omega
    · have ha' : a ∈ l := by simpa [hab] using ha
      have hlt := ih (fun x hx => h x (List.mem_cons_of_mem _ hx)) ha'
      have hb := h b (by simp)
      simp only [List.countP_cons]
      by_cases hqb : q b = true
      · rw [if_pos hqb, if_pos (hb hqb)]
        omega
      · rw [if_neg hqb]
        omega

end StackFlow
