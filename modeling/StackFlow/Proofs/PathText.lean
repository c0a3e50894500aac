import Mathlib
import StackFlow.Path

/-!
# The text of a path

The text of a path is the decimal texts of its blocks with arrows between them. A decimal text is
not empty and has no blank, so that the first blank of the text ends its first block. Hence no two
paths have the same text (`Path.text_injective`), and a text stands for its path where texts are
used as keys.
-/

namespace StackFlow

/-- Different integers are written differently. -/
theorem decimal_injective : Function.Injective decimal := by
  intro m n h
  exact Int64.toInt_inj.1 (Int.repr_injective h)

/-- A decimal text is digits, at least one, behind an optional sign. -/
theorem decimal_toList (n : Int64) : (decimal n).toList ≠ [] ∧ ' ' ∉ (decimal n).toList := by
  have hdigits : ∀ k : Nat, k.repr.toList ≠ [] ∧ ' ' ∉ k.repr.toList := by
    intro k
    rw [Nat.toList_repr]
    refine ⟨Nat.toDigits_ne_nil, fun hblank => ?_⟩
    have hdigit := Nat.isDigit_of_mem_toDigits (by decide) (by decide) hblank
    exact absurd hdigit (by decide)
  have hrepr : (decimal n).toList = n.toInt.repr.toList := rfl
  rw [hrepr, Int.repr_eq_if]
  split
  · exact hdigits _
  · obtain ⟨-, hblank⟩ := hdigits (-n.toInt).toNat
    rw [String.toList_append]
    refine ⟨List.append_ne_nil_of_left_ne_nil (by decide) _, fun hmem => ?_⟩
    rcases List.mem_append.1 hmem with hsign | hrest
    · exact absurd hsign (by decide)
    · exact hblank hrest

/-- Arrows join words to a word and what follows: nothing, or a blank, the rest of the arrow and the
other words. -/
theorem intercalate_arrow_cons (w : List Char) (l : List (List Char)) :
    [' ', '→', ' '].intercalate (w :: l) =
      w ++ if l = [] then [] else ' ' :: '→' :: ' ' :: [' ', '→', ' '].intercalate l := by
  split
  next hl => rw [hl, List.intercalate_singleton, List.append_nil]
  next hl =>
    rw [List.intercalate_cons_of_ne_nil hl, List.append_assoc]
    rfl

/-- What stands before the first blank is the first word. -/
theorem takeWhile_intercalate_arrow {w : List Char} (hw : ' ' ∉ w) (l : List (List Char)) :
    ([' ', '→', ' '].intercalate (w :: l)).takeWhile (· ≠ ' ') = w := by
  have hword : ∀ c ∈ w, decide (c ≠ ' ') = true := by
    intro c hc
    exact decide_eq_true (fun hblank => hw (hblank ▸ hc))
  rw [intercalate_arrow_cons, List.takeWhile_append_of_pos hword]
  split <;> simp

/-- Words that are not empty and have no blank can be read off what arrows join. -/
theorem intercalate_arrow_injective {l k : List (List Char)}
    (hl : ∀ w ∈ l, w ≠ [] ∧ ' ' ∉ w) (hk : ∀ w ∈ k, w ≠ [] ∧ ' ' ∉ w)
    (h : [' ', '→', ' '].intercalate l = [' ', '→', ' '].intercalate k) : l = k := by
  induction l generalizing k with
  | nil =>
    cases k with
    | nil => rfl
    | cons v k =>
      rw [intercalate_arrow_cons, List.intercalate_nil, eq_comm] at h
      exact absurd (List.append_eq_nil_iff.1 h).1 (hk v List.mem_cons_self).1
  | cons w l ih =>
    cases k with
    | nil =>
      rw [intercalate_arrow_cons, List.intercalate_nil] at h
      exact absurd (List.append_eq_nil_iff.1 h).1 (hl w List.mem_cons_self).1
    | cons v k =>
      obtain rfl : w = v := by
        rw [← takeWhile_intercalate_arrow (hl w List.mem_cons_self).2 l, h,
          takeWhile_intercalate_arrow (hk v List.mem_cons_self).2 k]
      rw [intercalate_arrow_cons, intercalate_arrow_cons, List.append_cancel_left_eq] at h
      -- either both words are the last ones, or the arrows behind them agree
      by_cases hlnil : l = [] <;> by_cases hknil : k = []
      · rw [hlnil, hknil]
      · rw [if_pos hlnil, if_neg hknil] at h
        exact absurd h (by nofun)
      · rw [if_neg hlnil, if_pos hknil] at h
        exact absurd h (by nofun)
      · rw [if_neg hlnil, if_neg hknil] at h
        have hrest : [' ', '→', ' '].intercalate l = [' ', '→', ' '].intercalate k := by
          simpa using h
        rw [ih (fun x hx => hl x (List.mem_cons_of_mem _ hx))
          (fun x hx => hk x (List.mem_cons_of_mem _ hx)) hrest]

/-- Different paths are written differently. -/
theorem Path.text_injective : Function.Injective Path.text := by
  intro p q h
  have harrows : arrows p = arrows q := by
    unfold text at h
    rwa [String.append_left_inj, String.append_right_inj] at h
  have hwords : ∀ p : Path, ∀ w ∈ (p.map decimal).map String.toList, w ≠ [] ∧ ' ' ∉ w := by
    intro p w hw
    rw [List.map_map] at hw
    obtain ⟨n, -, rfl⟩ := List.mem_map.1 hw
    exact decimal_toList n
  have hchars := congrArg String.toList harrows
  unfold arrows at hchars
  rw [String.toList_intercalate, String.toList_intercalate] at hchars
  have hlists := intercalate_arrow_injective (hwords p) (hwords q) hchars
  have hdecimals := List.map_injective_iff.2 (fun _ _ => String.toList_injective) hlists
  exact List.map_injective_iff.2 decimal_injective hdecimals

end StackFlow
