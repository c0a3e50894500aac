import Mathlib.Data.Int.Notation
import Mathlib.Data.List.Basic
import Mathlib.Data.List.TakeWhile
import StackFlow.Block
import StackFlow.Yaml.Scalar

/-!
# Decimals as scalars

The decimal text of an integer is digits behind an optional sign, and the digits do not begin with a
zero unless it is the only one. So such a text is neither a word nor a time nor a number of another
base, and as a plain scalar it stands for its integer (`Yaml.Scalar.resolve_decimal`).
-/

namespace StackFlow

/-- Whether a text is digits, at least one, behind an optional sign. -/
def isDecimal : List Char → Bool
  | '-' :: ds => !ds.isEmpty && ds.all Char.isDigit
  | ds => !ds.isEmpty && ds.all Char.isDigit

namespace Number

/-- The digits of a number are digits. -/
theorem all_isDigit_toDigits (n : ℕ) : (Nat.toDigits 10 n).all Char.isDigit = true :=
  List.all_eq_true.2 fun _ h => Nat.isDigit_of_mem_toDigits (by decide) (by decide) h

/-- Only the digits of zero begin with a zero. -/
theorem head?_toDigits_ne_zero {n : ℕ} (hn : n ≠ 0) : (Nat.toDigits 10 n).head? ≠ some '0' := by
  induction n using Nat.strongRecOn with
  | ind n ih =>
    rcases Nat.lt_or_ge n 10 with hlt | hge
    · have hsmall : ∀ d < 10, d ≠ 0 → d.digitChar ≠ '0' := by decide
      rw [Nat.toDigits_of_lt_base hlt, List.head?_cons]
      exact fun h => hsmall n hlt hn (Option.some.inj h)
    · have hdiv : n / 10 ≠ 0 := by omega
      rw [Nat.toDigits_of_base_le (by decide) hge,
        List.head?_append_of_ne_nil _ Nat.toDigits_ne_nil]
      exact ih (n / 10) (by omega) hdiv

/-- Digits are read one after the other. -/
theorem foldDigits_append (base n : ℕ) (cs ds : List Char) :
    foldDigits base n (cs ++ ds) = (foldDigits base n cs).bind (foldDigits base · ds) := by
  fun_induction foldDigits base n cs with
  | case1 => rfl
  | case2 n c cs d hd hbase => simp [foldDigits, hd, hbase, Except.bind]
  | case3 n c cs d hd hbase hsize => simp [foldDigits, hd, hbase, hsize, Except.bind]
  | case4 n c cs d hd hbase hsize ih => simp [foldDigits, hd, hbase, hsize, ih]
  | case5 n c cs hd => simp [foldDigits, hd, Except.bind]

/-- The digits of a number of 64 bits have its value. -/
theorem foldDigits_toDigits {n : ℕ} (hn : n < UInt64.size) :
    foldDigits 10 0 (Nat.toDigits 10 n) = .ok n := by
  have hdigit : ∀ d < 10, digit? d.digitChar = some d := by decide
  induction n using Nat.strongRecOn with
  | ind n ih =>
    rcases Nat.lt_or_ge n 10 with hlt | hge
    · rw [Nat.toDigits_of_lt_base hlt]
      simp [foldDigits, hdigit n hlt, Nat.not_le.2 hlt, Nat.not_le.2 hn]
    · -- the last digit is the remainder, and those before it are the digits of the quotient
      have hmod : n % 10 < 10 := Nat.mod_lt n (by decide)
      have hsum : 10 * (n / 10) + n % 10 = n := Nat.div_add_mod n 10
      rw [Nat.toDigits_of_base_le (by decide) hge, foldDigits_append, ih (n / 10) (by omega)
        (by omega)]
      simp [foldDigits, Except.bind, hdigit _ hmod, Nat.not_le.2 hmod, hsum, Nat.not_le.2 hn]

/-- Where there are only digits no underscore is out of place. -/
theorem separates_of_all_isDigit {cs : List Char} (h : cs.all Char.isDigit = true)
    (hex digit : Bool) :
    separates hex digit cs = true := by
  induction cs generalizing digit with
  | nil => rfl
  | cons c cs ih =>
    rw [List.all_cons, Bool.and_eq_true] at h
    have hc : c ≠ '_' := by
      rintro rfl
      exact absurd h.1 (by decide)
    rw [separates]
    · exact ih h.2 _
    · exact hc

/-- There are no underscores between digits. -/
theorem filter_underscore_of_all_isDigit {cs : List Char} (h : cs.all Char.isDigit = true) :
    cs.filter (· != '_') = cs := by
  rw [List.filter_eq_self]
  rintro c hc
  rw [bne_iff_ne]
  rintro rfl
  exact absurd (List.all_eq_true.1 h _ hc) (by decide)

/-- Digits that do not begin with a zero are decimal. -/
theorem splitBase_of_head?_ne {cs : List Char} (h : cs.head? ≠ some '0') :
    splitBase cs = (10, cs) := by
  cases cs with
  | nil => rfl
  | cons c cs =>
    have hc : c ≠ '0' := fun hc => h (by rw [hc]; rfl)
    unfold splitBase
    split
    next heq => exact absurd (List.cons.inj heq).1 hc
    next heq => exact absurd (List.cons.inj heq).1 hc
    next => rfl

/-- Digits that do not begin with a zero have no sign of a base. -/
theorem hasBaseSign_of_head?_ne {cs : List Char} (h : cs.head? ≠ some '0') :
    hasBaseSign cs = false := by
  unfold hasBaseSign
  split
  next => exact absurd rfl h
  next => rfl

/-- The digits of a number of 64 bits are read as it. -/
theorem readNatural_toDigits {n : ℕ} (hn : n < UInt64.size) :
    readNatural none (Nat.toDigits 10 n) = .ok n := by
  rcases eq_or_ne n 0 with rfl | hne
  · rfl
  · have hhead := head?_toDigits_ne_zero hne
    have hdigits := all_isDigit_toDigits n
    have hseparates : underscoresSeparate (Nat.toDigits 10 n) = true := by
      rw [underscoresSeparate, hasBaseSign_of_head?_ne hhead]
      exact separates_of_all_isDigit hdigits false false
    unfold readNatural
    rw [if_neg (by simp), splitBase_of_head?_ne hhead]
    dsimp only
    rw [filter_underscore_of_all_isDigit hdigits, foldDigits_toDigits hn]
    dsimp only
    rw [if_pos hseparates]

end Number

open Number

/-- A decimal text is the digits of a number, or a sign and the digits of one. -/
theorem decimal_cases (i : Int64) :
    ∃ n : ℕ, (i.toInt = n ∧ n < signedBound ∧ (decimal i).toList = Nat.toDigits 10 n) ∨
      (i.toInt = -n ∧ n ≤ signedBound ∧ (decimal i).toList = '-' :: Nat.toDigits 10 n) := by
  have hlow : -(signedBound : ℤ) ≤ i.toInt := i.le_toInt
  have hhigh : i.toInt < signedBound := i.toInt_lt
  have hrepr : (decimal i).toList = i.toInt.repr.toList := rfl
  rw [hrepr, Int.repr_eq_if]
  by_cases hpos : 0 ≤ i.toInt
  · refine ⟨i.toInt.toNat, .inl ⟨by omega, by omega, ?_⟩⟩
    rw [if_pos hpos, Nat.toList_repr]
  · refine ⟨(-i.toInt).toNat, .inr ⟨by omega, by omega, ?_⟩⟩
    rw [if_neg hpos, String.toList_append, Nat.toList_repr]
    rfl

/-- The digits of a number are a decimal, also behind a hyphen. -/
theorem isDecimal_toDigits (n : ℕ) :
    isDecimal (Nat.toDigits 10 n) = true ∧ isDecimal ('-' :: Nat.toDigits 10 n) = true := by
  have hdigits := all_isDigit_toDigits n
  have hne : (Nat.toDigits 10 n).isEmpty = false := by simp
  refine ⟨?_, by simp [isDecimal, hdigits]⟩
  unfold isDecimal
  split
  next ds heq =>
    -- digits do not begin with a sign
    rw [heq] at hdigits
    exact absurd hdigits (by simp)
  next => rw [hne, hdigits]; rfl

/-- An integer is written as a decimal. -/
theorem isDecimal_decimal (i : Int64) : isDecimal (decimal i).toList = true := by
  obtain ⟨n, ⟨-, -, h⟩ | ⟨-, -, h⟩⟩ := decimal_cases i
  · rw [h]
    exact (isDecimal_toDigits n).1
  · rw [h]
    exact (isDecimal_toDigits n).2

/-- A decimal text is read as its integer. -/
theorem Number.readInteger_decimal (i : Int64) :
    readInteger none (decimal i).toList = .ok i.toInt := by
  obtain ⟨n, ⟨hi, hn, h⟩ | ⟨hi, hn, h⟩⟩ := decimal_cases i
  · have hsize : n < UInt64.size := Nat.lt_trans hn (by decide)
    have hdigits := all_isDigit_toDigits n
    have hsign : ∀ c, c.isDigit = false → (Nat.toDigits 10 n).head? ≠ some c := by
      intro c hc hhead
      exact absurd (List.all_eq_true.1 hdigits c (List.mem_of_head? hhead)) (by simp [hc])
    have hminus := beq_eq_false_iff_ne.2 (hsign '-' (by decide))
    have hplus := beq_eq_false_iff_ne.2 (hsign '+' (by decide))
    rw [h, hi]
    simp [readInteger, hminus, hplus, readNatural_toDigits hsize, Nat.not_le.2 hn]
  · have hsize : n < UInt64.size := Nat.lt_of_le_of_lt hn (by decide)
    rw [h, hi]
    simp [readInteger, readNatural_toDigits hsize, Nat.not_lt.2 hn]

namespace Yaml

/-- A decimal text begins with a digit, or with a sign before a digit. -/
theorem exists_cons_of_isDecimal {cs : List Char} (h : isDecimal cs = true) :
    ∃ c ds, cs = c :: ds ∧ ds.all Char.isDigit = true ∧
      (c.isDigit = true ∨ c = '-' ∧ ds ≠ []) := by
  unfold isDecimal at h
  split at h
  next ds =>
    rw [Bool.and_eq_true] at h
    exact ⟨'-', ds, rfl, h.2, .inr ⟨rfl, by simpa using h.1⟩⟩
  next =>
    cases cs with
    | nil => exact absurd h (by decide)
    | cons c ds =>
      rw [List.all_cons, Bool.and_eq_true, Bool.and_eq_true] at h
      exact ⟨c, ds, rfl, h.2.2, .inl h.2.1⟩

/-- No decimal is a time, since a time has a hyphen behind its year. -/
theorem Timestamp.ofText?_eq_none {cs : List Char} (h : isDecimal cs = true) :
    Timestamp.ofText? cs = none := by
  suffices hdate : Timestamp.date? cs = none by
    rw [ofText?, hdate]
    rfl
  obtain ⟨c, ds, rfl, hds, hc | ⟨rfl, -⟩⟩ := exists_cons_of_isDecimal h
  · have hall : ((c :: ds).takeWhile Char.isDigit) = c :: ds := by
      rw [List.takeWhile_eq_self_iff]
      exact List.forall_mem_cons.2 ⟨hc, List.all_eq_true.1 hds⟩
    unfold date?
    rw [hall]
    dsimp only
    split
    next => rfl
    next hlength =>
      rw [List.drop_eq_nil_of_le (by omega)]
      rfl
  · rfl

namespace Scalar

/-- No decimal is one of the words. -/
theorem word?_eq_none {s : String} (h : isDecimal s.toList = true) : word? s = none := by
  unfold word?
  split <;> first | rfl | exact absurd h (by decide)

/-- A decimal text stands for its integer. -/
theorem resolve_decimal (i : Int64) : resolve true (decimal i) = .int i.toInt := by
  have hdecimal := isDecimal_decimal i
  obtain ⟨c, ds, hcons, hds, hc⟩ := exists_cons_of_isDecimal hdecimal
  -- the answers to the questions that are asked in turn: a word, a point, a time, a number
  have hfilter : (c :: ds).filter (· != '_') = c :: ds := by
    have hne : (c != '_') = true := by
      rw [bne_iff_ne]
      rintro rfl
      exact absurd hc (by simp)
    rw [List.filter_cons, if_pos hne, filter_underscore_of_all_isDigit hds]
  have hpoint : c ≠ '.' := by
    rintro rfl
    exact absurd hc (by simp)
  have hbegin : (c.isDigit || c == '+' || c == '-') = true := by
    rcases hc with hc | ⟨rfl, -⟩
    · rw [hc]; rfl
    · rfl
  have htime : Timestamp.ofText? (c :: ds) = none :=
    Timestamp.ofText?_eq_none (by rw [← hcons]; exact hdecimal)
  have hnumber : number? (c :: ds) = some (.int i.toInt) := by
    rw [number?, ← hcons, readInteger_decimal]
  unfold resolve
  rw [word?_eq_none hdecimal, hcons]
  dsimp only
  split
  next heq => exact absurd (List.cons.inj heq).1 hpoint
  next c' ds' _ heq =>
    obtain ⟨rfl, rfl⟩ := List.cons.inj heq
    rw [if_pos hbegin, if_pos rfl, htime]
    dsimp only
    rw [hfilter, hnumber]
    rfl
  next heq => exact absurd heq (List.cons_ne_nil c ds)

end Scalar

end Yaml

end StackFlow
