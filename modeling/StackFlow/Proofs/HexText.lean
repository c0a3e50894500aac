import Mathlib.Algebra.Ring.Parity
import Mathlib.Data.List.Infix
import StackFlow.Bytecode.Hex

/-!
# Bytes read from hexadecimal text

A text is read in three steps: the white space around it is dropped (`Text.IsTrim`), then one mark
`0x` or `0X` (`Unmarks`), and the rest is read in pairs of digits. `Remains` says what is left for
the last step, which decides the result. A rest is read as bytes exactly if it is their text in
digits of any case (`decode_eq_ok_iff`). Otherwise some character is not a digit, or the digits do
not come in pairs, and the former is reported first (`parse_by_remaining_digits`).
-/

namespace StackFlow

/-! ## White space -/

namespace Text

variable {s t : List Char} {c : Char}

/-- The characters with the Unicode property of white space. -/
def whiteSpace : List Char :=
  ['\t', '\n', '\x0b', '\x0c', '\r', ' ', '\u0085', '\u00a0', '\u1680', '\u2000', '\u2001',
    '\u2002', '\u2003', '\u2004', '\u2005', '\u2006', '\u2007', '\u2008', '\u2009', '\u200a',
    '\u2028', '\u2029', '\u202f', '\u205f', '\u3000']

/-- The inner text of a text with white space around it, which it neither begins nor ends with. -/
structure IsTrim (s t : List Char) : Prop where
  /-- All around the inner text is white space. -/
  around : ∃ before after, s = before ++ t ++ after ∧ ∀ c ∈ before ++ after, c ∈ whiteSpace
  /-- The inner text does not begin with white space. -/
  first : ∀ c, t.head? = some c → c ∉ whiteSpace
  /-- The inner text does not end with white space. -/
  last : ∀ c, t.getLast? = some c → c ∉ whiteSpace

/-- Characters are told apart by their codes. -/
theorem mem_iff_toNat_mem : c ∈ s ↔ c.toNat ∈ s.map Char.toNat := by
  rw [List.mem_map]
  exact ⟨fun h => ⟨c, h, rfl⟩, fun ⟨d, hd, hdc⟩ => Char.toNat_inj.1 hdc ▸ hd⟩

/-- The test for white space says what it should. -/
theorem isBlank_iff : isBlank c = true ↔ c ∈ whiteSpace := by
  have hcodes : whiteSpace.map Char.toNat = [0x09, 0x0a, 0x0b, 0x0c, 0x0d, 0x20, 0x85, 0xa0, 0x1680,
      0x2000, 0x2001, 0x2002, 0x2003, 0x2004, 0x2005, 0x2006, 0x2007, 0x2008, 0x2009, 0x200a,
      0x2028, 0x2029, 0x202f, 0x205f, 0x3000] := rfl
  rw [mem_iff_toNat_mem, hcodes]
  simp only [isBlank, Bool.or_eq_true, Bool.and_eq_true, decide_eq_true_eq, beq_iff_eq,
    List.mem_cons, List.not_mem_nil, or_false]
  omega

/-- No character is white space where none is found to be. -/
theorem not_mem_whiteSpace (h : s.all (fun c => !isBlank c) = true) (hc : c ∈ s) :
    c ∉ whiteSpace := by
  rw [← isBlank_iff, Bool.not_eq_true, ← Bool.not_eq_true']
  exact List.all_eq_true.1 h c hc

/-- What does not begin with white space loses nothing at its start. -/
theorem dropWhile_isBlank (h : ∀ c, t.head? = some c → c ∉ whiteSpace) :
    t.dropWhile isBlank = t := by
  cases t with
  | nil => rfl
  | cons c t =>
    refine List.dropWhile_cons_of_neg ?_
    rw [isBlank_iff]
    exact h c rfl

/-- White space is dropped up to the first character that is none. -/
theorem exists_dropWhile_isBlank (s : List Char) :
    ∃ before, s = before ++ s.dropWhile isBlank ∧ (∀ c ∈ before, c ∈ whiteSpace) ∧
      ∀ c, (s.dropWhile isBlank).head? = some c → c ∉ whiteSpace := by
  refine ⟨s.takeWhile isBlank, List.takeWhile_append_dropWhile.symm, fun c hc => ?_,
    fun c hc hblank => ?_⟩
  · exact isBlank_iff.1 (List.all_eq_true.1 List.all_takeWhile c hc)
  · have hstop := List.head?_dropWhile_not isBlank s
    rw [hc] at hstop
    exact absurd (isBlank_iff.2 hblank) (Bool.eq_false_iff.1 hstop)

/-- Trimming takes away the white space at both ends and nothing else. -/
theorem isTrim_trim (s : List Char) : IsTrim s (trim s) := by
  obtain ⟨before, hs, hbefore, hfirst⟩ := exists_dropWhile_isBlank s
  obtain ⟨after, hrest, hafter, hlast⟩ := exists_dropWhile_isBlank (s.dropWhile isBlank).reverse
  have hinner : s.dropWhile isBlank = trim s ++ after.reverse := by
    rw [trim, ← List.reverse_append, ← hrest, List.reverse_reverse]
  constructor
  case around =>
    refine ⟨before, after.reverse, ?_, fun c hc => ?_⟩
    · rw [List.append_assoc, ← hinner]
      exact hs
    · rcases List.mem_append.1 hc with hc | hc
      · exact hbefore c hc
      · exact hafter c (List.mem_reverse.1 hc)
  case first =>
    intro c hc
    refine hfirst c ?_
    rw [hinner, List.head?_append, hc, Option.some_or]
  case last =>
    intro c hc
    refine hlast c ?_
    rwa [trim, List.getLast?_reverse] at hc

/-- All white space at the ends of a text is dropped, and nothing else. -/
theorem isTrim_iff : IsTrim s t ↔ trim s = t := by
  constructor
  · rintro ⟨⟨before, after, rfl, hblank⟩, hfirst, hlast⟩
    have hdrop : ∀ l r : List Char, (∀ c ∈ l, c ∈ whiteSpace) →
        (l ++ r).dropWhile isBlank = r.dropWhile isBlank :=
      fun l r hl => List.dropWhile_append_of_pos (fun c hc => isBlank_iff.2 (hl c hc))
    have hbefore : ∀ c ∈ before, c ∈ whiteSpace :=
      fun c hc => hblank c (List.mem_append_left _ hc)
    have hafter : ∀ c ∈ after.reverse, c ∈ whiteSpace :=
      fun c hc => hblank c (List.mem_append_right _ (List.mem_reverse.1 hc))
    unfold trim
    rw [List.append_assoc, hdrop before _ hbefore]
    cases t with
    | nil =>
      -- nothing stops the search from the start, which takes what follows as well
      have hall := hdrop after [] (fun c hc => hafter c (List.mem_reverse.2 hc))
      rw [List.append_nil] at hall
      rw [List.nil_append, hall]
      rfl
    | cons c t =>
      have hstart : (c :: t ++ after).dropWhile isBlank = c :: t ++ after :=
        dropWhile_isBlank (fun d hd => hfirst d hd)
      have hend : (c :: t).reverse.dropWhile isBlank = (c :: t).reverse :=
        dropWhile_isBlank (fun d hd => hlast d (by rwa [List.head?_reverse] at hd))
      rw [hstart, List.reverse_append, hdrop _ _ hafter, hend, List.reverse_reverse]
  · rintro rfl
    exact isTrim_trim s

end Text

namespace Hex

/-! ## Digits -/

/-- The hexadecimal digits. -/
def digits : List Char :=
  ['0', '1', '2', '3', '4', '5', '6', '7', '8', '9', 'a', 'b', 'c', 'd', 'e', 'f',
    'A', 'B', 'C', 'D', 'E', 'F']

variable {c : Char} {n : Nat}

/-- Text is put in small letters character by character. -/
theorem toList_toLower (s : String) : s.toLower.toList = s.toList.map Char.toLower :=
  String.toList_map

/-- The code of a character in small letters. -/
theorem toNat_toLower (c : Char) :
    c.toLower.toNat = if 65 ≤ c.toNat ∧ c.toNat ≤ 90 then c.toNat + 32 else c.toNat := by
  have hrange : c.val ≥ 'A'.val ∧ c.val ≤ 'Z'.val ↔ 65 ≤ c.toNat ∧ c.toNat ≤ 90 := by
    rw [ge_iff_le, UInt32.le_iff_toNat_le, UInt32.le_iff_toNat_le]
    rfl
  unfold Char.toLower
  by_cases h : c.val ≥ 'A'.val ∧ c.val ≤ 'Z'.val
  · have hcode := hrange.1 h
    rw [dif_pos h, if_pos hcode]
    change (c.val + 32).toNat = c.val.toNat + 32
    rw [UInt32.toNat_add]
    change (c.toNat + 32) % 4294967296 = c.toNat + 32
    omega
  · rw [dif_neg h, if_neg (fun hcode => h (hrange.2 hcode))]

/-- The code of a hexadecimal digit. -/
theorem toNat_digit (h : n < 16) : (digit n).toNat = if n < 10 then 48 + n else 87 + n := by
  have hall : ∀ n < 16, (digit n).toNat = if n < 10 then 48 + n else 87 + n := by decide
  exact hall n h

/-- The value of a digit by its code. -/
theorem digit?_eq (c : Char) : digit? c =
    if 48 ≤ c.toNat ∧ c.toNat ≤ 57 then some (c.toNat - 48)
    else if 97 ≤ c.toNat ∧ c.toNat ≤ 102 then some (c.toNat - 97 + 10)
    else if 65 ≤ c.toNat ∧ c.toNat ≤ 70 then some (c.toNat - 65 + 10)
    else none := by
  unfold digit?
  simp only [Char.le_def, UInt32.le_iff_toNat_le]
  rfl

/-- A digit has the value that it is written for, in lower or upper case. -/
theorem digit?_eq_some_iff : digit? c = some n ↔ n < 16 ∧ c.toLower = digit n := by
  have hcode : n < 16 → (c.toLower = digit n ↔
      (if 65 ≤ c.toNat ∧ c.toNat ≤ 90 then c.toNat + 32 else c.toNat) =
        if n < 10 then 48 + n else 87 + n) := by
    intro h
    rw [← Char.toNat_inj, toNat_toLower, toNat_digit h]
  rw [and_congr_right hcode, digit?_eq]
  grind

/-- The characters with a value are the digits. -/
theorem isSome_digit?_iff : (digit? c).isSome = true ↔ c ∈ digits := by
  have hcodes : digits.map Char.toNat = [48, 49, 50, 51, 52, 53, 54, 55, 56, 57, 97, 98, 99, 100,
      101, 102, 65, 66, 67, 68, 69, 70] := rfl
  rw [Text.mem_iff_toNat_mem, hcodes, digit?_eq]
  simp only [List.mem_cons, List.not_mem_nil, or_false]
  split_ifs
  · exact iff_of_true rfl (by omega)
  · exact iff_of_true rfl (by omega)
  · exact iff_of_true rfl (by omega)
  · exact iff_of_false Bool.false_ne_true (by omega)

/-! ## Pairs of digits -/

variable {d : Char} {b : UInt8} {cs rest t : List Char} {bytes : List UInt8} {hi lo : Nat}

/-- A byte is written as two digits, the higher one first. -/
theorem toList_encode_cons (b : UInt8) (bytes : List UInt8) :
    (encode (b :: bytes)).toList =
      digit (b.toNat / 16) :: digit (b.toNat % 16) :: (encode bytes).toList := by
  rw [encode, encode, String.toList_ofList, String.toList_ofList]
  rfl

/-- A byte is known by the values of its two digits. -/
theorem ofNat_eq_iff (hhi : hi < 16) (hlo : lo < 16) :
    UInt8.ofNat (16 * hi + lo) = b ↔ hi = b.toNat / 16 ∧ lo = b.toNat % 16 := by
  have hfits : 16 * hi + lo < UInt8.size := by
    change 16 * hi + lo < 256
    omega
  rw [← UInt8.toNat_inj, UInt8.toNat_ofNat_of_lt' hfits]
  omega

/-- The first pair of characters has one that is no digit, or stands for a byte before those of the
rest. -/
theorem decode_cons_cons_cases (c d : Char) (rest : List Char) :
    (c ∉ digits ∨ d ∉ digits) ∧ decode (c :: d :: rest) = .error .notDigit ∨
      (c ∈ digits ∧ d ∈ digits) ∧ ∃ hi lo, digit? c = some hi ∧ digit? d = some lo ∧
        decode (c :: d :: rest) = (decode rest).map (UInt8.ofNat (16 * hi + lo) :: ·) := by
  rw [← isSome_digit?_iff, ← isSome_digit?_iff, decode]
  cases hc : digit? c with
  | none => exact .inl ⟨.inl (by nofun), rfl⟩
  | some hi =>
    cases hd : digit? d with
    | none => exact .inl ⟨.inr (by nofun), rfl⟩
    | some lo => exact .inr ⟨⟨rfl, rfl⟩, hi, lo, rfl, rfl, rfl⟩

/-- Two digits are read as a byte, the higher one first. -/
theorem decode_cons_cons_eq_ok_iff :
    decode (c :: d :: rest) = .ok (b :: bytes) ↔
      digit? c = some (b.toNat / 16) ∧ digit? d = some (b.toNat % 16) ∧
        decode rest = .ok bytes := by
  rcases decode_cons_cons_cases c d rest with ⟨hnot, herror⟩ | ⟨-, hi, lo, hc, hd, hdecode⟩
  · rw [herror, ← isSome_digit?_iff, ← isSome_digit?_iff] at *
    refine iff_of_false (by nofun) ?_
    rintro ⟨hc, hd, -⟩
    rw [hc, hd] at hnot
    exact hnot.elim (fun h => h rfl) (fun h => h rfl)
  · have hhi := (digit?_eq_some_iff.1 hc).1
    have hlo := (digit?_eq_some_iff.1 hd).1
    rw [hdecode, hc, hd, Option.some.injEq, Option.some.injEq, ← and_assoc,
      ← ofNat_eq_iff hhi hlo]
    cases decode rest with
    | error e => exact iff_of_false (by nofun) (by nofun)
    | ok bs => simp [Except.map]

/-- What is read as bytes is their text, in digits of any case. -/
theorem decode_eq_ok_iff :
    decode cs = .ok bytes ↔ cs.map Char.toLower = (encode bytes).toList := by
  -- each byte takes two characters, so that one character alone never fits
  induction bytes generalizing cs with
  | nil =>
    change _ ↔ cs.map Char.toLower = []
    rw [List.map_eq_nil_iff]
    match cs with
    | [] => exact iff_of_true rfl rfl
    | [c] =>
      refine iff_of_false ?_ (List.cons_ne_nil _ _)
      rw [decode]
      split <;> nofun
    | c :: d :: rest =>
      refine iff_of_false ?_ (List.cons_ne_nil _ _)
      rcases decode_cons_cons_cases c d rest with ⟨-, h⟩ | ⟨-, hi, lo, -, -, h⟩
      · rw [h]
        nofun
      · rw [h]
        cases decode rest <;> nofun
  | cons b bytes ih =>
    rw [toList_encode_cons]
    match cs with
    | [] => exact iff_of_false (by nofun) (by nofun)
    | [c] =>
      refine iff_of_false ?_ (fun h => absurd (congrArg List.length h) (by simp))
      rw [decode]
      split <;> nofun
    | c :: d :: rest =>
      have hhi : b.toNat / 16 < 16 := Nat.div_lt_of_lt_mul b.toNat_lt
      have hlo : b.toNat % 16 < 16 := Nat.mod_lt _ (by decide)
      rw [decode_cons_cons_eq_ok_iff, digit?_eq_some_iff, digit?_eq_some_iff, and_iff_right hhi,
        and_iff_right hlo, ih, List.map_cons, List.map_cons, List.cons.injEq, List.cons.injEq]

/-- Two characters more do not change whether their number is even. -/
theorem even_length_cons_cons (c d : Char) (rest : List Char) :
    Even (c :: d :: rest).length ↔ Even rest.length := by
  rw [List.length_cons, List.length_cons, Nat.even_add_one, Nat.not_even_iff_odd, Nat.odd_add_one,
    Nat.not_odd_iff_even]

/-- Some character is no digit, which is reported first, or the digits come in pairs and stand for
bytes, or they do not. -/
theorem decode_cases (cs : List Char) :
    (∃ c ∈ cs, c ∉ digits) ∧ decode cs = .error .notDigit ∨
      (∀ c ∈ cs, c ∈ digits) ∧
        (Even cs.length ∧ (∃ bytes, decode cs = .ok bytes) ∨
          ¬ Even cs.length ∧ decode cs = .error .oddLength) := by
  match cs with
  | [] => exact .inr ⟨List.forall_mem_nil _, .inl ⟨Even.zero, [], rfl⟩⟩
  | [c] =>
    rw [decode]
    by_cases hc : c ∈ digits
    · rw [if_pos (isSome_digit?_iff.2 hc)]
      exact .inr ⟨List.forall_mem_singleton.2 hc, .inr ⟨Nat.not_even_one, rfl⟩⟩
    · rw [if_neg (fun h => hc (isSome_digit?_iff.1 h))]
      exact .inl ⟨⟨c, List.mem_cons_self, hc⟩, rfl⟩
  | c :: d :: rest =>
    rw [even_length_cons_cons]
    rcases decode_cons_cons_cases c d rest with ⟨hnot, h⟩ | ⟨hdigits, hi, lo, -, -, h⟩
    · refine .inl ⟨?_, h⟩
      rcases hnot with hc | hd
      · exact ⟨c, List.mem_cons_self, hc⟩
      · exact ⟨d, List.mem_cons_of_mem c List.mem_cons_self, hd⟩
    · -- the first pair changes neither which case it is nor what is reported
      rw [h, List.forall_mem_cons, List.forall_mem_cons]
      rcases decode_cases rest with ⟨⟨x, hx, hnot⟩, hrest⟩ | ⟨hall, hcases⟩
      · rw [hrest]
        exact .inl ⟨⟨x, List.mem_cons_of_mem c (List.mem_cons_of_mem d hx), hnot⟩, rfl⟩
      · refine .inr ⟨⟨hdigits.1, hdigits.2, hall⟩, ?_⟩
        rcases hcases with ⟨heven, bytes, hrest⟩ | ⟨hodd, hrest⟩
        · rw [hrest]
          exact .inl ⟨heven, _, rfl⟩
        · rw [hrest]
          exact .inr ⟨hodd, rfl⟩

/-- Bytes are read from digits, an even number of them. -/
theorem exists_decode_iff :
    (∃ bytes, decode cs = .ok bytes) ↔ (∀ c ∈ cs, c ∈ digits) ∧ Even cs.length := by
  rcases decode_cases cs with ⟨⟨c, hc, hnot⟩, h⟩ | ⟨hall, ⟨heven, h⟩ | ⟨hodd, h⟩⟩
  · rw [h]
    exact iff_of_false (by nofun) (fun hboth => hnot (hboth.1 c hc))
  · exact iff_of_true h ⟨hall, heven⟩
  · rw [h]
    exact iff_of_false (by nofun) (fun hboth => hodd hboth.2)

/-- There is a complaint about a digit exactly if some character is none. -/
theorem decode_eq_notDigit_iff : decode cs = .error .notDigit ↔ ∃ c ∈ cs, c ∉ digits := by
  rcases decode_cases cs with ⟨hnot, h⟩ | ⟨hall, ⟨-, bytes, h⟩ | ⟨-, h⟩⟩
  · exact iff_of_true h hnot
  · rw [h]
    exact iff_of_false (by nofun) (fun ⟨c, hc, hnot⟩ => hnot (hall c hc))
  · rw [h]
    exact iff_of_false (by nofun) (fun ⟨c, hc, hnot⟩ => hnot (hall c hc))

/-- There is a complaint about the length exactly if all characters are digits, an odd number of
them. -/
theorem decode_eq_oddLength_iff :
    decode cs = .error .oddLength ↔ (∀ c ∈ cs, c ∈ digits) ∧ Odd cs.length := by
  rw [← Nat.not_even_iff_odd]
  rcases decode_cases cs with ⟨⟨c, hc, hnot⟩, h⟩ | ⟨hall, ⟨heven, bytes, h⟩ | ⟨hodd, h⟩⟩
  · rw [h]
    exact iff_of_false (by nofun) (fun hboth => hnot (hboth.1 c hc))
  · rw [h]
    exact iff_of_false (by nofun) (fun hboth => hboth.2 heven)
  · exact iff_of_true h ⟨hall, hodd⟩

/-! ## Marks -/

/-- What may stand before the digits. -/
def marks : List (List Char) := [['0', 'x'], ['0', 'X']]

/-- A text without the mark that it begins with, if it begins with one. -/
inductive Unmarks : List Char → List Char → Prop
  /-- One mark is taken off. -/
  | marked {mark rest : List Char} (h : mark ∈ marks) : Unmarks (mark ++ rest) rest
  /-- There is no mark. -/
  | bare {rest : List Char} (h : ∀ mark ∈ marks, ¬ mark <+: rest) : Unmarks rest rest

/-- What is left of a text without the white space around it and without a mark. -/
def Remains (s rest : List Char) : Prop := ∃ t, Text.IsTrim s t ∧ Unmarks t rest

/-- The mark that is dropped is the one that should be. -/
theorem unmarks_iff : Unmarks t rest ↔ dropMark t = rest := by
  constructor
  · intro h
    cases h with
    | marked hmark =>
      simp only [marks, List.mem_cons, List.not_mem_nil, or_false] at hmark
      rcases hmark with rfl | rfl <;> rfl
    | bare hbare =>
      unfold dropMark
      split
      next r => exact absurd ⟨r, rfl⟩ (hbare ['0', 'x'] (by decide))
      next r => exact absurd ⟨r, rfl⟩ (hbare ['0', 'X'] (by decide))
      next => rfl
  · rintro rfl
    unfold dropMark
    split
    next r =>
      have hx : ['0', 'x'] ∈ marks := by decide
      exact .marked hx
    next r =>
      have hX : ['0', 'X'] ∈ marks := by decide
      exact .marked hX
    next hx hX =>
      -- the text begins with neither of the marks
      refine .bare (fun mark hmark => ?_)
      simp only [marks, List.mem_cons, List.not_mem_nil, or_false] at hmark
      rcases hmark with rfl | rfl
      · rintro ⟨r, rfl⟩
        exact hx r rfl
      · rintro ⟨r, rfl⟩
        exact hX r rfl

/-- What remains of a text is what stands behind its mark, without white space around. -/
theorem remains_iff {s : List Char} : Remains s rest ↔ dropMark (Text.trim s) = rest := by
  unfold Remains
  simp only [Text.isTrim_iff, unmarks_iff, exists_eq_left']

/-- Digits remain of what they make with a mark before them and white space around. -/
theorem remains_of_digits {before mark text after : List Char}
    (hblank : ∀ c ∈ before ++ after, c ∈ Text.whiteSpace) (hmark : mark = [] ∨ mark ∈ marks)
    (hdigits : ∀ c ∈ text, c ∈ digits) :
    Remains (before ++ (mark ++ text) ++ after) text := by
  have hinner : ∀ c ∈ mark ++ text, c ∉ Text.whiteSpace := by
    have hmarks : marks.all (fun mark => mark.all (fun c => !Text.isBlank c)) = true := rfl
    intro c hc
    rcases List.mem_append.1 hc with hc | hc
    · rcases hmark with rfl | hmark
      · exact absurd hc List.not_mem_nil
      · exact Text.not_mem_whiteSpace (List.all_eq_true.1 hmarks mark hmark) hc
    · exact Text.not_mem_whiteSpace (by rfl) (hdigits c hc)
  refine ⟨mark ++ text, ⟨⟨before, after, rfl, hblank⟩, fun c hc => hinner c (List.mem_of_head? hc),
    fun c hc => hinner c (List.mem_of_getLast? hc)⟩, ?_⟩
  rcases hmark with rfl | hmark
  · -- the second character of a mark is no digit
    refine .bare (fun mark hmark hbegins => ?_)
    have hvalue : ∀ c ∈ mark, (digit? c).isSome = true :=
      fun c hc => isSome_digit?_iff.2 (hdigits c (hbegins.subset hc))
    simp only [marks, List.mem_cons, List.not_mem_nil, or_false] at hmark
    rcases hmark with rfl | rfl
    · exact absurd (hvalue 'x' (by simp)) (by decide)
    · exact absurd (hvalue 'X' (by simp)) (by decide)
  · exact .marked hmark

/-! ## Reading a text -/

/-- A text is read as the digits that remain of it. -/
theorem parse_of_remains {s : String} (h : Remains s.toList rest) : parse s = decode rest := by
  rw [parse, remains_iff.1 h]

/-- The text of bytes, in digits of any case, behind a mark or none and within any white space, is
read as the bytes. Of every text one rest remains without the white space around it and without a
mark. The text is read as bytes exactly if the rest is their text, in digits of any case; it is read
at all exactly if the rest is an even number of digits. Otherwise the complaint is about a character
that is no digit, exactly if there is one, and about the number of digits, exactly if all are digits
and their number is odd. -/
theorem parse_by_remaining_digits :
    (∀ (bytes : List UInt8) (before mark text after : String),
      (∀ c ∈ before.toList ++ after.toList, c ∈ Text.whiteSpace) → mark ∈ ["", "0x", "0X"] →
      text.toLower = encode bytes → parse (before ++ (mark ++ text) ++ after) = .ok bytes) ∧
    ∀ s : String, (∃! rest, Remains s.toList rest) ∧ ∀ rest, Remains s.toList rest →
      (∀ bytes, parse s = .ok bytes ↔ rest.map Char.toLower = (encode bytes).toList) ∧
      ((∃ bytes, parse s = .ok bytes) ↔ (∀ c ∈ rest, c ∈ digits) ∧ Even rest.length) ∧
      (parse s = .error .notDigit ↔ ∃ c ∈ rest, c ∉ digits) ∧
      (parse s = .error .oddLength ↔ (∀ c ∈ rest, c ∈ digits) ∧ Odd rest.length) := by
  constructor
  · intro bytes before mark text after hblank hmark htext
    have hlower : text.toList.map Char.toLower = (encode bytes).toList := by
      rw [← htext, toList_toLower]
    have hdecode : decode text.toList = .ok bytes := decode_eq_ok_iff.2 hlower
    have hdigits := (exists_decode_iff.1 ⟨bytes, hdecode⟩).1
    have hmark' : mark.toList = [] ∨ mark.toList ∈ marks := by
      simp only [List.mem_cons, List.not_mem_nil, or_false] at hmark
      rcases hmark with rfl | rfl | rfl
      · exact .inl rfl
      · exact .inr (by decide)
      · exact .inr (by decide)
    have hremains := remains_of_digits hblank hmark' hdigits
    rw [← String.toList_append, ← String.toList_append, ← String.toList_append] at hremains
    rw [parse_of_remains hremains, hdecode]
  · intro s
    refine ⟨⟨_, remains_iff.2 rfl, fun rest h => (remains_iff.1 h).symm⟩, fun rest h => ?_⟩
    rw [parse_of_remains h]
    exact ⟨fun bytes => decode_eq_ok_iff, exists_decode_iff, decode_eq_notDigit_iff,
      decode_eq_oddLength_iff⟩

/-- A text in digits of both cases, with a mark and an ideographic space, is read. A second mark is
refused for its letter, and a single digit for its number. -/
theorem parse_by_remaining_digits_mixed :
    (∀ c ∈ "\u3000\n".toList ++ " ".toList, c ∈ Text.whiteSpace) ∧
      "6aF0".toLower = encode [0x6a, 0xf0] ∧
      parse ("\u3000\n" ++ ("0X" ++ "6aF0") ++ " ") = .ok [0x6a, 0xf0] ∧
      Remains "0x0X12".toList ['0', 'X', '1', '2'] ∧ parse "0x0X12" = .error .notDigit ∧
      Remains " 0x6".toList ['6'] ∧ parse " 0x6" = .error .oddLength := by
  have hblank : ∀ c ∈ "\u3000\n".toList ++ " ".toList, c ∈ Text.whiteSpace := by
    have hall : ("\u3000\n".toList ++ " ".toList).all Text.isBlank = true := by decide
    exact fun c hc => Text.isBlank_iff.1 (List.all_eq_true.1 hall c hc)
  have htext : "6aF0".toLower = encode [0x6a, 0xf0] := by
    rw [← String.toList_inj, toList_toLower]
    decide
  have hmarks : Remains "0x0X12".toList ['0', 'X', '1', '2'] := remains_iff.2 (by decide)
  have hsingle : Remains " 0x6".toList ['6'] := remains_iff.2 (by decide)
  obtain ⟨hreads, hremains⟩ := parse_by_remaining_digits
  obtain ⟨-, -, hnotDigit, -⟩ := (hremains "0x0X12").2 _ hmarks
  obtain ⟨-, -, -, hoddLength⟩ := (hremains " 0x6").2 _ hsingle
  exact ⟨hblank, htext, hreads _ _ _ _ _ hblank (by decide) htext, hmarks,
    hnotDigit.2 ⟨'X', by decide, by decide⟩, hsingle,
    hoddLength.2 ⟨List.forall_mem_singleton.2 (by decide), odd_one⟩⟩

end Hex

end StackFlow
