import StackFlow.Number.Integer

/-!
# Binary floating point numbers

The numbers of 64 bits, by sign, significand and exponent of two. A decimal is rounded to the
nearest of them, a half to the even significand. The text of a number has the fewest digits that
are rounded to it, the nearest such decimal if there are two.
-/

namespace StackFlow.Number

/-- A floating point number of 64 bits. -/
inductive Binary64 where
  /-- Not a number. -/
  | nan
  /-- An infinity. -/
  | infinite (negative : Bool)
  /-- The number `significand * 2 ^ exponent`, with its sign. -/
  | finite (negative : Bool) (significand : Nat) (exponent : Int)
  deriving DecidableEq

/-- A positive fraction. -/
structure Fraction where
  /-- The numerator. -/
  num : Nat
  /-- The denominator. -/
  den : Nat

namespace Fraction

/-- The fraction `n * b ^ e`. -/
def scaled (n b : Nat) (e : Int) : Fraction :=
  if 0 ≤ e then ⟨n * Nat.pow b e.toNat, 1⟩ else ⟨n, Nat.pow b (-e).toNat⟩

/-- The fraction divided by `b ^ e`. -/
def quotient (f : Fraction) (b : Nat) (e : Int) : Fraction :=
  if 0 ≤ e then ⟨f.num, f.den * Nat.pow b e.toNat⟩
  else ⟨f.num * Nat.pow b (-e).toNat, f.den⟩

/-- The greatest integer that is not above the fraction. -/
def floor (f : Fraction) : Nat := f.num / f.den

/-- The nearest integer, of two the even one. -/
def round (f : Fraction) : Nat :=
  let q := f.num / f.den
  let r := f.num % f.den
  if 2 * r < f.den then q
  else if f.den < 2 * r then q + 1
  else q + q % 2

end Fraction

namespace Binary64

/-- The least significand of 53 bits. -/
def leastNormal : Nat := 0x10000000000000

/-- The exponent of two for which a positive fraction has a significand of 53 bits, or the least
exponent. -/
def unitOf (f : Fraction) : Int :=
  let guess : Int := f.num.log2 - f.den.log2 - 52
  let unit := if (f.quotient 2 guess).floor < leastNormal then guess - 1 else guess
  max unit (-1074)

/-- The number nearest to a fraction, or none if that is beyond the greatest number. -/
def ofFraction? (negative : Bool) (f : Fraction) : Option Binary64 :=
  if f.num = 0 then some (.finite negative 0 0)
  else
    let unit := unitOf f
    let m := (f.quotient 2 unit).round
    let (m, unit) := if m = 2 * leastNormal then (leastNormal, unit + 1) else (m, unit)
    if 971 < unit then none else some (.finite negative m unit)

/-- The number of decimal digits of a natural number, at least one. -/
def digitCount (n : Nat) : Nat := (Nat.toDigits 10 n).length

/-- The number nearest to `digits * 10 ^ exponent`, or none if that is beyond the greatest number.
-/
def ofDecimal? (negative : Bool) (digits : Nat) (exponent : Int) : Option Binary64 :=
  let places := exponent + digitCount digits
  if digits = 0 || places < -400 then some (.finite negative 0 0)
  else if 400 < places then none
  else ofFraction? negative (.scaled digits 10 exponent)

/-- The integer between zero and the number that is nearest to the number, if the number is not
above `signedBound`; beyond the range of 64 bits it is the least integer of 64 bits. -/
def toInteger? : Binary64 → Option Int
  | .nan => none
  | .infinite negative => if negative then some (-signedBound) else none
  | .finite negative m e =>
    let n : Nat := (Fraction.scaled m 2 e).floor
    if negative then some (if n ≤ signedBound then -(n : Int) else -signedBound)
    else if n < signedBound then some n
    else if Binary64.finite false m e = .finite false leastNormal 11 then some (-signedBound)
    else none

/-! ## Text -/

/-- A decimal: digits and the exponent of ten of the last one. -/
structure Decimal where
  /-- The digits. -/
  digits : Nat
  /-- The exponent of ten. -/
  exponent : Int

/-- The number of places before the point of a positive fraction; it is negative where zeros follow
the point. Numbers of 64 bits have between -330 and 330 of them. -/
def placesOf (f : Fraction) : Int :=
  match (List.range 660).find? fun (k : Nat) => (f.quotient 10 ((k : Int) - 330)).floor = 0 with
  | some k => (k : Int) - 330
  | none => 330

/-- The decimal of some digits that is nearest to a positive fraction among those that are rounded
to the number `x`. -/
def decimal? (x : Binary64) (f : Fraction) (count : Nat) : Option Decimal :=
  let exponent := placesOf f - count
  let g := f.quotient 10 exponent
  let low := g.floor
  let nearest := if 2 * (g.num % g.den) ≤ g.den then [low, low + 1] else [low + 1, low]
  let readsBack d := ofFraction? false (.scaled d 10 exponent) = some x
  (nearest.find? readsBack).map fun d =>
    if d = Nat.pow 10 count then ⟨1, exponent + count⟩ else ⟨d, exponent⟩

/-- The decimal with the fewest digits that is rounded to a positive number. -/
def shortest (m : Nat) (e : Int) : Decimal :=
  let tries := (List.range 17).map (· + 1)
  (tries.findSome? (decimal? (.finite false m e) (.scaled m 2 e))).getD ⟨m, 0⟩

/-- The text of an exponent of ten: its sign and at least two digits. -/
def exponentText (e : Int) : String :=
  let digits := String.ofList (Nat.toDigits 10 e.natAbs)
  (if e < 0 then "e-" else "e+") ++ (if e.natAbs < 10 then "0" else "") ++ digits

/-- Zeros. -/
def zeros (n : Nat) : List Char := List.replicate n '0'

/-- The text of a decimal: positional for exponents of the first digit from -4 to 5, else with an
exponent. -/
def Decimal.text (d : Decimal) : String :=
  let ds := Nat.toDigits 10 d.digits
  let lead : Int := d.exponent + ds.length - 1
  let point (whole part : List Char) : String :=
    String.ofList (if part.isEmpty then whole else whole ++ '.' :: part)
  if lead < -4 || 6 ≤ lead then point (ds.take 1) (ds.drop 1) ++ exponentText lead
  else if 0 ≤ d.exponent then String.ofList (ds ++ zeros d.exponent.toNat)
  else if 0 ≤ lead then point (ds.take (lead.toNat + 1)) (ds.drop (lead.toNat + 1))
  else point ['0'] (zeros (-lead - 1).toNat ++ ds)

/-- The text of a number. -/
def text : Binary64 → String
  | .nan => "NaN"
  | .infinite negative => if negative then "-Inf" else "+Inf"
  | .finite negative m e =>
    (if negative then "-" else "") ++ (if m = 0 then "0" else (shortest m e).text)

/-! ## Reading -/

/-- The parts of a decimal in text: its sign, its digits, and its exponent of ten. -/
structure DecimalText where
  /-- Whether a minus sign stands before it. -/
  negative : Bool
  /-- The digits without the point. -/
  digits : List Char
  /-- The exponent of ten of the last digit. -/
  exponent : Int

/-- The value of decimal digits. -/
def natOfDigits (ds : List Char) : Nat := ds.foldl (fun n d => 10 * n + (d.toNat - '0'.toNat)) 0

/-- The exponent that ends a decimal: nothing, or a mark, an optional sign and digits. -/
def exponent? : List Char → Option Int
  | [] => some 0
  | c :: cs =>
    if c == 'e' || c == 'E' then
      let negative := cs.head? == some '-'
      let ds := if negative || cs.head? == some '+' then cs.drop 1 else cs
      if ds.isEmpty || !ds.all Char.isDigit then none
      else some (if negative then -(natOfDigits ds : Int) else natOfDigits ds)
    else none

/-- Splits a text of the form of a decimal: an optional sign, digits, perhaps with a point among
them or around them, and an optional exponent. -/
def splitDecimal? (cs : List Char) : Option DecimalText := do
  let negative := cs.head? == some '-'
  let cs := if negative || cs.head? == some '+' then cs.drop 1 else cs
  let whole := cs.takeWhile Char.isDigit
  let rest := cs.dropWhile Char.isDigit
  let (part, rest) := match rest with
    | '.' :: rest => (rest.takeWhile Char.isDigit, rest.dropWhile Char.isDigit)
    | _ => ([], rest)
  if whole.isEmpty && part.isEmpty then none
  else
    let e ← exponent? rest
    return ⟨negative, whole ++ part, e - part.length⟩

/-- The number nearest to a decimal in text, or none for another text or a decimal that is beyond
the greatest number. -/
def ofText? (cs : List Char) : Option Binary64 := do
  let d ← splitDecimal? cs
  ofDecimal? d.negative (natOfDigits d.digits) d.exponent

end Binary64

end StackFlow.Number
