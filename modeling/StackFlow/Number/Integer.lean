/-!
# Integers in text

An integer is digits with an optional sign. Its base is given, or taken from the text: `0x`, `0o`
and `0b` stand before digits of the bases 16, 8 and 2, and a zero before digits of the base 8. In
the latter form underscores may separate digits. Integers are read into 64 bits.
-/

namespace StackFlow

/-- The decimal text of a word. -/
def decimal (n : Int64) : String := toString n.toInt

/-- The decimal text of a word, with a sign also if it is not negative. -/
def signedDecimal (n : Int64) : String := if n < 0 then decimal n else "+" ++ decimal n

namespace Number

/-- Why a text is not an integer. -/
inductive NumberError where
  /-- The text does not have the form of one. -/
  | form
  /-- It does not fit into 64 bits. -/
  | range
  deriving DecidableEq

/-- The first natural number beyond the signed integers of 64 bits. -/
def signedBound : Nat := 0x8000000000000000

/-- The value of a digit of a base up to 36. -/
def digit? (c : Char) : Option Nat :=
  if c.isDigit then some (c.toNat - '0'.toNat)
  else if 'a' ≤ c ∧ c ≤ 'z' then some (c.toNat - 'a'.toNat + 10)
  else if 'A' ≤ c ∧ c ≤ 'Z' then some (c.toNat - 'A'.toNat + 10)
  else none

/-- The value of digits behind digits of value `n`. The first digit that does not belong to the
base, or that takes the value beyond 64 bits, decides the error. -/
def foldDigits (base : Nat) : Nat → List Char → Except NumberError Nat
  | n, [] => .ok n
  | n, c :: cs =>
    match digit? c with
    | some d =>
      if base ≤ d then .error .form
      else if UInt64.size ≤ base * n + d then .error .range
      else foldDigits base (base * n + d) cs
    | none => .error .form

/-- The base that a text begins with, and the digits behind it. -/
def splitBase : List Char → Nat × List Char
  | '0' :: b :: c :: cs =>
    if b == 'x' || b == 'X' then (16, c :: cs)
    else if b == 'o' || b == 'O' then (8, c :: cs)
    else if b == 'b' || b == 'B' then (2, c :: cs)
    else (8, b :: c :: cs)
  | '0' :: cs => (8, cs)
  | cs => (10, cs)

/-- Whether a text begins with a sign of its base. -/
def hasBaseSign : List Char → Bool
  | '0' :: b :: _ => ['x', 'X', 'o', 'O', 'b', 'B'].contains b
  | _ => false

/-- Whether each underscore stands between digits, given whether a digit stands before. -/
def separates (hex : Bool) : Bool → List Char → Bool
  | _, [] => true
  | digit, '_' :: cs =>
    digit &&
      match cs with
      | [] => false
      | c :: _ => (c.isDigit || (hex && (digit? c).any (· < 16))) && separates hex false cs
  | _, c :: cs => separates hex (c.isDigit || (hex && (digit? c).any (· < 16))) cs

/-- Whether the underscores of a number separate digits; the sign of the base counts as one. -/
def underscoresSeparate (cs : List Char) : Bool :=
  if hasBaseSign cs then separates ((cs.drop 1).head? == some 'x' || (cs.drop 1).head? == some 'X')
    true (cs.drop 2)
  else separates false false cs

/-- Reads a number without a sign, in a given base or in the one that it begins with. -/
def readNatural (base? : Option Nat) (cs : List Char) : Except NumberError Nat :=
  if cs.isEmpty then .error .form
  else
    match base? with
    | some base => foldDigits base 0 cs
    | none =>
      let (base, digits) := splitBase cs
      match foldDigits base 0 (digits.filter (· != '_')) with
      | .error e => .error e
      | .ok n => if underscoresSeparate cs then .ok n else .error .form

/-- Reads a number with an optional sign into 64 bits. -/
def readInteger (base? : Option Nat) (cs : List Char) : Except NumberError Int :=
  let negative := cs.head? == some '-'
  let digits := if negative || cs.head? == some '+' then cs.drop 1 else cs
  match readNatural base? digits with
  | .error e => .error e
  | .ok n =>
    if negative then (if signedBound < n then .error .range else .ok (-(n : Int)))
    else if signedBound ≤ n then .error .range
    else .ok n

end Number

end StackFlow
