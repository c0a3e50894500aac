import StackFlow.Text

/-!
# Bytes as hexadecimal text

Two digits a byte, of either case. A text may be surrounded by white space and begin with `0x`.
-/

namespace StackFlow.Hex

/-- Why a text is not a sequence of bytes. -/
inductive Error where
  /-- A character is not a hexadecimal digit. -/
  | notDigit
  /-- The last byte lacks a digit. -/
  | oddLength
  deriving DecidableEq

/-- The text of the error. -/
def Error.message : Error → String
  | .notDigit => "evm: invalid bytecode hex: invalid hex string"
  | .oddLength => "evm: invalid bytecode hex: hex string of odd length"

/-- The value of a hexadecimal digit. -/
def digit? (c : Char) : Option Nat :=
  if '0' ≤ c ∧ c ≤ '9' then some (c.toNat - '0'.toNat)
  else if 'a' ≤ c ∧ c ≤ 'f' then some (c.toNat - 'a'.toNat + 10)
  else if 'A' ≤ c ∧ c ≤ 'F' then some (c.toNat - 'A'.toNat + 10)
  else none

/-- The bytes of a sequence of digits. A character that is no digit is reported before a missing
one. -/
def decode : List Char → Except Error (List UInt8)
  | [] => .ok []
  | [c] => if (digit? c).isSome then .error .oddLength else .error .notDigit
  | c :: d :: rest =>
    match digit? c, digit? d with
    | some hi, some lo => do return UInt8.ofNat (16 * hi + lo) :: (← decode rest)
    | _, _ => .error .notDigit

/-- The text without a leading `0x` or `0X`. -/
def dropMark : List Char → List Char
  | '0' :: 'x' :: rest => rest
  | '0' :: 'X' :: rest => rest
  | s => s

/-- The bytes of a text. -/
def parse (s : String) : Except Error (List UInt8) := decode (dropMark (Text.trim s.toList))

/-- The lower-case digit of a value below sixteen. -/
def digit (n : Nat) : Char :=
  if n < 10 then Char.ofNat ('0'.toNat + n) else Char.ofNat ('a'.toNat + (n - 10))

/-- Bytes as text, two lower-case digits each. -/
def encode (bytes : List UInt8) : String :=
  String.ofList (bytes.flatMap (fun b => [digit (b.toNat / 16), digit (b.toNat % 16)]))

/-- A number in lower-case digits, without leading zeros. -/
def ofNat (n : Nat) : String := String.ofList (Nat.toDigits 16 n)

end StackFlow.Hex
