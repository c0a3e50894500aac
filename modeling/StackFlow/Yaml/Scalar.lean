import StackFlow.Number.Binary64
import StackFlow.Yaml.Timestamp

/-!
# The meaning of plain scalars

A plain scalar stands for a truth value, nothing, a number or a time if it has the form of one, and
else for its text.
-/

namespace StackFlow.Yaml

open StackFlow.Number

/-- What a scalar stands for. -/
inductive Scalar where
  /-- Nothing. -/
  | null
  /-- A truth value. -/
  | bool (value : Bool)
  /-- An integer of 64 bits, with or without sign. -/
  | int (value : Int)
  /-- A floating point number. -/
  | float (value : Binary64)
  /-- A time. -/
  | timestamp (value : Timestamp)
  /-- Its text. -/
  | text (value : String)
  deriving DecidableEq

namespace Scalar

/-- The tag of texts. -/
def textTag : String := "!!str"

/-- The tag of a kind of scalar. -/
def tag : Scalar → String
  | .null => "!!null"
  | .bool _ => "!!bool"
  | .int _ => "!!int"
  | .float _ => "!!float"
  | .timestamp _ => "!!timestamp"
  | .text _ => textTag

/-- The words that stand for something else than their text. -/
def word? : String → Option Scalar
  | "true" | "True" | "TRUE" => some (.bool true)
  | "false" | "False" | "FALSE" => some (.bool false)
  | "" | "~" | "null" | "Null" | "NULL" => some .null
  | ".nan" | ".NaN" | ".NAN" => some (.float .nan)
  | ".inf" | ".Inf" | ".INF" | "+.inf" | "+.Inf" | "+.INF" => some (.float (.infinite false))
  | "-.inf" | "-.Inf" | "-.INF" => some (.float (.infinite true))
  | _ => none

/-- An integer in a given base behind the sign of the base. -/
def behindBase? (base : Nat) (cs : List Char) : Option Int :=
  match readInteger (some base) cs with
  | .ok i => some i
  | .error _ => (readNatural (some base) cs).toOption.map Int.ofNat

/-- An integer with a sign of the base at its begin that further signs follow. -/
def oddInteger? : List Char → Option Int
  | '0' :: 'b' :: cs => behindBase? 2 cs
  | '0' :: 'o' :: cs => behindBase? 8 cs
  | '-' :: '0' :: 'b' :: cs => (readInteger (some 2) ('-' :: cs)).toOption
  | '-' :: '0' :: 'o' :: cs => (readInteger (some 8) ('-' :: cs)).toOption
  | _ => none

/-- The number that a text without underscores stands for. -/
def number? (cs : List Char) : Option Scalar :=
  match readInteger none cs with
  | .ok i => some (.int i)
  | .error _ =>
    match readNatural none cs with
    | .ok n => some (.int n)
    | .error _ =>
      match Binary64.ofText? cs with
      | some x => some (.float x)
      | none => (oddInteger? cs).map .int

/-- The number that a text which begins with a point stands for. -/
def pointNumber? (cs : List Char) : Option Scalar :=
  if separates false false cs then (Binary64.ofText? (cs.filter (· != '_'))).map .float else none

/-- What a plain text stands for; times are not looked for if the text has a tag of its own. -/
def resolve (times : Bool) (s : String) : Scalar :=
  match word? s with
  | some v => v
  | none =>
    match s.toList with
    | '.' :: cs => (pointNumber? ('.' :: cs)).getD (.text s)
    | c :: cs =>
      if c.isDigit || c == '+' || c == '-' then
        match (if times then Timestamp.ofText? (c :: cs) else none) with
        | some t => .timestamp t
        | none => (number? ((c :: cs).filter (· != '_'))).getD (.text s)
      else .text s
    | [] => .text s

end Scalar

end StackFlow.Yaml
