import StackFlow.CommandLine.Flag
import StackFlow.Yaml.Node.Read
import StackFlow.Yaml.Node.Value

/-!
# Configuration

A flag that is not given takes its value from the environment, and else from a configuration file: a
mapping from names of flags, in any case, to values. Values are taken by their text.
-/

namespace StackFlow.CommandLine

open StackFlow.Yaml

/-- A number of at least two digits. -/
def twoDigits (n : Nat) : String := (if n < 10 then "0" else "") ++ toString n

/-- A distance from universal time as text. -/
def zoneText (minutes : Int) : String :=
  (if minutes < 0 then "-" else "+") ++ twoDigits (minutes.natAbs / 60) ++
    twoDigits (minutes.natAbs % 60)

/-- A part of a second as text: up to nine digits, without zeros at the end. -/
def partText (digits : List Char) : String :=
  let kept := ((digits.take 9).reverse.dropWhile (· == '0')).reverse
  if kept.isEmpty then "" else "." ++ String.ofList kept

/-- A time as text. -/
def timeText (t : Timestamp) : String :=
  let year := String.ofList (List.replicate (4 - (toString t.year).length) '0') ++ toString t.year
  let zone := if t.zone = 0 then "+0000 UTC" else s!"{zoneText t.zone} {zoneText t.zone}"
  s!"{year}-{twoDigits t.month}-{twoDigits t.day} {twoDigits t.hour}:{twoDigits t.minute}:" ++
    s!"{twoDigits t.second}{partText t.part} {zone}"

/-- The text of a value, or nothing for null. -/
def valueText? : Scalar → Option String
  | .null => none
  | .bool b => some (if b then "true" else "false")
  | .int i => some (toString i)
  | .float x => some x.text
  | .timestamp t => some (timeText t)
  | .text s => some s

/-- The text of a node, or nothing for null; `fuel` bounds its depth. -/
def nodeText? (named : List (Nat × Node)) : Nat → Node → Except Problem (Option String)
  | 0, _ => .ok none
  | _ + 1, .scalar _ tag text style => do return valueText? (← Scalar.ofNode tag text style)
  | fuel + 1, .sequence _ _ items => do
    let texts ← items.mapM fun n => do return (← nodeText? named fuel n).getD "<nil>"
    return some ("[" ++ " ".intercalate texts ++ "]")
  | fuel + 1, .mapping _ _ entries => do
    let texts ← entries.mapM fun e => do
      return (e.1.text.toLower, (← nodeText? named fuel e.2).getD "<nil>")
    let sorted := texts.mergeSort fun a b => a.1 ≤ b.1
    return some ("map[" ++ " ".intercalate (sorted.map fun e => s!"{e.1}:{e.2}") ++ "]")
  | fuel + 1, .alias _ name target =>
    match named.lookup target with
    | some n => nodeText? named fuel n
    | none => .error (.unknownAnchor name)

/-- The values of a configuration file by the names of flags in lower case. -/
abbrev Configuration := List (String × String)

namespace Configuration

/-- The values in the tree of a document; `fuel` bounds its depth. A document that is no mapping has
none. -/
def ofDocument (fuel : Nat) (d : Document) : Except Problem Configuration :=
  match d.root with
  | .mapping _ _ entries =>
    entries.filterMapM fun e => do
      return (← nodeText? d.named fuel e.2).map fun s => (e.1.text.toLower, s)
  | _ => .ok []

/-- Reads a configuration file. -/
def read (text : String) : Except ReadError Configuration :=
  match Document.read text with
  | .error e => .error e
  | .ok none => .ok []
  | .ok (some d) => (ofDocument (text.length + 2) d).mapError ReadError.plain

/-- The value of a flag, unless it is empty. -/
def value? (c : Configuration) (f : Flag) : Option String :=
  (c.lookup f.name).filter (· ≠ "")

end Configuration

/-- The environment variable for a flag. -/
def variableOf (f : Flag) : String :=
  "CFGPATH_" ++ String.ofList (f.name.toList.map fun c => if c == '-' then '_' else c.toUpper)

end StackFlow.CommandLine
