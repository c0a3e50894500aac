import StackFlow.Yaml.Node.Read
import StackFlow.Yaml.Node.Value
import StackFlow.Yaml.Write

/-!
# The value of a document's tree

The tree of a document is read against a type. Values of another type, unknown fields and repeated
keys are collected in the order of the document, and any of them makes the document unfit. A value
that is null leaves its field as it was, and is no item of a list.
-/

namespace StackFlow.Yaml

/-- Reading of a tree, which collects mismatches. -/
abbrev Typing := StateT (List Mismatch) (Except ReadError)

namespace Typing

/-- The surroundings of a node: the nodes that bear a name, and the aliases that led to the node. -/
structure Scope where
  /-- The nodes that bear a name, by number. -/
  named : List (Nat × Node)
  /-- The places of the aliases on the way. -/
  followed : List Nat

/-- Fails. -/
def fail {α : Type} (p : Problem) : Typing α := fun _ => .error (.plain p)

/-- Notes a mismatch. -/
def note (m : Mismatch) : Typing Unit := modify (· ++ [m])

/-- The node that a node stands for; an alias must not lead to itself. -/
def follow (sc : Scope) (n : Node) : Typing (Scope × Node) := do
  match n with
  | .alias start name target =>
    if sc.followed.contains start.index then fail (.selfAnchor name)
    else
      match sc.named.lookup target with
      | some n => return ({ sc with followed := start.index :: sc.followed }, n)
      | none => fail (.unknownAnchor name)
  | _ => return (sc, n)

/-- Notes that a node is not of the wanted type. -/
def mismatch {α : Type} (n : Node) (wanted : String) : Typing (Option α) := do
  let value := if n.tag = "!!seq" || n.tag = "!!map" then none else some n.text
  note (.type n.line n.tag value wanted)
  return none

/-- Notes the keys of a mapping that are given before, and whether there are none. -/
def uniqueKeys : List Node → Typing Bool
  | [] => return true
  | k :: ks => do
    let again := ks.filter fun k' => k.sameKind k' && k.text == k'.text
    again.forM fun k' => note (.repeatedKey k'.line k'.text k.line)
    return (← uniqueKeys ks) && again.isEmpty

/-- What a scalar stands for. -/
def scalarValue (given : Option String) (text : String) (style : ScalarStyle) : Typing Scalar :=
  match Scalar.ofNode given text style with
  | .ok v => return v
  | .error p => fail p

/-- A mapping where none is wanted: its keys are looked at first. -/
def unwantedMapping {α : Type} (n : Node) (entries : List (Node × Node)) (wanted : String) :
    Typing (Option α) := do
  if ← uniqueKeys (entries.map (·.1)) then mismatch n wanted else return none

/-- Reads an integer of 64 bits. A floating point number is cut towards zero. -/
def integer (wanted : String) (sc : Scope) (n : Node) : Typing (Option Int64) := do
  let (_, n) ← follow sc n
  match n with
  | .scalar _ tag text style =>
    match ← scalarValue tag text style with
    | .null => return none
    | .int i => if i < Number.signedBound then return some (Int64.ofInt i) else mismatch n wanted
    | .float x =>
      match x.toInteger? with
      | some i => return some (Int64.ofInt i)
      | none => mismatch n wanted
    | _ => mismatch n wanted
  | .mapping _ _ entries => unwantedMapping n entries wanted
  | _ => mismatch n wanted

/-- Reads a text; any scalar but null gives its source text. -/
def string (wanted : String) (sc : Scope) (n : Node) : Typing (Option String) := do
  let (_, n) ← follow sc n
  match n with
  | .scalar _ tag text style =>
    match ← scalarValue tag text style with
    | .null => return none
    | .text s => return some s
    | _ => return some text
  | .mapping _ _ entries => unwantedMapping n entries wanted
  | _ => mismatch n wanted

/-- Reads a list, without the items that give nothing. Null is the empty list. -/
def list {α : Type} (wanted : String) (item : Scope → Node → Typing (Option α)) (sc : Scope)
    (n : Node) : Typing (Option (List α)) := do
  let (sc, n) ← follow sc n
  match n with
  | .scalar _ tag text style =>
    match ← scalarValue tag text style with
    | .null => return some []
    | _ => mismatch n wanted
  | .mapping _ _ entries => unwantedMapping n entries wanted
  | .sequence _ _ items => return some (← items.filterMapM (item sc))
  | .alias .. => mismatch n wanted

/-- A record: its name in messages, and how the value of a field changes it. -/
structure Record (σ : Type) where
  /-- The name. -/
  name : String
  /-- The fields. -/
  field? : String → Option (Scope → Node → σ → Typing σ)

/-- A mapping under way: what was read so far, the fields that this mapping gave, the fields that
may not be given any more, and the node to be merged. -/
structure Filling (σ : Type) where
  /-- What was read so far. -/
  value : σ
  /-- The fields that this mapping gave. -/
  given : List String
  /-- The fields that a merged mapping does not change, or none outside of merged mappings. -/
  closed : Option (List String)
  /-- The node to be merged. -/
  merge : Option Node

/-- Reads an entry of a mapping. -/
def entry {σ : Type} (r : Record σ) (sc : Scope) (f : Filling σ) (e : Node × Node) :
    Typing (Filling σ) := do
  if e.1.isMerge then return { f with merge := some e.2 }
  else
    match ← string "string" sc e.1 with
    | none => return f
    | some name =>
      if f.closed.any (·.contains name) then return f
      else
        let f := { f with closed := f.closed.map (name :: ·) }
        match r.field? name with
        | none =>
          note (.unknownField e.1.line name r.name)
          return f
        | some change =>
          if f.given.contains name then
            note (.repeatedField e.1.line name r.name)
            return f
          else return { f with value := ← change sc e.2 f.value, given := name :: f.given }

/-- The names among the keys of a mapping. -/
def keyNames (entries : List (Node × Node)) : List String :=
  entries.filterMap fun e =>
    match e.1 with
    | .scalar _ none text style =>
      if style ≠ .plain || Scalar.resolve true text = .text text then some text else none
    | .scalar _ (some _) text _ => some text
    | _ => none

/-- Whether a node is a mapping, or an alias of one. -/
def isMapping (sc : Scope) : Node → Bool
  | .mapping .. => true
  | .alias _ _ target =>
    match sc.named.lookup target with
    | some (.mapping ..) => true
    | _ => false
  | _ => false

mutual

/-- Reads the entries of a mapping, then those of the mappings that it merges, which do not change
what is given already. Returns the fields that are closed now. -/
def fill {σ : Type} (r : Record σ) :
    Nat → Scope → Option (List String) → List (Node × Node) → σ → Typing (σ × Option (List String))
  | 0, _, closed, _, value => return (value, closed)
  | fuel + 1, sc, closed, entries, value => do
    let f ← entries.foldlM (entry r sc) ⟨value, [], closed, none⟩
    match f.merge with
    | none => return (f.value, f.closed)
    | some n =>
      let names := f.closed.getD (keyNames entries)
      let (value, names) ← merge r fuel sc names n f.value
      return (value, f.closed.map fun _ => names)

/-- Merges the mapping, or the list of mappings, that is the value of a merge key. -/
def merge {σ : Type} (r : Record σ) :
    Nat → Scope → List String → Node → σ → Typing (σ × List String)
  | 0, _, names, _, value => return (value, names)
  | fuel + 1, sc, names, n, value => do
    match n with
    | .sequence _ _ items =>
      items.foldlM (fun acc i =>
        if isMapping sc i then mergeOne r fuel sc acc.2 i acc.1 else fail .mergeValue)
        (value, names)
    | _ => if isMapping sc n then mergeOne r fuel sc names n value else fail .mergeValue

/-- Merges one mapping. -/
def mergeOne {σ : Type} (r : Record σ) :
    Nat → Scope → List String → Node → σ → Typing (σ × List String)
  | 0, _, names, _, value => return (value, names)
  | fuel + 1, sc, names, n, value => do
    let (sc, n) ← follow sc n
    match n with
    | .mapping _ _ entries =>
      if ← uniqueKeys (entries.map (·.1)) then
        let (value, closed) ← fill r fuel sc (some names) entries value
        return (value, closed.getD names)
      else return (value, names)
    | _ => fail .mergeValue

end

/-- Reads a record that starts from `init`; `fuel` bounds the depth of merged mappings. -/
def record {σ : Type} (fuel : Nat) (r : Record σ) (init : σ) (sc : Scope) (n : Node) :
    Typing (Option σ) := do
  let (sc, n) ← follow sc n
  match n with
  | .scalar _ tag text style =>
    match ← scalarValue tag text style with
    | .null => return none
    | _ => mismatch n r.name
  | .mapping _ _ entries =>
    if ← uniqueKeys (entries.map (·.1)) then
      return some (← fill r fuel sc none entries init).1
    else return none
  | _ => mismatch n r.name

/-- Sets a field to what is read, if anything is. -/
def setting {σ α : Type} (read : Scope → Node → Typing (Option α)) (set : σ → α → σ) :
    Scope → Node → σ → Typing σ :=
  fun sc n s => do
    match ← read sc n with
    | some a => return set s a
    | none => return s

/-- Reads a value that is written on one line. -/
def inline : {α : Type} → Inline α → Scope → Node → Typing (Option α)
  | _, .integer name => integer name
  | _, .list item => list ("[]" ++ item.name) (inline item)

mutual

/-- Reads a value of a type; `fuel` bounds the depth of merged mappings. -/
def value (fuel : Nat) : {α : Type} → Target α → Scope → Node → Typing (Option α)
  | _, .inline t => inline t
  | _, .text => string "string"
  | _, .list item => list ("[]" ++ item.name) (value fuel item)
  | _, .record name zero fields => record fuel ⟨name, field? fuel fields⟩ zero

/-- How a field of a record is read, by its name. -/
def field? (fuel : Nat) :
    {σ : Type} → Fields σ → String → Option (Scope → Node → σ → Typing σ)
  | _, .nil, _ => none
  | _, .cons tag target _ set rest, name =>
    if name = tag.name then some (setting (value fuel target) set) else field? fuel rest name

end

end Typing

/-- The value of a type where nothing is given. -/
def Inline.zero : {α : Type} → Inline α → α
  | _, .integer _ => 0
  | _, .list _ => []

/-- The value of a type where nothing is given. -/
def Target.zero : {α : Type} → Target α → α
  | _, .inline t => t.zero
  | _, .text => ""
  | _, .list _ => []
  | _, .record _ zero _ => zero

/-- Reads a value from the tree of a document. -/
def Document.value {α : Type} (fuel : Nat) (t : Target α) (d : Document) : Except Fault α :=
  match (Typing.value fuel t ⟨d.named, []⟩ d.root).run [] with
  | .error e => .error (.malformed e)
  | .ok (a, []) => .ok (a.getD t.zero)
  | .ok (_, ms) => .error (.mistyped ms)

/-- Reads a value from the text of a document. -/
def readAs {α : Type} (t : Target α) (text : String) : Except Fault (Option α) :=
  match Document.read text with
  | .error e => .error (.malformed e)
  | .ok none => .ok none
  | .ok (some d) => (d.value ((text.length + 2) * (text.length + 2)) t).map some

/-- The library that writes and reads documents here. -/
def library : Library where
  style := styleOf
  isText s := (Scalar.resolve true s).tag == Scalar.textTag
  write := writeAs
  read := readAs

end StackFlow.Yaml
