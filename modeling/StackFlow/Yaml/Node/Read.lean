import StackFlow.Yaml.Node
import StackFlow.Yaml.Token.Scan

/-!
# Building the tree of a document

Tokens are read from left to right by the rules of blocks and flows. Only the first document of a
text is read, and what follows its tree is not looked at beyond the next token.
-/

namespace StackFlow.Yaml

/-- What is known when the tokens have been read up to some place. -/
structure ReadState where
  /-- The tokens that are left. -/
  tokens : List Token
  /-- The meanings of the handles of tags. -/
  handles : List (String × String)
  /-- The names of nodes, the latest first, with their numbers. -/
  names : List (String × Nat)
  /-- The nodes that bear a name and are complete. -/
  named : List (Nat × Node)

/-- Reading of tokens. -/
abbrev Read := StateT ReadState (Except ReadError)

namespace Read

/-- Fails. -/
def fail {α : Type} (e : ReadError) : Read α := fun _ => .error e

/-- The next token, which is not taken. -/
def peek : Read Token := fun s =>
  match s.tokens with
  | [] => .error (.plain .noContent)
  | t :: _ =>
    match t.lexeme with
    | .fault e => .error e
    | _ => .ok (t, s)

/-- Takes the next token. -/
def skip : Read Unit := fun s => .ok ((), { s with tokens := s.tokens.drop 1 })

/-- Takes the next token and gives the one after it. -/
def next : Read Token := do skip; peek

/-- The node for a place where nothing stands. -/
def emptyNode (m : Mark) : Node := .scalar m none "" .plain

/-- A tag in its short form. -/
def shortTag (t : String) : String :=
  match t.dropPrefix? "tag:yaml.org,2002:" with
  | some rest => "!!" ++ rest.toString
  | none => t

/-- The name and the tag in front of a node. -/
structure Properties where
  /-- Where they begin, or where the node does. -/
  start : Mark
  /-- The name. -/
  anchor : Option String
  /-- The tag. -/
  tag : Option String

/-- The full tag of a handle and a suffix. -/
def fullTag (start here : Mark) (handle suffix : String) : Read String := do
  if handle = "" then return suffix
  else
    match (← get).handles.lookup handle with
    | some meaning =>
      if meaning ++ suffix = "" then fail (.arranging .undefinedHandle start here)
      else return meaning ++ suffix
    | none => fail (.arranging .undefinedHandle start here)

/-- Reads the name and the tag in front of a node, in either order. -/
def properties (t : Token) : Read (Properties × Token) := do
  let start := t.start
  match t.lexeme with
  | .anchor name =>
    let t ← next
    match t.lexeme with
    | .tag handle suffix =>
      let t' ← next
      return (⟨start, some name, some (← fullTag start t.start handle suffix)⟩, t')
    | _ => return (⟨start, some name, none⟩, t)
  | .tag handle suffix =>
    let t' ← next
    match t'.lexeme with
    | .anchor name =>
      let t' ← next
      return (⟨start, some name, some (← fullTag start start handle suffix)⟩, t')
    | _ => return (⟨start, none, some (← fullTag start start handle suffix)⟩, t')
  | _ => return (⟨start, none, none⟩, t)

/-- The tag that a node keeps: in its short form, and none for the mark alone. -/
def Properties.nodeTag (p : Properties) : Option String :=
  match p.tag with
  | some t => if t = "" || t = "!" then none else some (shortTag t)
  | none => none

/-- Gives a number to the name of a node that begins. -/
def declare (name : Option String) : Read (Option Nat) := do
  match name with
  | none => return none
  | some name =>
    let n := (← get).names.length
    modify fun s => { s with names := (name, n) :: s.names }
    return some n

/-- Keeps a complete node under its number. -/
def complete (number : Option Nat) (n : Node) : Read Node := do
  match number with
  | none => return n
  | some k =>
    modify fun s => { s with named := (k, n) :: s.named }
    return n

/-- An alias of a node that has begun. -/
def aliasNode (start : Mark) (name : String) : Read Node := do
  match (← get).names.lookup name with
  | some k => return .alias start name k
  | none => fail (.plain (.unknownAnchor name))

mutual

/-- Reads a node. In a block it may be a block collection, and below a key a sequence that is not
indented. -/
def node : Nat → Bool → Bool → Read Node
  | 0, _, _ => fail (.plain .noContent)
  | fuel + 1, block, indentless => do
    let t ← peek
    match t.lexeme with
    | .alias name =>
      let n ← aliasNode t.start name
      skip
      return n
    | _ =>
      let (p, t) ← properties t
      match t.lexeme, block, indentless with
      | .blockEntry, _, true =>
        let k ← declare p.anchor
        complete k (.sequence p.start p.nodeTag (← indentlessItems fuel []))
      | .scalar text style, _, _ =>
        let k ← declare p.anchor
        skip
        complete k (.scalar p.start p.nodeTag text style)
      | .flowSequenceStart, _, _ =>
        let k ← declare p.anchor
        skip
        complete k (.sequence p.start p.nodeTag (← flowItems fuel t.start true []))
      | .flowMappingStart, _, _ =>
        let k ← declare p.anchor
        skip
        complete k (.mapping p.start p.nodeTag (← flowEntries fuel t.start true []))
      | .blockSequenceStart, true, _ =>
        let k ← declare p.anchor
        skip
        complete k (.sequence p.start p.nodeTag (← blockItems fuel t.start []))
      | .blockMappingStart, true, _ =>
        let k ← declare p.anchor
        skip
        complete k (.mapping p.start p.nodeTag (← blockEntries fuel t.start []))
      | _, _, _ =>
        if p.anchor.isSome || p.tag.isSome then
          let k ← declare p.anchor
          complete k (.scalar p.start p.nodeTag "" .plain)
        else fail (.arranging .noContent p.start t.start)

/-- Reads the items of a block sequence that began at `start`. -/
def blockItems : Nat → Mark → List Node → Read (List Node)
  | 0, _, _ => fail (.plain .noContent)
  | fuel + 1, start, items => do
    let t ← peek
    match t.lexeme with
    | .blockEntry =>
      let next ← next
      match next.lexeme with
      | .blockEntry | .blockEnd => blockItems fuel start (items ++ [emptyNode t.start])
      | _ =>
        let n ← node fuel true false
        blockItems fuel start (items ++ [n])
    | .blockEnd =>
      skip
      return items
    | _ => fail (.arranging .noEntry start t.start)

/-- Reads the items of a sequence that is not indented. -/
def indentlessItems : Nat → List Node → Read (List Node)
  | 0, _ => fail (.plain .noContent)
  | fuel + 1, items => do
    let t ← peek
    match t.lexeme with
    | .blockEntry =>
      let next ← next
      match next.lexeme with
      | .blockEntry | .key | .value | .blockEnd =>
        indentlessItems fuel (items ++ [emptyNode t.start])
      | _ =>
        let n ← node fuel true false
        indentlessItems fuel (items ++ [n])
    | _ => return items

/-- Reads the value behind a key of a block mapping. -/
def blockValue : Nat → Read Node
  | 0 => fail (.plain .noContent)
  | fuel + 1 => do
    let t ← peek
    match t.lexeme with
    | .value =>
      let next ← next
      match next.lexeme with
      | .key | .value | .blockEnd => return emptyNode t.start
      | _ => node fuel true true
    | _ => return emptyNode t.start

/-- Reads the entries of a block mapping that began at `start`. -/
def blockEntries : Nat → Mark → List (Node × Node) → Read (List (Node × Node))
  | 0, _, _ => fail (.plain .noContent)
  | fuel + 1, start, entries => do
    let t ← peek
    match t.lexeme with
    | .key =>
      let next ← next
      let key ← match next.lexeme with
        | .key | .value | .blockEnd => pure (emptyNode t.start)
        | _ => node fuel true true
      let value ← blockValue fuel
      blockEntries fuel start (entries ++ [(key, value)])
    | .blockEnd =>
      skip
      return entries
    | _ => fail (.arranging .noKey start t.start)

/-- Reads the key and the value of a mapping of one entry inside a flow sequence. -/
def flowPair : Nat → Mark → Read Node
  | 0, _ => fail (.plain .noContent)
  | fuel + 1, start => do
    let t ← peek
    let key ← match t.lexeme with
      | .value | .flowEntry | .flowSequenceEnd => do skip; pure (emptyNode t.start)
      | _ => node fuel false false
    let t ← peek
    let value ← match t.lexeme with
      | .value => do
        let t ← next
        match t.lexeme with
        | .flowEntry | .flowSequenceEnd => pure (emptyNode t.start)
        | _ => node fuel false false
      | _ => pure (emptyNode t.start)
    return .mapping start none [(key, value)]

/-- Reads the items of a flow sequence that began at `start`. -/
def flowItems : Nat → Mark → Bool → List Node → Read (List Node)
  | 0, _, _, _ => fail (.plain .noContent)
  | fuel + 1, start, first, items => do
    let t ← peek
    match t.lexeme with
    | .flowSequenceEnd =>
      skip
      return items
    | _ =>
      let t ← match t.lexeme, first with
        | _, true => pure t
        | .flowEntry, false => next
        | _, false => fail (.arranging .noFlowSequenceEnd start t.start)
      match t.lexeme with
      | .key =>
        skip
        let n ← flowPair fuel t.start
        flowItems fuel start false (items ++ [n])
      | .flowSequenceEnd =>
        skip
        return items
      | _ =>
        let n ← node fuel false false
        flowItems fuel start false (items ++ [n])

/-- Reads the value behind a key of a flow mapping. -/
def flowValue : Nat → Read Node
  | 0 => fail (.plain .noContent)
  | fuel + 1 => do
    let t ← peek
    match t.lexeme with
    | .value =>
      let t ← next
      match t.lexeme with
      | .flowEntry | .flowMappingEnd => return emptyNode t.start
      | _ => node fuel false false
    | _ => return emptyNode t.start

/-- Reads the entries of a flow mapping that began at `start`. -/
def flowEntries : Nat → Mark → Bool → List (Node × Node) → Read (List (Node × Node))
  | 0, _, _, _ => fail (.plain .noContent)
  | fuel + 1, start, first, entries => do
    let t ← peek
    match t.lexeme with
    | .flowMappingEnd =>
      skip
      return entries
    | _ =>
      let t ← match t.lexeme, first with
        | _, true => pure t
        | .flowEntry, false => next
        | _, false => fail (.arranging .noFlowMappingEnd start t.start)
      match t.lexeme with
      | .key =>
        let t ← next
        let key ← match t.lexeme with
          | .value | .flowEntry | .flowMappingEnd => pure (emptyNode t.start)
          | _ => node fuel false false
        let value ← flowValue fuel
        flowEntries fuel start false (entries ++ [(key, value)])
      | .flowMappingEnd =>
        skip
        return entries
      | _ =>
        let key ← node fuel false false
        let t ← peek
        flowEntries fuel start false (entries ++ [(key, emptyNode t.start)])

end

/-- The handles that every document has. -/
def defaultHandles : List (String × String) := [("!", "!"), ("!!", "tag:yaml.org,2002:")]

/-- Reads the directives of a document; each takes some of `fuel`. -/
def directives : Nat → Bool → List (String × String) → Read Unit
  | 0, _, _ => fail (.plain .noContent)
  | fuel + 1, version, handles => do
    let t ← peek
    match t.lexeme with
    | .version major minor =>
      if version then fail (.arranging .duplicateVersion t.start t.start)
      else if major ≠ 1 || minor ≠ 1 then fail (.arranging .otherVersion t.start t.start)
      else
        skip
        directives fuel true handles
    | .tagDirective handle meaning =>
      if (handles.lookup handle).isSome then
        fail (.arranging .duplicateTagDirective t.start t.start)
      else
        skip
        directives fuel version (handles ++ [(handle, meaning)])
    | _ => modify fun s => { s with handles := handles ++ defaultHandles }

/-- Reads the tree behind the mark that begins a document. -/
def content (fuel : Nat) : Read Node := do
  let t ← peek
  match t.lexeme with
  | .version .. | .tagDirective .. | .documentStart | .documentEnd | .streamEnd =>
    return emptyNode t.start
  | _ => node fuel true false

/-- Reads the first document, or nothing if there is none. -/
def document (fuel : Nat) : Read (Option Node) := do
  let _ ← peek
  let t ← next
  match t.lexeme with
  | .streamEnd => return none
  | .version .. | .tagDirective .. | .documentStart =>
    directives fuel false []
    let t ← peek
    match t.lexeme with
    | .documentStart =>
      skip
      let n ← content fuel
      let _ ← peek
      return some n
    | _ => fail (.arranging .noDocumentStart t.start t.start)
  | _ =>
    modify fun s => { s with handles := defaultHandles }
    let n ← node fuel true false
    let _ ← peek
    return some n

end Read

/-- Reads the first document of a text, or nothing if there is none. -/
def Document.read (text : String) : Except ReadError (Option Document) := do
  let ts := tokens text
  let (root, s) ← (Read.document (4 * ts.length + 8)).run ⟨ts, [], [], []⟩
  return root.map fun n => ⟨n, s.named⟩

end StackFlow.Yaml
