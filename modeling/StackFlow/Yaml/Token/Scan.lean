import StackFlow.Yaml.Token.Tag

/-!
# Splitting a document into tokens

The text is read from left to right. What makes it more than a list of words is that a mapping key
is known for a key only by the colon behind it. So each place where a key could begin is remembered,
and the colon puts the mark of a key, and if need be the start of its mapping, in front of what was
read since. A key has to end on its line, within 1024 characters.
-/

namespace StackFlow.Yaml

/-- A token that a colon could make a key. -/
structure PossibleKey where
  /-- The number of tokens before it. -/
  token : Nat
  /-- Whether it must turn out to be a key. -/
  required : Bool
  /-- Where it begins. -/
  mark : Mark

/-- What is known when a document has been read up to some place. -/
structure Scanner where
  /-- The text that is left. -/
  cursor : Cursor
  /-- The tokens so far. -/
  tokens : List Token
  /-- The columns of the block collections around this place, innermost first. -/
  blocks : List Nat
  /-- For the block context and for each flow collection around this place, innermost first, the
  token that could be a key. -/
  keys : List (Option PossibleKey)
  /-- Whether a key may begin at this place. -/
  keyAllowed : Bool

namespace Scanner

/-- The scanner at the begin of a text. -/
def init (text : List Char) : Scanner where
  cursor := ⟨text, ⟨0, 0, 0⟩⟩
  tokens := [⟨⟨0, 0, 0⟩, .streamStart⟩]
  blocks := []
  keys := [none]
  keyAllowed := true

/-- Whether the scanner is inside a flow collection. -/
def inFlow (s : Scanner) : Bool := 1 < s.keys.length

/-- The column of the innermost block collection, or minus one. -/
def indent (s : Scanner) : Int := (s.blocks.head?.map Int.ofNat).getD (-1)

/-- The place reached. -/
def mark (s : Scanner) : Mark := s.cursor.mark

/-- One more token, which begins at `start`. -/
def push (s : Scanner) (start : Mark) (lexeme : Lexeme) : Scanner :=
  { s with tokens := s.tokens ++ [⟨start, lexeme⟩] }

/-- One more token for the next characters. -/
def take (s : Scanner) (n : Nat) (lexeme : Lexeme) : Scanner :=
  { s.push s.mark lexeme with cursor := s.cursor.forward n }

/-- A token in front of those from a number on. -/
def insert (s : Scanner) (number : Nat) (start : Mark) (lexeme : Lexeme) : Scanner :=
  { s with tokens := s.tokens.insertIdx number ⟨start, lexeme⟩ }

/-- Allows or forbids a key at the place reached. -/
def allowKey (s : Scanner) (allowed : Bool) : Scanner := { s with keyAllowed := allowed }

/-! ## Indentation -/

/-- Ends the block collections that are indented deeper than a column. -/
def closeBlocks (s : Scanner) (column : Int) : Scanner :=
  if s.inFlow then s
  else
    let closed := s.blocks.takeWhile fun (b : Nat) => column < b
    { s with
      tokens := s.tokens ++ closed.map fun _ => ⟨s.mark, .blockEnd⟩
      blocks := s.blocks.dropWhile fun (b : Nat) => column < b }

/-- Starts a block collection in front of a token if its column is deeper than the present one. -/
def openBlock (s : Scanner) (number : Nat) (start : Mark) (lexeme : Lexeme) :
    Except ReadError Scanner :=
  if s.inFlow || start.column ≤ s.indent then .ok s
  else if 10000 ≤ s.blocks.length then .error (.scanning .tooDeepBlock start s.mark)
  else .ok { s.insert number start lexeme with blocks := start.column :: s.blocks }

/-! ## Possible keys -/

/-- Replaces the possible key of the innermost context. -/
def setKey (s : Scanner) (k : Option PossibleKey) : Scanner := { s with keys := k :: s.keys.drop 1 }

/-- Gives up the possible key of the innermost context. -/
def dropKey (s : Scanner) : Except ReadError Scanner :=
  match s.keys.head?.join with
  | some k =>
    if k.required then .error (.scanning .missingColon k.mark s.mark) else .ok (s.setKey none)
  | none => .ok s

/-- Remembers that the next token could be a key. -/
def saveKey (s : Scanner) : Except ReadError Scanner :=
  if s.keyAllowed then do
    let required := !s.inFlow && s.indent == s.mark.column
    return (← s.dropKey).setKey (some ⟨s.tokens.length, required, s.mark⟩)
  else .ok s

/-- Whether a possible key begins too far back to be one. -/
def isStale (s : Scanner) (k : PossibleKey) : Bool :=
  k.mark.line < s.mark.line || k.mark.index + 1024 < s.mark.index

/-- The possible key of the innermost context, if it can still be one. -/
def validKey (s : Scanner) : Except ReadError (Option PossibleKey) :=
  match s.keys.head?.join with
  | some k =>
    if !s.isStale k then .ok (some k)
    else if k.required then .error (.scanning .missingColon k.mark s.mark)
    else .ok none
  | none => .ok none

/-! ## White space -/

/-- The end of the last of the comments that follow a comment, over lines that hold nothing else. -/
def skipMoreComments : Nat → Cursor → Cursor → Cursor
  | 0, last, _ => last
  | fuel + 1, last, c =>
    let c := c.skipWhile isBlank
    match c.rest with
    | [] => last
    | '#' :: _ =>
      let c := c.skipWhile fun d => !isBreak d
      skipMoreComments fuel c c
    | d :: _ => if isBreak d then skipMoreComments fuel last c.skipBreak else last

/-- Skips white space, comments and line breaks up to the next token. A tab does not count as white
space where a key could begin by its indentation. -/
def skipSpace : Nat → Scanner → Scanner
  | 0, s => s
  | fuel + 1, s =>
    let tabs := s.inFlow || !s.keyAllowed
    let c := s.cursor.skipWhile fun d => d == ' ' || (tabs && d == '\t')
    let c := match c.rest with
      | '#' :: _ =>
        let c := c.skipWhile fun d => !isBreak d
        skipMoreComments c.rest.length c c
      | _ => c
    match c.rest with
    | [] => { s with cursor := c }
    | d :: _ =>
      if isBreak d then
        skipSpace fuel { s with cursor := c.skipBreak, keyAllowed := s.keyAllowed || !s.inFlow }
      else { s with cursor := c }

/-- Skips a comment on the line of the last token. -/
def skipLineComment (s : Scanner) : Scanner :=
  match (s.cursor.skipWhile isBlank).rest with
  | '#' :: _ => { s with cursor := s.cursor.skipComment }
  | _ => s

/-! ## Tokens -/

/-- The end of the stream. -/
def fetchEnd (s : Scanner) : Except ReadError Scanner := do
  let c := s.cursor
  let s := if c.mark.column = 0 then s else { s with cursor := ⟨c.rest, c.mark.nextLine 0⟩ }
  let s ← (s.closeBlocks (-1)).dropKey
  return s.push s.mark .streamEnd

/-- A directive. -/
def fetchDirective (s : Scanner) : Except ReadError Scanner := do
  let s ← (s.closeBlocks (-1)).dropKey
  let (lexeme, c) ← readDirective s.cursor
  return { (s.push s.mark lexeme).allowKey false with cursor := c }

/-- A mark that begins or ends a document. -/
def fetchDocumentMark (s : Scanner) (lexeme : Lexeme) : Except ReadError Scanner := do
  let s ← (s.closeBlocks (-1)).dropKey
  return (s.take 3 lexeme).allowKey false

/-- The start of a flow collection. -/
def fetchFlowStart (s : Scanner) (lexeme : Lexeme) : Except ReadError Scanner := do
  let s ← s.saveKey
  if 10000 < s.keys.length then .error (.scanning .tooDeepFlow s.mark s.mark)
  else return ({ s with keys := none :: s.keys }.take 1 lexeme).allowKey true

/-- The end of a flow collection. -/
def fetchFlowEnd (s : Scanner) (lexeme : Lexeme) : Except ReadError Scanner := do
  let s ← s.dropKey
  let keys := if s.inFlow then s.keys.drop 1 else s.keys
  return ({ s with keys := keys }.take 1 lexeme).allowKey false

/-- A comma between the entries of a flow collection. -/
def fetchFlowEntry (s : Scanner) : Except ReadError Scanner := do
  return ((← s.dropKey).take 1 .flowEntry).allowKey true

/-- The mark of an entry of a block sequence. -/
def fetchBlockEntry (s : Scanner) : Except ReadError Scanner := do
  if !s.inFlow && !s.keyAllowed then .error (.scanning .entryNotAllowed s.mark s.mark)
  else
    let s ← s.openBlock s.tokens.length s.mark .blockSequenceStart
    return ((← s.dropKey).take 1 .blockEntry).allowKey true

/-- The mark of a key. -/
def fetchKey (s : Scanner) : Except ReadError Scanner := do
  if !s.inFlow && !s.keyAllowed then .error (.scanning .keyNotAllowed s.mark s.mark)
  else
    let s ← s.openBlock s.tokens.length s.mark .blockMappingStart
    return ((← s.dropKey).take 1 .key).allowKey (!s.inFlow)

/-- The mark of a value, which makes the possible key one. -/
def fetchValue (s : Scanner) : Except ReadError Scanner := do
  match ← s.validKey with
  | some k =>
    let s := s.insert k.token k.mark .key
    let s ← s.openBlock k.token k.mark .blockMappingStart
    return ((s.setKey none).take 1 .value).allowKey false
  | none =>
    if !s.inFlow && !s.keyAllowed then .error (.scanning .valueNotAllowed s.mark s.mark)
    else
      let s ← s.openBlock s.tokens.length s.mark .blockMappingStart
      return ((s.setKey none).take 1 .value).allowKey (!s.inFlow)

/-- An anchor or alias. -/
def fetchName (s : Scanner) (lexeme : String → Lexeme) : Except ReadError Scanner := do
  let s ← s.saveKey
  let (name, c) ← readName s.cursor
  return { (s.push s.mark (lexeme name)).allowKey false with cursor := c }

/-- A tag. -/
def fetchTag (s : Scanner) : Except ReadError Scanner := do
  let s ← s.saveKey
  let (handle, suffix, c) ← readTag s.cursor
  return { (s.push s.mark (.tag handle suffix)).allowKey false with cursor := c }

/-- A block scalar. -/
def fetchBlockScalar (s : Scanner) (literal : Bool) : Except ReadError Scanner := do
  let s ← s.dropKey
  let (text, c) ← readBlock literal s.indent s.mark (s.cursor.forward 1)
  let style := if literal then .literal else .folded
  return { (s.push s.mark (.scalar (String.ofList text) style)).allowKey true with cursor := c }

/-- A quoted scalar. -/
def fetchQuoted (s : Scanner) (double : Bool) : Except ReadError Scanner := do
  let s ← s.saveKey
  let (text, c) ← readQuoted double s.mark [] .none (s.cursor.forward 1)
  let style := if double then .doubleQuoted else .singleQuoted
  return { (s.push s.mark (.scalar (String.ofList text) style)).allowKey false with cursor := c }

/-- A plain scalar. -/
def fetchPlain (s : Scanner) : Except ReadError Scanner := do
  let s ← s.saveKey
  let p ← readPlain s.inFlow (s.indent + 1) s.mark [] .none s.cursor
  let s := s.push s.mark (.scalar (String.ofList p.text) .plain)
  return { s.allowKey p.broken with cursor := p.cursor }

/-- Whether a character cannot begin a plain scalar by itself. -/
def isIndicator (c : Char) : Bool :=
  ['-', '?', ':', ',', '[', ']', '\x7b', '\x7d', '#', '&', '*', '!', '|', '>', '\'', '"', '%', '@',
    '`'].contains c

/-- Whether a plain scalar begins with a character and what follows it. -/
def beginsPlain (s : Scanner) (c : Char) (rest : List Char) : Bool :=
  !(isBlank c || isBreak c || isIndicator c) ||
    (c == '-' && !(rest.head?.map isBlank).getD false) ||
    (!s.inFlow && (c == '?' || c == ':') && !atSpace rest)

/-- The token that begins with a character, given what follows it. -/
def fetchToken (s : Scanner) (c : Char) (rest : List Char) : Except ReadError Scanner :=
  let apart := s.inFlow || atSpace rest
  if c == '[' then s.fetchFlowStart .flowSequenceStart
  else if c == '\x7b' then s.fetchFlowStart .flowMappingStart
  else if c == ']' then s.fetchFlowEnd .flowSequenceEnd
  else if c == '\x7d' then s.fetchFlowEnd .flowMappingEnd
  else if c == ',' then s.fetchFlowEntry
  else if c == '-' && atSpace rest then s.fetchBlockEntry
  else if c == '?' && apart then s.fetchKey
  else if c == ':' && apart then s.fetchValue
  else if c == '*' then s.fetchName .alias
  else if c == '&' then s.fetchName .anchor
  else if c == '!' then s.fetchTag
  else if c == '|' && !s.inFlow then s.fetchBlockScalar true
  else if c == '>' && !s.inFlow then s.fetchBlockScalar false
  else if c == '\'' then s.fetchQuoted false
  else if c == '"' then s.fetchQuoted true
  else if s.beginsPlain c rest then s.fetchPlain
  else .error (.scanning .noToken s.mark s.mark)

/-- Whether a comment may follow the last token on its line without standing for itself. -/
def takesLineComment (s : Scanner) : Bool :=
  match s.tokens.getLast?.map Token.lexeme with
  | some .blockEntry => false
  | some (.scalar _ .literal) => false
  | some (.scalar _ .folded) => false
  | _ => true

/-- Reads the next token, and those that it makes known. -/
def fetch (s : Scanner) : Except ReadError Scanner :=
  let s := skipSpace (s.cursor.rest.length + 1) s
  let s := s.closeBlocks s.mark.column
  match s.cursor.rest with
  | [] => s.fetchEnd
  | c :: rest =>
    if s.mark.column == 0 && c == '%' then s.fetchDirective
    else if s.mark.column == 0 && atMark '-' (c :: rest) then s.fetchDocumentMark .documentStart
    else if s.mark.column == 0 && atMark '.' (c :: rest) then s.fetchDocumentMark .documentEnd
    else do
      let s ← s.fetchToken c rest
      return if s.takesLineComment then s.skipLineComment else s

/-- The number of tokens that are settled while nothing more can be read: two are kept back, and a
possible key is not settled. -/
def settled (s : Scanner) : Nat :=
  s.keys.foldl (fun n k =>
    match k with
    | some k => if !s.isStale k || k.required then min n k.token else n
    | none => n) (s.tokens.length - 2)

/-- Whether the stream has ended. -/
def atEnd (s : Scanner) : Bool := s.tokens.getLast?.map Token.lexeme == some .streamEnd

/-- Reads all tokens; each takes some of `fuel`. Where the text cannot be read further a fault
stands in the place of the tokens that are not settled. -/
def run : Nat → Scanner → List Token
  | 0, s => s.tokens
  | fuel + 1, s =>
    if s.atEnd then s.tokens
    else
      match s.fetch with
      | .ok s => run fuel s
      | .error e => s.tokens.take s.settled ++ [⟨s.mark, .fault e⟩]

end Scanner

/-- The tokens of a text. A mark of the byte order at its begin is dropped. -/
def tokens (text : String) : List Token :=
  let chars := match text.toList with
    | '\ufeff' :: rest => rest
    | chars => chars
  if chars.all isAllowed then Scanner.run (chars.length + 2) (.init chars)
  else [⟨⟨0, 0, 0⟩, .fault (.plain .controlCharacter)⟩]

end StackFlow.Yaml
