import StackFlow.Yaml.Token

/-!
# Reading scalars

Plain and quoted scalars may go over several lines: blanks around a line break are dropped, one line
break becomes a space and of several the first is dropped. A block scalar keeps its lines, or folds
them in the same way, below a common indentation.
-/

namespace StackFlow.Yaml

/-- White space read in a scalar that is not yet part of its text. -/
inductive Gap where
  /-- None. -/
  | none
  /-- Blanks on one line. -/
  | blanks (text : List Char)
  /-- A line break, and the line breaks after it. -/
  | broken (first more : List Char)
  deriving DecidableEq

namespace Gap

/-- What the white space contributes when more text follows. -/
def text : Gap → List Char
  | .none => []
  | .blanks s => s
  | .broken first more =>
    if first = ['\n'] then (if more.isEmpty then [' '] else more) else first ++ more

/-- One more blank. -/
def addBlank (g : Gap) (c : Char) : Gap :=
  match g with
  | .none => .blanks [c]
  | .blanks s => .blanks (s ++ [c])
  | .broken first more => .broken first more

/-- One more line break. -/
def addBreak (g : Gap) (b : List Char) : Gap :=
  match g with
  | .broken first more => .broken first (more ++ b)
  | _ => .broken b []

/-- Whether there was a line break. -/
def isBroken : Gap → Bool
  | .broken _ _ => true
  | _ => false

end Gap

/-- The cursor behind a line break is shorter. -/
theorem length_skipBreak_lt {c : Cursor} (h : c.rest ≠ []) :
    c.skipBreak.rest.length < c.rest.length := by
  unfold Cursor.skipBreak
  split
  next rest hr => rw [hr]; exact Nat.lt_succ_of_lt (Nat.lt_succ_self _)
  next rest _ hr => rw [hr]; exact Nat.lt_succ_self _
  next hr => exact absurd hr h

/-! ## Plain scalars -/

/-- A plain scalar's text, the cursor behind it and the blanks after it, and whether those held a
line break. -/
structure PlainScalar where
  /-- The text. -/
  text : List Char
  /-- The cursor behind the scalar. -/
  cursor : Cursor
  /-- Whether a line break follows. -/
  broken : Bool

/-- Whether a character ends a plain scalar inside a flow collection. -/
def endsFlowPlain (c : Char) : Bool :=
  c == ',' || c == '?' || c == '[' || c == ']' || c == '\x7b' || c == '\x7d'

/-- Whether a plain scalar ends before its next character, which is not white space. -/
def plainEnds (flow : Bool) (indent : Int) (gap : Gap) (c : Cursor) : Bool :=
  match c.rest with
  | [] => true
  | d :: rest =>
    (gap.isBroken && !flow && c.mark.column < indent) ||
      (c.mark.column == 0 && atDocumentMark c.rest) ||
      (gap != .none && d == '#') ||
      (d == ':' && atSpace rest) || (flow && endsFlowPlain d)

/-- Reads a plain scalar that began at `start` and whose lines are indented by `indent`. -/
def readPlain (flow : Bool) (indent : Int) (start : Mark) (text : List Char) (gap : Gap)
    (c : Cursor) : Except ReadError PlainScalar :=
  match _h : c.rest with
  | [] => .ok ⟨text, c, gap.isBroken⟩
  | d :: rest =>
    if isBlank d then
      if gap.isBroken && c.mark.column < indent && d == '\t' then
        .error (.scanning .plainTab start c.mark)
      else readPlain flow indent start text (gap.addBlank d) ⟨rest, c.mark.forward 1⟩
    else if isBreak d then
      readPlain flow indent start text (gap.addBreak c.breakText) c.skipBreak
    else if plainEnds flow indent gap c then .ok ⟨text, c, gap.isBroken⟩
    else readPlain flow indent start (text ++ gap.text ++ [d]) .none ⟨rest, c.mark.forward 1⟩
termination_by c.rest.length
decreasing_by
  · simp [_h]
  · exact length_skipBreak_lt (by simp [_h])
  · simp [_h]

/-! ## Quoted scalars -/

/-- The value of hexadecimal digits. -/
def hexValue? (ds : List Char) : Option Nat :=
  ds.foldlM (fun n d =>
    if d.isDigit then some (16 * n + (d.toNat - '0'.toNat))
    else if 'a' ≤ d ∧ d ≤ 'f' then some (16 * n + (d.toNat - 'a'.toNat + 10))
    else if 'A' ≤ d ∧ d ≤ 'F' then some (16 * n + (d.toNat - 'A'.toNat + 10))
    else none) 0

/-- The character that an escape of one letter stands for. -/
def escapedChar? : Char → Option Char
  | '0' => some '\x00'
  | 'a' => some '\x07'
  | 'b' => some '\x08'
  | 't' => some '\t'
  | '\t' => some '\t'
  | 'n' => some '\n'
  | 'v' => some '\x0b'
  | 'f' => some '\x0c'
  | 'r' => some '\r'
  | 'e' => some '\x1b'
  | ' ' => some ' '
  | '"' => some '"'
  | '\'' => some '\''
  | '\\' => some '\\'
  | 'N' => some '\x85'
  | '_' => some '\xa0'
  | 'L' => some '\u2028'
  | 'P' => some '\u2029'
  | _ => none

/-- The number of hexadecimal digits behind an escape. -/
def escapeDigits : Char → Nat
  | 'x' => 2
  | 'u' => 4
  | 'U' => 8
  | _ => 0

/-- The character of an escape, given the text behind the backslash, and how many characters of
that text the escape takes. -/
def readEscape (start here : Mark) : List Char → Except ReadError (Char × Nat)
  | [] => .error (.scanning .unknownEscape start here)
  | e :: rest =>
    match escapedChar? e, escapeDigits e with
    | some c, _ => .ok (c, 1)
    | none, 0 => .error (.scanning .unknownEscape start here)
    | none, n =>
      let digits := rest.take n
      let after := here.forward 2
      match (if digits.length = n then hexValue? digits else none) with
      | none => .error (.scanning .escapeDigit start after)
      | some v =>
        if (0xd800 ≤ v ∧ v ≤ 0xdfff) ∨ 0x10ffff < v then .error (.scanning .escapeCode start after)
        else .ok (Char.ofNat v, 1 + n)

/-- Reads the text of a quoted scalar that began at `start`, and the quote behind it. -/
def readQuoted (double : Bool) (start : Mark) (text : List Char) (gap : Gap) (c : Cursor) :
    Except ReadError (List Char × Cursor) :=
  match _h : c.rest with
  | [] => .error (.scanning .quotedEnd start c.mark)
  | d :: rest =>
    if isBlank d then
      readQuoted double start text (gap.addBlank d) ⟨rest, c.mark.forward 1⟩
    else if isBreak d then
      readQuoted double start text (gap.addBreak c.breakText) c.skipBreak
    else if c.mark.column == 0 && atDocumentMark c.rest then
      .error (.scanning .quotedDocument start c.mark)
    else
      let text := text ++ gap.text
      if double then
        if d == '"' then .ok (text, ⟨rest, c.mark.forward 1⟩)
        else if d == '\\' then
          if !rest.isEmpty && atLineEnd rest then
            readQuoted double start text (.broken [] [])
              (Cursor.skipBreak ⟨rest, c.mark.forward 1⟩)
          else
            match readEscape start c.mark rest with
            | .error e => .error e
            | .ok (e, n) =>
              readQuoted double start (text ++ [e]) .none ⟨rest.drop n, c.mark.forward (1 + n)⟩
        else readQuoted double start (text ++ [d]) .none ⟨rest, c.mark.forward 1⟩
      else if d == '\'' then
        if rest.head? == some '\'' then
          readQuoted double start (text ++ ['\'']) .none ⟨rest.tail, c.mark.forward 2⟩
        else .ok (text, ⟨rest, c.mark.forward 1⟩)
      else readQuoted double start (text ++ [d]) .none ⟨rest, c.mark.forward 1⟩
termination_by c.rest.length
decreasing_by
  all_goals
    have hl := congrArg List.length _h
    rw [List.length_cons] at hl
  · show rest.length < c.rest.length
    omega
  · exact length_skipBreak_lt (by simp [_h])
  · rename_i hr
    have hne : rest ≠ [] := by
      intro he
      rw [he] at hr
      exact absurd hr (by decide)
    have : (Cursor.skipBreak ⟨rest, c.mark.forward 1⟩).rest.length < rest.length :=
      length_skipBreak_lt (c := ⟨rest, c.mark.forward 1⟩) hne
    omega
  · show (rest.drop n).length < c.rest.length
    rw [List.length_drop]
    omega
  · show rest.length < c.rest.length
    omega
  · show rest.tail.length < c.rest.length
    rw [List.length_tail]
    omega
  · show rest.length < c.rest.length
    omega

/-! ## Block scalars -/

/-- What becomes of the line breaks at the end of a block scalar. -/
inductive Chomping where
  /-- They are dropped. -/
  | strip
  /-- The first is kept. -/
  | clip
  /-- All are kept. -/
  | keep
  deriving DecidableEq

/-- The header of a block scalar: what becomes of its last line breaks, and its indentation
relative to what surrounds it, or zero. -/
structure BlockHeader where
  /-- What becomes of the last line breaks. -/
  chomping : Chomping
  /-- The indentation, or zero to take it from the first line. -/
  increment : Nat

/-- The chomping of an indicator. -/
def chomping? : Char → Option Chomping
  | '+' => some .keep
  | '-' => some .strip
  | _ => none

/-- Reads an indentation indicator. -/
def readIncrement (start : Mark) (c : Cursor) : Except ReadError (Nat × Cursor) :=
  match c.rest with
  | d :: _ =>
    if d == '0' then .error (.scanning .zeroIndent start c.mark)
    else if d.isDigit then .ok (d.toNat - '0'.toNat, c.forward 1)
    else .ok (0, c)
  | [] => .ok (0, c)

/-- Reads a chomping indicator. -/
def readChomping (c : Cursor) : Chomping × Cursor :=
  match c.rest.head?.bind chomping? with
  | some k => (k, c.forward 1)
  | none => (.clip, c)

/-- Reads the indicators of a block scalar's header, which come in either order, and the rest of
its line. -/
def readHeader (start : Mark) (c : Cursor) : Except ReadError (BlockHeader × Cursor) := do
  let first := readChomping c
  let (increment, c) ← readIncrement start first.2
  let (chomping, c) :=
    if first.1 = .clip ∧ increment ≠ 0 then readChomping c else (first.1, c)
  let c := c.skipComment
  if atLineEnd c.rest then return (⟨chomping, increment⟩, c.skipBreak)
  else .error (.scanning .headerEnd start c.mark)

/-- The cursor behind the indentation and the empty lines before a line of a block scalar, the
breaks of those lines, and the deepest column reached. An `indent` of zero takes any depth. -/
def skipIndentation (indent : Nat) (start : Mark) (breaks : List Char) (deepest : Nat)
    (c : Cursor) : Except ReadError (List Char × Nat × Cursor) :=
  let inside := indent == 0 || c.mark.column < indent
  let deepest := max deepest c.mark.column
  match _h : c.rest with
  | [] => .ok (breaks, deepest, c)
  | d :: rest =>
    if inside && d == ' ' then
      skipIndentation indent start breaks deepest ⟨rest, c.mark.forward 1⟩
    else if inside && d == '\t' then .error (.scanning .indentTab start c.mark)
    else if isBreak d then
      skipIndentation indent start (breaks ++ c.breakText) deepest c.skipBreak
    else .ok (breaks, deepest, c)
termination_by c.rest.length
decreasing_by
  · simp [_h]
  · exact length_skipBreak_lt (by simp [_h])

/-- A block scalar under way. -/
structure BlockText where
  /-- The text so far. -/
  text : List Char
  /-- The break of the last line. -/
  lineBreak : List Char
  /-- The breaks of the empty lines after it. -/
  more : List Char
  /-- Whether the last line began with a blank. -/
  afterBlank : Bool

/-- The text with the breaks before a line, which are folded if neither line begins with a
blank. -/
def BlockText.join (b : BlockText) (literal blank : Bool) : List Char :=
  if !literal && !b.afterBlank && !blank && b.lineBreak == ['\n'] then
    b.text ++ (if b.more.isEmpty then [' '] else []) ++ b.more
  else b.text ++ b.lineBreak ++ b.more

/-- Reads the lines of a block scalar that are indented by `indent`; each takes some of `fuel`. -/
def readLines (literal : Bool) (indent : Nat) (start : Mark) :
    Nat → BlockText → Cursor → Except ReadError (BlockText × Cursor)
  | 0, b, c => .ok (b, c)
  | fuel + 1, b, c =>
    if c.mark.column ≠ indent || c.rest.isEmpty then .ok (b, c)
    else do
      let blank := (c.rest.head?.map isBlank).getD false
      let (line, c) := c.takeWhile (fun d => !isBreak d)
      let lineBreak := c.breakText
      let (more, _, c) ← skipIndentation indent start [] 0 c.skipBreak
      readLines literal indent start fuel ⟨b.join literal blank ++ line, lineBreak, more, blank⟩ c

/-- Reads a block scalar behind its indicator. The collection around it has the indentation
`outer`, or minus one if there is none. -/
def readBlock (literal : Bool) (outer : Int) (start : Mark) (c : Cursor) :
    Except ReadError (List Char × Cursor) := do
  let (header, c) ← readHeader start c
  let given : Nat :=
    if header.increment = 0 then 0 else (max outer 0).toNat + header.increment
  let (more, deepest, c) ← skipIndentation given start [] 0 c
  let indent := if given = 0 then max (max deepest (outer + 1).toNat) 1 else given
  let (b, c) ← readLines literal indent start (c.rest.length + 1) ⟨[], [], more, false⟩ c
  match header.chomping with
  | .strip => return (b.text, c)
  | .clip => return (b.text ++ b.lineBreak, c)
  | .keep => return (b.text ++ b.lineBreak ++ b.more, c)

end StackFlow.Yaml
