/-!
# Positions in a document's text

A document is read character by character from left to right. A cursor is what is left to read,
with the line and column reached. Line breaks come in five forms, of which a carriage return and the
line feed behind it count as one.
-/

namespace StackFlow.Yaml

/-- A line break: carriage return, line feed, next line, line separator, paragraph separator. -/
def isBreak (c : Char) : Bool :=
  c == '\n' || c == '\r' || c == '\x85' || c == '\u2028' || c == '\u2029'

/-- A space or a tab. -/
def isBlank (c : Char) : Bool := c == ' ' || c == '\t'

/-- A character of names: a letter, digit, underscore or hyphen of ASCII. -/
def isNameChar (c : Char) : Bool := c.isAlphanum || c == '_' || c == '-'

/-- A character that a document may hold: tab, line breaks, and what is printable or above the
control characters. -/
def isAllowed (c : Char) : Bool :=
  let n := c.toNat
  n == 0x09 || n == 0x0a || n == 0x0d || (0x20 ≤ n && n ≤ 0x7e) || n == 0x85 ||
    (0xa0 ≤ n && n ≤ 0xd7ff) || (0xe000 ≤ n && n ≤ 0xfffd) || 0x10000 ≤ n

/-- Whether the text is at a blank, a line break or its end. -/
def atSpace : List Char → Bool
  | [] => true
  | c :: _ => isBlank c || isBreak c

/-- Whether the text is at a line break or its end. -/
def atLineEnd : List Char → Bool
  | [] => true
  | c :: _ => isBreak c

/-- Whether the text is at a mark of three characters that stands alone. -/
def atMark (m : Char) : List Char → Bool
  | a :: b :: c :: rest => a == m && b == m && c == m && atSpace rest
  | _ => false

/-- Whether the text is at a mark that begins or ends a document. -/
def atDocumentMark (s : List Char) : Bool := atMark '-' s || atMark '.' s

/-- A place in the text, counted from zero. -/
structure Mark where
  /-- The number of characters before it. -/
  index : Nat
  /-- The number of lines before it. -/
  line : Nat
  /-- The number of characters before it on its line. -/
  column : Nat
  deriving DecidableEq

/-- The place some characters further on the same line. -/
def Mark.forward (m : Mark) (n : Nat) : Mark := ⟨m.index + n, m.line, m.column + n⟩

/-- The place behind a line break of some characters. -/
def Mark.nextLine (m : Mark) (n : Nat) : Mark := ⟨m.index + n, m.line + 1, 0⟩

/-- The text that is left to read, and where it begins. -/
structure Cursor where
  /-- The text. -/
  rest : List Char
  /-- The place of its first character. -/
  mark : Mark
  deriving DecidableEq

namespace Cursor

/-- The cursor some characters further on the same line. -/
def forward (c : Cursor) (n : Nat) : Cursor := ⟨c.rest.drop n, c.mark.forward n⟩

/-- The cursor behind the characters that pass a test. -/
def skipWhile (c : Cursor) (p : Char → Bool) : Cursor := c.forward (c.rest.takeWhile p).length

/-- The characters up to the first that fails a test, and the cursor behind them. -/
def takeWhile (c : Cursor) (p : Char → Bool) : List Char × Cursor :=
  (c.rest.takeWhile p, c.skipWhile p)

/-- The cursor behind the line break that it is at. -/
def skipBreak (c : Cursor) : Cursor :=
  match c.rest with
  | '\r' :: '\n' :: rest => ⟨rest, c.mark.nextLine 2⟩
  | _ :: rest => ⟨rest, c.mark.nextLine 1⟩
  | [] => c

/-- The text that a line break stands for: separators stand for themselves, all others for a line
feed. -/
def breakText (c : Cursor) : List Char :=
  match c.rest with
  | '\u2028' :: _ => ['\u2028']
  | '\u2029' :: _ => ['\u2029']
  | b :: _ => if isBreak b then ['\n'] else []
  | [] => []

/-- The cursor behind the blanks, and behind a comment if one follows them. -/
def skipComment (c : Cursor) : Cursor :=
  let next := c.skipWhile isBlank
  match next.rest with
  | '#' :: _ => next.skipWhile (fun d => !isBreak d)
  | _ => next

end Cursor

end StackFlow.Yaml
