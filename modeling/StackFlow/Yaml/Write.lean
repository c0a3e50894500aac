import StackFlow.Number.Integer
import StackFlow.Yaml.Cursor
import StackFlow.Yaml.Library
import StackFlow.Yaml.Scalar

/-!
# Writing documents

A text is written so that it reads back as itself: plain if it can be, in single quotes if marks in
it would be taken for something else, in double quotes with escapes if it holds characters that do
not show or would read back as something else than a text, and as a block if it has several lines.
Lists are written one item a line and records one field a line, deeper ones with an indentation of
two, unless they are asked to stand on one line.
-/

namespace StackFlow.Yaml

/-- Whether a character is written as itself: a line feed, or what shows, up to `U+FFFD`. -/
def isShown (c : Char) : Bool :=
  let n := c.toNat
  n == 0x0a || (0x20 ≤ n && n ≤ 0x7e) || (0xa0 ≤ n && n ≤ 0xd7ff) ||
    (0xe000 ≤ n && n ≤ 0xfffd && n != 0xfeff)

/-! ## What a plain text would be taken for -/

/-- Words that other readers take for truth values. -/
def isOldBool (s : String) : Bool :=
  ["y", "Y", "yes", "Yes", "YES", "on", "On", "ON", "n", "N", "no", "No", "NO", "off", "Off",
    "OFF"].contains s

/-- Groups of one or two digits behind colons, and an optional part behind a point. -/
def isSexagesimalTail : List Char → Bool
  | [] => true
  | '.' :: cs => cs.all fun c => c.isDigit || c == '_'
  | ':' :: a :: b :: cs =>
    if b.isDigit then '0' ≤ a && a ≤ '5' && isSexagesimalTail cs
    else a.isDigit && isSexagesimalTail (b :: cs)
  | [':', a] => a.isDigit
  | _ => false

/-- Whether other readers take a text for a number of base 60, such as `1:20`. -/
def isSexagesimal (cs : List Char) : Bool :=
  let cs := if cs.head? == some '+' || cs.head? == some '-' then cs.drop 1 else cs
  let rest := cs.dropWhile fun c => c.isDigit || c == '_'
  (cs.head?.map Char.isDigit).getD false && rest.head? == some ':' && isSexagesimalTail rest

/-- Whether a plain text reads back as a text, for this and for other readers. -/
def readsAsText (s : String) : Bool :=
  (Scalar.resolve true s).tag == Scalar.textTag && !isSexagesimal s.toList && !isOldBool s

/-! ## Marks -/

/-- Whether the first character of a text would be taken for a mark. -/
def beginsWithMark : List Char → Bool
  | [] => false
  | c :: cs =>
    let apart := cs.isEmpty || (cs.head?.map isBlank).getD false
    if c == '?' || c == ':' || c == '-' then apart
    else ['#', ',', '[', ']', '\x7b', '\x7d', '&', '*', '!', '|', '>', '\'', '"', '%', '@',
      '`'].contains c

/-- Whether a later character would be taken for a mark: a colon before a blank, or a hash sign
after white space. -/
def holdsMark : Char → List Char → Bool
  | _, [] => false
  | before, c :: cs =>
    (c == ':' && (cs.isEmpty || (cs.head?.map isBlank).getD false)) ||
      (c == '#' && (isBlank before || isBreak before)) || holdsMark c cs

/-- Whether a text begins like the mark of a document. -/
def beginsLikeDocument : List Char → Bool
  | a :: b :: c :: _ => (a == '-' && b == '-' && c == '-') || (a == '.' && b == '.' && c == '.')
  | _ => false

/-- Whether a text has two neighbours of given kinds. -/
def hasPair (p q : Char → Bool) : List Char → Bool
  | a :: b :: cs => (p a && q b) || hasPair p q (b :: cs)
  | _ => false

/-- Whether a space stands before a line break. -/
def hasSpaceBreak (cs : List Char) : Bool := hasPair (· == ' ') isBreak cs

/-- Whether a space stands after a line break. -/
def hasBreakSpace (cs : List Char) : Bool := hasPair isBreak (· == ' ') cs

/-- Whether a character other than a tab is not written as itself. -/
def hasHidden (cs : List Char) : Bool := cs.any fun c => c != '\t' && !isShown c

/-- Whether a text can stand in single quotes. -/
def fitsSingleQuotes (cs : List Char) : Bool :=
  !hasBreakSpace cs && !hasSpaceBreak cs && !cs.contains '\t' && !hasHidden cs

/-- Whether a text can stand in a block. -/
def fitsBlock (cs : List Char) : Bool :=
  cs.getLast? != some ' ' && !hasSpaceBreak cs && !hasHidden cs

/-- Whether a text can stand without quotes. -/
def fitsPlain (cs : List Char) : Bool :=
  fitsSingleQuotes cs && cs.head? != some ' ' && cs.getLast? != some ' ' && !cs.any isBreak &&
    !beginsLikeDocument cs && !beginsWithMark cs &&
    match cs with
    | [] => true
    | c :: cs => !holdsMark c cs

/-- The way a text is written. -/
def styleOf (s : String) : ScalarStyle :=
  let cs := s.toList
  if cs.contains '\n' then (if fitsBlock cs then .literal else .doubleQuoted)
  else if !readsAsText s then .doubleQuoted
  else if fitsPlain cs then .plain
  else if fitsSingleQuotes cs then .singleQuoted
  else .doubleQuoted

/-! ## The written text -/

/-- Spaces. -/
def spaces (n : Nat) : List Char := List.replicate n ' '

/-- The text between single quotes, in which no space follows a line break; lines after the first
are indented. -/
def singleQuotedBody (indent : Nat) : Bool → List Char → List Char
  | _, [] => []
  | fresh, c :: cs =>
    if isBreak c then c :: singleQuotedBody indent true cs
    else
      (if fresh then spaces indent else []) ++ (if c == '\'' then ['\'', '\''] else [c]) ++
        singleQuotedBody indent false cs

/-- The digits of a number in upper case hexadecimal, filled up to a width. -/
def upperHex (width n : Nat) : List Char :=
  let ds := (Nat.toDigits 16 n).map Char.toUpper
  List.replicate (width - ds.length) '0' ++ ds

/-- The escape of a character. -/
def escape (c : Char) : List Char :=
  match c with
  | '\x00' => ['\\', '0']
  | '\x07' => ['\\', 'a']
  | '\x08' => ['\\', 'b']
  | '\t' => ['\\', 't']
  | '\n' => ['\\', 'n']
  | '\x0b' => ['\\', 'v']
  | '\x0c' => ['\\', 'f']
  | '\r' => ['\\', 'r']
  | '\x1b' => ['\\', 'e']
  | '"' => ['\\', '"']
  | '\\' => ['\\', '\\']
  | '\x85' => ['\\', 'N']
  | '\xa0' => ['\\', '_']
  | '\u2028' => ['\\', 'L']
  | '\u2029' => ['\\', 'P']
  | _ =>
    let n := c.toNat
    if n ≤ 0xff then '\\' :: 'x' :: upperHex 2 n
    else if n ≤ 0xffff then '\\' :: 'u' :: upperHex 4 n
    else '\\' :: 'U' :: upperHex 8 n

/-- The text between double quotes. A text that begins with the mark of the byte order is written in
escapes throughout. -/
def doubleQuotedBody (cs : List Char) : List Char :=
  let all := cs.head? == some '\ufeff'
  cs.flatMap fun c =>
    if all || !isShown c || isBreak c || c == '"' || c == '\\' then escape c else [c]

/-- The header of a block: a hint at its indentation if the text begins with a space or a line
break, and what becomes of its last line break. -/
def blockHeader (cs : List Char) : List Char :=
  let hint := if (cs.head?.map fun c => c == ' ' || isBreak c).getD false then ['2'] else []
  let chomp :=
    match cs.reverse with
    | [] => ['-']
    | [c] => if isBreak c then ['+'] else ['-']
    | c :: d :: _ => if !isBreak c then ['-'] else if isBreak d then ['+'] else []
  '|' :: hint ++ chomp

/-- The lines of a block; lines that are not empty are indented. -/
def blockLines (indent : Nat) : Bool → List Char → List Char
  | _, [] => []
  | fresh, c :: cs =>
    if isBreak c then c :: blockLines indent true cs
    else (if fresh then spaces indent else []) ++ c :: blockLines indent false cs

/-- A block behind its mark. A line break at the begin of the text ends the header's line, and one
at its end ends the block. -/
def blockText (indent : Nat) (cs : List Char) : List Char :=
  let start := if (cs.head?.map isBreak).getD true then [] else ['\n']
  let stop := if (cs.getLast?.map isBreak).getD false then [] else ['\n']
  blockHeader cs ++ start ++ blockLines indent true cs ++ stop

/-- A text as a scalar in a style, with the end of its line; further lines are indented. -/
def spelled (style : ScalarStyle) (indent : Nat) (cs : List Char) : List Char :=
  match style with
  | .plain => cs ++ ['\n']
  | .singleQuoted => '\'' :: singleQuotedBody indent false cs ++ ['\'', '\n']
  | .doubleQuoted => '"' :: doubleQuotedBody cs ++ ['"', '\n']
  | .literal | .folded => blockText indent cs

/-! ## The written value -/

/-- A list between brackets. -/
def bracketed (items : List (List Char)) : List Char :=
  '[' :: ([',', ' '].intercalate items ++ [']'])

/-- A value on one line. -/
def Inline.chars : {α : Type} → Inline α → α → List Char
  | _, .integer _, i => (decimal i).toList
  | _, .list item, xs => bracketed (xs.map item.chars)

/-- Whether a value is empty: zero, or without content. -/
def Inline.isEmpty : {α : Type} → Inline α → α → Bool
  | _, .integer _, i => i == 0
  | _, .list _, xs => xs.isEmpty

mutual

/-- Whether a value is empty: zero, or without content. -/
def Target.isEmpty : {α : Type} → Target α → α → Bool
  | _, .inline t, a => t.isEmpty a
  | _, .text, s => s.isEmpty
  | _, .list _, xs => xs.isEmpty
  | _, .record _ _ fields, s => fields.areEmpty s

/-- Whether all fields of a record are empty. -/
def Fields.areEmpty : {σ : Type} → Fields σ → σ → Bool
  | _, .nil, _ => true
  | _, .cons _ target get _ rest, s => target.isEmpty (get s) && rest.areEmpty s

end

/-- Whether no field of a record is written. -/
def Fields.areOmitted : {σ : Type} → Fields σ → σ → Bool
  | _, .nil, _ => true
  | _, .cons tag target get _ rest, s =>
    tag.omitEmpty && target.isEmpty (get s) && rest.areOmitted s

/-- Whether a value is written on lines of its own. -/
def Target.isBlock : {α : Type} → Target α → α → Bool
  | _, .inline _, _ => false
  | _, .text, _ => false
  | _, .list _, xs => !xs.isEmpty
  | _, .record _ _ fields, s => !fields.areOmitted s

mutual

/-- The lines of a value that begins in a column, without the spaces before the first line. -/
def Target.chars (style : String → ScalarStyle) (column : Nat) :
    {α : Type} → Target α → α → List Char
  | _, .inline t, a => t.chars a ++ ['\n']
  | _, .text, s => spelled (style s) column s.toList
  | _, .list item, xs =>
    if xs.isEmpty then ['[', ']', '\n']
    else (spaces column).intercalate
      (xs.map fun x => '-' :: ' ' :: item.chars style (column + 2) x)
  | _, .record _ _ fields, s =>
    if fields.areOmitted s then ['\x7b', '\x7d', '\n']
    else (spaces column).intercalate (fields.chars style column s)

/-- The lines of the fields of a record in a column. -/
def Fields.chars (style : String → ScalarStyle) (column : Nat) :
    {σ : Type} → Fields σ → σ → List (List Char)
  | _, .nil, _ => []
  | _, .cons tag target get _ rest, s =>
    let value := get s
    let gap := if target.isBlock value then '\n' :: spaces (column + 2) else [' ']
    if tag.omitEmpty && target.isEmpty value then rest.chars style column s
    else (tag.name.toList ++ ':' :: (gap ++ target.chars style (column + 2) value)) ::
      rest.chars style column s

end

/-- The document of a value. -/
def writeAs {α : Type} (t : Target α) (a : α) : String := String.ofList (t.chars styleOf 0 a)

end StackFlow.Yaml
