import StackFlow.Text.Printable

/-!
# Texts

White space at the ends of texts, texts in quotes and in colours as messages show them, octets in
base 64, and how far a text is from another.
-/

namespace StackFlow.Text

/-! ## White space

The characters with the Unicode property of white space, and texts without them at the ends. -/

/-- White space as Unicode has it: the ASCII spaces, the next-line and no-break characters, and the
space, line and paragraph separators. -/
def isBlank (c : Char) : Bool :=
  let n := c.toNat
  (0x09 ≤ n && n ≤ 0x0d) || n == 0x20 || n == 0x85 || n == 0xa0 || n == 0x1680 ||
    (0x2000 ≤ n && n ≤ 0x200a) || n == 0x2028 || n == 0x2029 || n == 0x202f || n == 0x205f ||
    n == 0x3000

/-- A text without white space at its start and end. -/
def trim (s : List Char) : List Char :=
  ((s.dropWhile isBlank).reverse.dropWhile isBlank).reverse

/-! ## Quoted texts

A text in double quotes, or a character in single ones, as messages show it: printable characters
stand for themselves, all others are written by escapes. -/

/-- A number in hexadecimal, filled up with zeros to a width. -/
def hexPadded (width n : Nat) : List Char :=
  let ds := Nat.toDigits 16 n
  List.replicate (width - ds.length) '0' ++ ds

/-- A character as it stands between quotes of a given kind. -/
def quotedChar (mark c : Char) : List Char :=
  if c == mark then ['\\', mark]
  else if c == '\\' then ['\\', '\\']
  else if isPrintable c then [c]
  else
    match c with
    | '\x07' => ['\\', 'a']
    | '\x08' => ['\\', 'b']
    | '\x0c' => ['\\', 'f']
    | '\n' => ['\\', 'n']
    | '\r' => ['\\', 'r']
    | '\t' => ['\\', 't']
    | '\x0b' => ['\\', 'v']
    | _ =>
      let n := c.toNat
      if n < 0x20 || n == 0x7f then '\\' :: 'x' :: hexPadded 2 n
      else if n < 0x10000 then '\\' :: 'u' :: hexPadded 4 n
      else '\\' :: 'U' :: hexPadded 8 n

/-- A text in quotes. -/
def quote (s : String) : String :=
  String.ofList ('"' :: s.toList.flatMap (quotedChar '"') ++ ['"'])

/-- A character in single quotes. -/
def quoteChar (c : Char) : String := String.ofList ('\'' :: quotedChar '\'' c ++ ['\''])

/-! ## Styled texts

Colours and weight of texts for a terminal, by the escape sequences that switch them on and off. -/

/-- A way to set off a text. -/
inductive Style where
  | bold
  | red
  | green
  | yellow
  | cyan
  deriving DecidableEq

namespace Style

/-- The code that switches a style on. -/
def on : Style → String
  | .bold => "1"
  | .red => "31"
  | .green => "32"
  | .yellow => "33"
  | .cyan => "36"

/-- The code that switches a style off. -/
def off : Style → String
  | .bold => "22"
  | _ => "0"

/-- A text in a style, or the text alone if colours are off. -/
def apply (style : Style) (color : Bool) (s : String) : String :=
  if color then s!"\x1b[{style.on}m{s}\x1b[{style.off}m" else s

end Style

/-! ## Octets in base 64

Four letters stand for three octets; the last group is filled up with equals signs. Line breaks
between the letters do not count. -/

/-- The value of a letter. -/
def base64Value? (c : Char) : Option Nat :=
  if 'A' ≤ c ∧ c ≤ 'Z' then some (c.toNat - 'A'.toNat)
  else if 'a' ≤ c ∧ c ≤ 'z' then some (c.toNat - 'a'.toNat + 26)
  else if c.isDigit then some (c.toNat - '0'.toNat + 52)
  else if c = '+' then some 62
  else if c = '/' then some 63
  else none

/-- The octets of groups of letters. -/
def base64Groups : List Char → Option (List UInt8)
  | [] => some []
  | [a, b, '=', '='] => do
    let n := (← base64Value? a) * 64 + (← base64Value? b)
    return [(n / 16).toUInt8]
  | [a, b, c, '='] => do
    let n := ((← base64Value? a) * 64 + (← base64Value? b)) * 64 + (← base64Value? c)
    return [(n / 1024).toUInt8, (n / 4).toUInt8]
  | a :: b :: c :: d :: rest => do
    let n := (((← base64Value? a) * 64 + (← base64Value? b)) * 64 + (← base64Value? c)) * 64 +
      (← base64Value? d)
    return (n / 65536).toUInt8 :: (n / 256).toUInt8 :: n.toUInt8 :: (← base64Groups rest)
  | _ => none

/-- The octets that a text stands for. -/
def base64Decode (s : List Char) : Option (List UInt8) :=
  base64Groups (s.filter fun c => c != '\n' && c != '\r')

/-! ## Edit distance

The least number of insertions, deletions and replacements that turn one list into another. -/

section Distance

variable {α : Type} [DecidableEq α]

/-- The distances of a longer list to the beginnings of a list, given those of the list without its
last item `a`, from the second on; `left` is the first. -/
def distanceRow (a : α) : Nat → List Nat → List α → List Nat
  | left, diagonal :: up :: rest, b :: bs =>
    let d := if a = b then diagonal else 1 + min left (min up diagonal)
    d :: distanceRow a d (up :: rest) bs
  | _, _, _ => []

/-- The distances of a list to all beginnings of another, shortest first. -/
def distances (s t : List α) : List Nat :=
  s.foldl (fun row a =>
    let first := row.headD 0 + 1
    first :: distanceRow a first row t) (List.range (t.length + 1))

/-- The edit distance of two lists. -/
def distance (s t : List α) : Nat := (distances s t).getLastD 0

end Distance

end StackFlow.Text
