import StackFlow.Yaml.Token.Scalar

/-!
# Reading names, tags and directives

Anchors and aliases are names behind a mark. A tag is a handle and a suffix, or a text between angle
brackets, and may hold characters by the octets of their UTF-8 form. A directive fills a line at the
head of a document.
-/

namespace StackFlow.Yaml

/-- Whether a character may stand behind the name of an anchor or alias. -/
def endsName : List Char → Bool
  | [] => true
  | c :: _ =>
    isBlank c || isBreak c || c == '?' || c == ':' || c == ',' || c == ']' || c == '\x7d' ||
      c == '%' || c == '@' || c == '`'

/-- Reads the name of an anchor or alias at its mark. -/
def readName (c : Cursor) : Except ReadError (String × Cursor) :=
  let (name, next) := (c.forward 1).takeWhile isNameChar
  if name.isEmpty || !endsName next.rest then .error (.scanning .badName c.mark next.mark)
  else .ok (String.ofList name, next)

/-- Whether a character may stand in a tag. -/
def isTagChar (c : Char) : Bool :=
  isNameChar c || [';', '/', '?', ':', '@', '&', '=', '+', '$', ',', '.', '!', '~', '*', '\'',
    '(', ')', '[', ']', '%'].contains c

/-- The number of octets of a character with a given first octet, or zero. -/
def octetCount (n : Nat) : Nat :=
  if n < 0x80 then 1
  else if n / 0x20 = 6 then 2
  else if n / 0x10 = 14 then 3
  else if n / 8 = 30 then 4
  else 0

/-- An octet written as a percent sign and two digits. -/
def octet? : List Char → Option Nat
  | '%' :: a :: b :: _ => hexValue? [a, b]
  | _ => none

/-- Reads the octets after the first of a character. -/
def readOctets (start : Mark) : Nat → Nat → Cursor → Except ReadError (Nat × Cursor)
  | 0, n, c => .ok (n, c)
  | k + 1, n, c =>
    match octet? c.rest with
    | none => .error (.scanning .tagEscape start c.mark)
    | some o =>
      if o / 0x40 = 2 then readOctets start k (n * 0x40 + o % 0x40) (c.forward 3)
      else .error (.scanning .tagTrail start c.mark)

/-- Reads a character that is written by its octets. -/
def readOctetChar (start : Mark) (c : Cursor) : Except ReadError (Char × Cursor) :=
  match octet? c.rest with
  | none => .error (.scanning .tagEscape start c.mark)
  | some o =>
    match octetCount o with
    | 0 => .error (.scanning .tagLead start c.mark)
    | 1 => .ok (Char.ofNat o, c.forward 3)
    | k + 2 => do
      let (n, c) ← readOctets start (k + 1) (o % (0x40 >>> (k + 1))) (c.forward 3)
      return (Char.ofNat n, c)

/-- Reads the characters of a tag; each takes some of `fuel`. -/
def readTagChars (start : Mark) :
    Nat → List Char → Cursor → Except ReadError (List Char × Cursor)
  | 0, text, c => .ok (text, c)
  | fuel + 1, text, c =>
    match c.rest with
    | '%' :: _ => do
      let (d, c) ← readOctetChar start c
      readTagChars start fuel (text ++ [d]) c
    | d :: _ =>
      if isTagChar d then readTagChars start fuel (text ++ [d]) (c.forward 1) else .ok (text, c)
    | [] => .ok (text, c)

/-- Reads a tag's text that goes on from `head`; a text must be there if nothing stood before. -/
def readTagText (start : Mark) (head : List Char) (c : Cursor) :
    Except ReadError (List Char × Cursor) := do
  let (text, next) ← readTagChars start c.rest.length [] c
  if head.isEmpty && next.mark == c.mark then .error (.scanning .tagUri start c.mark)
  else return (head.drop 1 ++ text, next)

/-- Reads a handle: an exclamation mark, a name, and an exclamation mark, of which a directive may
leave out the last two together only. -/
def readHandle (directive : Bool) (start : Mark) (c : Cursor) :
    Except ReadError (List Char × Cursor) :=
  match c.rest with
  | '!' :: _ =>
    let (name, next) := (c.forward 1).takeWhile isNameChar
    match next.rest with
    | '!' :: _ => .ok ('!' :: name ++ ['!'], next.forward 1)
    | _ =>
      if directive && !name.isEmpty then .error (.scanning .tagHandle start next.mark)
      else .ok ('!' :: name, next)
  | _ => .error (.scanning .tagHandle start c.mark)

/-- Reads a tag without the blank behind it. -/
def readTagBody (c : Cursor) : Except ReadError (String × String × Cursor) :=
  match c.rest with
  | _ :: '<' :: _ => do
    let (text, next) ← readTagText c.mark [] (c.forward 2)
    match next.rest with
    | '>' :: _ => return ("", String.ofList text, next.forward 1)
    | _ => .error (.scanning .tagMark c.mark next.mark)
  | _ => do
    let (handle, next) ← readHandle false c.mark c
    if 1 < handle.length && handle.getLast? == some '!' then
      let (suffix, next) ← readTagText c.mark [] next
      return (String.ofList handle, String.ofList suffix, next)
    else
      let (suffix, next) ← readTagText c.mark handle next
      if suffix.isEmpty then return ("", String.ofList handle, next)
      else return ("!", String.ofList suffix, next)

/-- Reads a tag at its mark: its handle and its suffix. -/
def readTag (c : Cursor) : Except ReadError (String × String × Cursor) := do
  let (handle, suffix, next) ← readTagBody c
  if atSpace next.rest then return (handle, suffix, next)
  else .error (.scanning .tagEnd c.mark next.mark)

/-- Reads a part of a version: one or two digits. -/
def readVersionNumber (start : Mark) (c : Cursor) : Except ReadError (Nat × Cursor) :=
  let (digits, next) := c.takeWhile Char.isDigit
  if digits.isEmpty then .error (.scanning .noVersion start c.mark)
  else if 2 < digits.length then .error (.scanning .longVersion start (c.forward 2).mark)
  else .ok (digits.foldl (fun n d => 10 * n + (d.toNat - '0'.toNat)) 0, next)

/-- Reads the value of a directive by the directive's name. -/
def readDirectiveValue (name : String) (start : Mark) (c : Cursor) :
    Except ReadError (Lexeme × Cursor) := do
  match name with
  | "YAML" =>
    let (major, c) ← readVersionNumber start (c.skipWhile isBlank)
    match c.rest with
    | '.' :: _ =>
      let (minor, c) ← readVersionNumber start (c.forward 1)
      return (.version major minor, c)
    | _ => .error (.scanning .versionDot start c.mark)
  | "TAG" =>
    let (handle, c) ← readHandle true start (c.skipWhile isBlank)
    if !(c.rest.head?.map isBlank).getD false then .error (.scanning .tagSpace start c.mark)
    else
      let (meaning, c) ← readTagText start [] (c.skipWhile isBlank)
      if atSpace c.rest then
        return (.tagDirective (String.ofList handle) (String.ofList meaning), c)
      else .error (.scanning .tagEnd start c.mark)
  | _ => .error (.scanning .unknownDirective start c.mark)

/-- Reads a directive at its mark, to the end of its line. -/
def readDirective (c : Cursor) : Except ReadError (Lexeme × Cursor) := do
  let start := c.mark
  let (name, c) := (c.forward 1).takeWhile isNameChar
  if name.isEmpty then .error (.scanning .noDirectiveName start c.mark)
  else if !atSpace c.rest then .error (.scanning .badDirectiveName start c.mark)
  else
    let (lexeme, c) ← readDirectiveValue (String.ofList name) start c
    let c := c.skipComment
    if atLineEnd c.rest then return (lexeme, c.skipBreak)
    else .error (.scanning .directiveEnd start c.mark)

end StackFlow.Yaml
