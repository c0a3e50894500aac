import Mathlib.Data.List.Nodup
import StackFlow.Yaml.Write

/-!
# What a library for documents promises

A library is known by what is documented of it (`Library.Documented`). It writes the fields of a
record under their names and in their order, without those that are to be left out, lists and
records in blocks with an indentation of two, and lists on one line where that is asked for. It puts
a text in quotes where the text alone would be taken for something else. And it reads YAML: `OnLine`
and `InBlock` say by the rules of YAML which texts stand for a value, whoever wrote them. Fields
come in any order and may be missing, and a text may be in any of its forms, whatever form the
library would write.
-/

namespace StackFlow.Yaml

/-! ## Values -/

/-- Whether a character is a printable one of ASCII. -/
def isPrintableAscii (c : Char) : Bool := ' ' ≤ c && c ≤ '~'

mutual

/-- The texts of a value are made of printable characters of ASCII. -/
def Target.Printable : {α : Type} → Target α → α → Prop
  | _, .inline _, _ => True
  | _, .text, s => s.toList.all isPrintableAscii = true
  | _, .list item, xs => ∀ x ∈ xs, item.Printable x
  | _, .record _ _ fields, s => fields.Printable s

/-- The texts in the fields of a record are made of printable characters of ASCII. -/
def Fields.Printable : {σ : Type} → Fields σ → σ → Prop
  | _, .nil, _ => True
  | _, .cons _ target get _ rest, s => target.Printable (get s) ∧ rest.Printable s

end

/-- How deep the lists of a type are nested. -/
def Inline.depth : {α : Type} → Inline α → Nat
  | _, .integer _ => 0
  | _, .list item => item.depth + 1

mutual

/-- How deep the lists and records of a type are nested. -/
def Target.depth : {α : Type} → Target α → Nat
  | _, .inline t => t.depth
  | _, .text => 0
  | _, .list item => item.depth + 1
  | _, .record _ _ fields => fields.depth + 1

/-- How deep the fields of a record are nested. -/
def Fields.depth : {σ : Type} → Fields σ → Nat
  | _, .nil => 0
  | _, .cons _ target _ _ rest => max target.depth rest.depth

end

/-! ## Values on one line -/

/-- The mark of double or single quotes. -/
def quoteMark (double : Bool) : Char := if double then '"' else '\''

/-- A character between quotes. A single quote is doubled between single quotes, and between double
quotes a double quote or a backslash stands behind a backslash. -/
def quotedForm (double : Bool) (c : Char) : List Char :=
  if double then (if c == '"' || c == '\\' then ['\\', c] else [c])
  else if c == '\'' then ['\'', '\''] else [c]

/-- A text in quotes. -/
def inQuotes (double : Bool) (cs : List Char) : List Char :=
  quoteMark double :: (cs.flatMap (quotedForm double) ++ [quoteMark double])

/-- The forms that stand for a text. -/
inductive SpellsText (isText : String → Bool) (s : String) : List Char → Prop
  /-- The text itself, if neither a mark in it nor the whole is taken for something else. -/
  | plain (hfits : fitsPlain s.toList = true) (htext : isText s = true) :
    SpellsText isText s s.toList
  /-- The text in double or single quotes. -/
  | quoted (double : Bool) : SpellsText isText s (inQuotes double s.toList)

/-- The text of a value that is written on one line: digits stand for an integer, and items between
brackets for a list. -/
def Inline.Spells : {α : Type} → Inline α → List Char → α → Prop
  | _, .integer _, text, i => text = (decimal i).toList
  | _, .list item, text, xs =>
    ∃ items : List (List Char × _), text = bracketed (items.map (·.1)) ∧ xs = items.map (·.2) ∧
      ∀ x ∈ items, item.Spells x.1 x.2

/-- The text of a value stands on the line of its key or of the mark of its item. -/
def Target.OnLine (isText : String → Bool) : {α : Type} → Target α → List Char → α → Prop
  | _, .inline t, cs, a => t.Spells cs a
  | _, .text, cs, s => s.toList.all isPrintableAscii = true ∧ SpellsText isText s cs
  | _, .list _, cs, xs => cs = bracketed [] ∧ xs = []
  | _, .record .., _, _ => False

/-! ## Values in a block -/

/-- A name that may stand before a colon: a word of small letters that stands for itself. -/
structure IsFieldName (isText : String → Bool) (name : String) : Prop where
  /-- The name has a letter. -/
  ne_empty : name ≠ ""
  /-- All characters are small letters. -/
  letters : name.toList.all Char.isLower = true
  /-- A name before a colon is not longer than this. -/
  short : name.toList.length ≤ 1024
  /-- The name is no number or the like. -/
  isText_eq : isText name = true

/-- A field in a record's block: its name, what follows the colon, and what it changes. -/
structure FieldLine (σ : Type) where
  /-- The name. -/
  name : String
  /-- What follows the colon behind the name, up to the end of the value. -/
  text : List Char
  /-- What the value of the field changes in a record. -/
  change : σ → σ

/-- The whole of a field. -/
def FieldLine.chars {σ : Type} (l : FieldLine σ) : List Char := l.name.toList ++ ':' :: l.text

mutual

/-- The text is lines of a block in a column, without the spaces before the first of them, which
stand for a value. A list has a line with a mark for each item, and the item stands behind the mark
or is a block that begins there. A record has a line with a name for each field that is given, all
of different names, and what they change one after the other makes the record. -/
def Target.InBlock (isText : String → Bool) (column : Nat) :
    {α : Type} → Target α → List Char → α → Prop
  | _, .inline _, _, _ => False
  | _, .text, _, _ => False
  | _, .list item, cs, xs =>
    ∃ items : List (List Char × _), items ≠ [] ∧
      cs = (spaces column).intercalate (items.map fun x => '-' :: ' ' :: x.1) ∧
      xs = items.map (·.2) ∧
      ∀ x ∈ items, (∃ t, x.1 = t ++ ['\n'] ∧ item.OnLine isText t x.2) ∨
        item.InBlock isText (column + 2) x.1 x.2
  | _, .record _ zero fields, cs, s =>
    ∃ lines : List (FieldLine _), lines ≠ [] ∧ (lines.map FieldLine.name).Nodup ∧
      cs = (spaces column).intercalate (lines.map FieldLine.chars) ∧
      s = lines.foldl (fun s l => l.change s) zero ∧ ∀ l ∈ lines, fields.Sets isText column l

/-- A line sets the field of its name to a value that stands on the line or in a block below it. -/
def Fields.Sets (isText : String → Bool) (column : Nat) :
    {σ : Type} → Fields σ → FieldLine σ → Prop
  | _, .nil, _ => False
  | _, .cons tag target _ set rest, l =>
    (l.name = tag.name ∧ IsFieldName isText l.name ∧ ∃ a, l.change = (set · a) ∧
        ((∃ t, l.text = ' ' :: t ++ ['\n'] ∧ target.OnLine isText t a) ∨
          ∃ t, l.text = '\n' :: spaces (column + 2) ++ t ∧
            target.InBlock isText (column + 2) t a)) ∨
      l.name ≠ tag.name ∧ rest.Sets isText column l

end

/-! ## The contract -/

/-- The words of small letters that are not texts, or are not for some readers. -/
def reservedWords : List String := ["true", "false", "null", "y", "n", "yes", "no", "on", "off"]

/-- What is documented of a library. -/
structure Library.Documented (lib : Library) : Prop where
  /-- A value is written by its type: fields by their names, in their order and without those that
  are left out, collections in blocks with an indentation of two or on one line, integers by their
  digits, and texts in the style that the library chooses. -/
  write_eq : ∀ {α : Type} (t : Target α) (a : α), t.Printable a →
    lib.write t a = String.ofList (t.chars lib.style 0 a)
  /-- A text of printable characters stands on one line, and without quotes only if YAML allows
  this and the text alone is no number or the like. -/
  style_cases : ∀ s : String, s.toList.all isPrintableAscii = true →
    (lib.style s = .plain ∧ fitsPlain s.toList = true ∧ lib.isText s = true) ∨
      lib.style s = .singleQuoted ∨ lib.style s = .doubleQuoted
  /-- A word of small letters is a text, except for a few. -/
  isText_word : ∀ s : String, s ≠ "" → s.toList.all Char.isLower = true → s ∉ reservedWords →
    lib.isText s = true
  /-- A document in a block of YAML is read as the value that it stands for. The depth of a type is
  bounded, since libraries bound the depth of documents. -/
  read_eq : ∀ {α : Type} (t : Target α) (text : List Char) (a : α), t.depth ≤ 100 →
    t.InBlock lib.isText 0 text a → lib.read t (String.ofList text) = .ok (some a)

end StackFlow.Yaml
