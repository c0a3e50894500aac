import StackFlow.Yaml.ReadError
import StackFlow.Yaml.Token

/-!
# Typed documents

A library for documents writes values of a type and reads them back. The type is described by a
`Target`: integers, texts, lists and records, whose fields have the names that they go by in a
document. What a library does with a target is left to it (`Library`).
-/

namespace StackFlow.Yaml

/-- A type whose values are written on one line. -/
inductive Inline : Type → Type 1
  /-- Integers of 64 bits, and the name of their type. -/
  | integer (name : String) : Inline Int64
  /-- Lists between brackets. -/
  | list {α : Type} (item : Inline α) : Inline (List α)

/-- What is said of a field of a record. -/
structure FieldTag where
  /-- The name of the field in a document. -/
  name : String
  /-- Whether the field is left out if it is empty. -/
  omitEmpty : Bool

mutual

/-- A type whose values are written to documents and read from them. -/
inductive Target : Type → Type 1
  /-- Values on one line. -/
  | inline {α : Type} (target : Inline α) : Target α
  /-- Texts. -/
  | text : Target String
  /-- Lists, with an item a line. -/
  | list {α : Type} (item : Target α) : Target (List α)
  /-- Records, with a field a line: the name of the type, the record without any field, and the
  fields. -/
  | record {σ : Type} (name : String) (zero : σ) (fields : Fields σ) : Target σ

/-- The fields of a record in their order. -/
inductive Fields : Type → Type 1
  /-- No field. -/
  | nil {σ : Type} : Fields σ
  /-- A field before others: what is said of it, its type, and how it is taken from a record and
  changed in one. -/
  | cons {σ α : Type} (tag : FieldTag) (target : Target α) (get : σ → α) (set : σ → α → σ)
    (rest : Fields σ) : Fields σ

end

/-- The name of a type in messages. -/
def Inline.name : {α : Type} → Inline α → String
  | _, .integer name => name
  | _, .list item => "[]" ++ item.name

/-- The name of a type in messages. -/
def Target.name : {α : Type} → Target α → String
  | _, .inline t => t.name
  | _, .text => "string"
  | _, .list item => "[]" ++ item.name
  | _, .record name _ _ => name

/-- A library that writes values to documents and reads them from documents. -/
structure Library where
  /-- The style in which a text is written. -/
  style : String → ScalarStyle
  /-- Whether a text without quotes stands for itself, and not for a number or the like. -/
  isText : String → Bool
  /-- The document of a value, with an indentation of two. -/
  write : {α : Type} → Target α → α → String
  /-- The value of a document in which no unknown field is given, or nothing if the text holds no
  document. -/
  read : {α : Type} → Target α → String → Except Fault (Option α)

end StackFlow.Yaml
