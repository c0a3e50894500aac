import StackFlow.Yaml.ReadError

/-!
# Tokens of a document

The marks, names and scalars that a document is made of, with the marks for indentation made
explicit: a block collection has a start and an end, and a key is marked before it is read.
-/

namespace StackFlow.Yaml

/-- How a scalar is written. -/
inductive ScalarStyle where
  | plain
  | singleQuoted
  | doubleQuoted
  | literal
  | folded
  deriving DecidableEq

/-- The kinds of tokens. -/
inductive Lexeme where
  | streamStart
  | streamEnd
  /-- A directive that names the version. -/
  | version (major minor : Nat)
  /-- A directive that gives a meaning to a handle of tags. -/
  | tagDirective (handle meaning : String)
  | documentStart
  | documentEnd
  | blockSequenceStart
  | blockMappingStart
  | blockEnd
  | flowSequenceStart
  | flowSequenceEnd
  | flowMappingStart
  | flowMappingEnd
  | blockEntry
  | flowEntry
  | key
  | value
  | alias (name : String)
  | anchor (name : String)
  /-- A tag, with the handle that is replaced by its meaning. -/
  | tag (handle suffix : String)
  | scalar (text : String) (style : ScalarStyle)
  /-- The text cannot be read further. -/
  | fault (error : ReadError)
  deriving DecidableEq

/-- A token and the place where it begins. -/
structure Token where
  /-- Where the token begins. -/
  start : Mark
  /-- What it is. -/
  lexeme : Lexeme
  deriving DecidableEq

end StackFlow.Yaml
