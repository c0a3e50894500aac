import StackFlow.GraphDocument
import StackFlow.Yaml.Node.Decode

/-!
# Reading graph documents

A document is read by a library. A text without a document is told from one that the library
refuses.
-/

namespace StackFlow

/-- Why a text is not a document. -/
inductive DocumentError where
  /-- The text holds no document. -/
  | empty
  /-- The form of the text is wrong. -/
  | malformed (error : Yaml.ReadError)
  /-- Values do not fit the fields. -/
  | mistyped (mismatches : List Yaml.Mismatch)
  deriving DecidableEq

/-- The error of a text that a library refuses. -/
def DocumentError.ofFault : Yaml.Fault → DocumentError
  | .malformed e => .malformed e
  | .mistyped ms => .mistyped ms

/-- The text of a refused document. -/
def DocumentError.message : DocumentError → String
  | .empty => "graphfile: empty document"
  | .malformed e => "graphfile: invalid document: " ++ (Yaml.Fault.malformed e).message
  | .mistyped ms => "graphfile: invalid document: " ++ (Yaml.Fault.mistyped ms).message

namespace GraphDocument

/-- Reads a document from its text. -/
def decode (lib : Yaml.Library) (text : String) : Except DocumentError GraphDocument :=
  match lib.read target text with
  | .error e => .error (.ofFault e)
  | .ok none => .error .empty
  | .ok (some d) => .ok d

/-- Reads a document from its text with the library at hand. -/
def read (text : String) : Except DocumentError GraphDocument := decode Yaml.library text

end GraphDocument

end StackFlow
