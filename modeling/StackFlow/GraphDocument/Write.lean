import StackFlow.GraphDocument
import StackFlow.Yaml.Node.Decode

/-!
# Writing graph documents

A document is written by a library: blocks one field a line, lists of texts one item a line, and all
edges on one line.
-/

namespace StackFlow.GraphDocument

/-- Writes a document. -/
def encode (lib : Yaml.Library) (d : GraphDocument) : String := lib.write target d

/-- The text of a document by the library at hand. -/
def text (d : GraphDocument) : String := d.encode Yaml.library

end StackFlow.GraphDocument
