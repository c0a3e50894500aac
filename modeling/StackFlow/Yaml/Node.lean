import StackFlow.Yaml.Scalar
import StackFlow.Yaml.Token

/-!
# The tree of a document

A document is a tree of scalars, sequences and mappings. A node may bear a name, and an alias stands
in the tree for the node of that name.
-/

namespace StackFlow.Yaml

/-- A node of a document. Tags are in their short form, and none if the document gives none. -/
inductive Node where
  /-- A scalar. -/
  | scalar (start : Mark) (tag : Option String) (text : String) (style : ScalarStyle)
  /-- A sequence. -/
  | sequence (start : Mark) (tag : Option String) (items : List Node)
  /-- A mapping, in the order of the document. -/
  | mapping (start : Mark) (tag : Option String) (entries : List (Node × Node))
  /-- A node that is found under a number elsewhere in the document. -/
  | alias (start : Mark) (name : String) (target : Nat)

/-- A document: its tree, and the nodes that bear a name, by their numbers. -/
structure Document where
  /-- The tree. -/
  root : Node
  /-- The nodes that bear a name. -/
  named : List (Nat × Node)

namespace Node

/-- Where a node begins. -/
def start : Node → Mark
  | .scalar m _ _ _ | .sequence m _ _ | .mapping m _ _ | .alias m _ _ => m

/-- The line of a node, counted from one. -/
def line (n : Node) : Nat := n.start.line + 1

/-- The text of a scalar, the name of an alias, and nothing for a collection. -/
def text : Node → String
  | .scalar _ _ s _ => s
  | .alias _ name _ => name
  | _ => ""

/-- Whether two nodes are of one kind. -/
def sameKind : Node → Node → Bool
  | .scalar .., .scalar .. => true
  | .sequence .., .sequence .. => true
  | .mapping .., .mapping .. => true
  | .alias .., .alias .. => true
  | _, _ => false

/-- The tag of the key that merges mappings. -/
def mergeTag : String := "!!merge"

/-- The tag of a node: the one that it is given, or the one that its form stands for. -/
def tag : Node → String
  | .scalar _ (some t) _ _ => t
  | .scalar _ none s style =>
    if style ≠ .plain then Scalar.textTag
    else if s = "<<" then mergeTag
    else (Scalar.resolve true s).tag
  | .sequence _ t _ => t.getD "!!seq"
  | .mapping _ t _ => t.getD "!!map"
  | .alias .. => ""

/-- Whether a key merges the mapping that is its value. -/
def isMerge : Node → Bool
  | .scalar m t s style => s = "<<" && (Node.scalar m t s style).tag = mergeTag
  | _ => false

end Node

end StackFlow.Yaml
