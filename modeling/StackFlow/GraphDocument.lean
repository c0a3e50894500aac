import StackFlow.Membership
import StackFlow.Yaml.Library

/-!
# Graph documents

A document lists blocks with their stack effects, instructions and enclosing functions, and edges as
pairs of block numbers. The ends of an edge need not be listed among the blocks. In the text of a
document the parts go by the names of their fields.
-/

namespace StackFlow

/-- A block of a document. -/
structure BlockEntry where
  /-- The block's number. -/
  id : BlockId
  /-- The least number of items on entry. -/
  need : Int64
  /-- The change in the number of items. -/
  stack : Int64
  /-- The instructions in program order. -/
  instrs : List String
  /-- The names of the functions around the block. -/
  funcs : List String
  deriving DecidableEq

/-- The entry for which nothing is given. -/
def BlockEntry.zero : BlockEntry := ⟨0, 0, 0, [], []⟩

/-- The fields of an entry. -/
def BlockEntry.target : Yaml.Target BlockEntry :=
  .record "graphfile.Block" .zero <|
    .cons ⟨"id", false⟩ (.inline (.integer "block.ID")) (·.id) (fun b i => { b with id := i }) <|
    .cons ⟨"need", false⟩ (.inline (.integer "int")) (·.need) (fun b i => { b with need := i }) <|
    .cons ⟨"stack", false⟩ (.inline (.integer "int")) (·.stack)
      (fun b i => { b with stack := i }) <|
    .cons ⟨"instrs", true⟩ (.list .text) (·.instrs) (fun b l => { b with instrs := l }) <|
    .cons ⟨"funcs", true⟩ (.list .text) (·.funcs) (fun b l => { b with funcs := l }) .nil

/-- The block of an entry, without relations. -/
def BlockEntry.block (b : BlockEntry) : Block := .new b.id ⟨b.need, b.stack⟩ b.instrs

/-- A document. -/
structure GraphDocument where
  /-- The blocks. -/
  blocks : List BlockEntry
  /-- The edges; an entry that is not a pair makes no graph. -/
  edges : List (List BlockId)
  deriving DecidableEq

/-- Why a document makes no graph. -/
inductive BuildError where
  /-- A block is refused. -/
  | block (error : GraphError)
  /-- An edge is not a pair. -/
  | edge (index : Nat) (entry : List BlockId)
  deriving DecidableEq

/-- The text of a refused document. -/
def BuildError.message : BuildError → String
  | .block e => e.message
  | .edge i entry =>
    let ids := " ".intercalate (entry.map BlockId.text)
    s!"graphfile: edge {i}: expects [from, to] but got [{ids}]"

namespace GraphDocument

/-- The document without blocks and edges. -/
def empty : GraphDocument := ⟨[], []⟩

/-- The fields of a document; the edges stand on one line. -/
def target : Yaml.Target GraphDocument :=
  .record "graphfile.File" empty <|
    .cons ⟨"blocks", false⟩ (.list BlockEntry.target) (·.blocks)
      (fun d l => { d with blocks := l }) <|
    .cons ⟨"edges", false⟩ (.inline (.list (.list (.integer "block.ID")))) (·.edges)
      (fun d l => { d with edges := l }) .nil

/-- Registers blocks in order and notes their functions. -/
def addBlocks (g : Graph) (m : Membership) :
    List BlockEntry → Except BuildError (Graph × Membership)
  | [] => .ok (g, m)
  | b :: bs =>
    match g.addBlock b.block with
    | .error e => .error (.block e)
    | .ok g => addBlocks g (b.funcs.foldl (fun m f => m.add b.id f) m) bs

/-- Adds edges in order, the first of them with a given index. -/
def addEdges (g : Graph) (index : Nat) : List (List BlockId) → Except BuildError Graph
  | [] => .ok g
  | [source, target] :: es => addEdges (g.addEdge source target) (index + 1) es
  | e :: _ => .error (.edge index e)

/-- The graph of a document and the functions of its blocks, which the graph's blocks hold too. -/
def build (d : GraphDocument) : Except BuildError (Graph × Membership) := do
  let (g, m) ← addBlocks .empty .empty d.blocks
  let g ← addEdges g 0 d.edges
  return (m.apply g, m)

/-- The entry of a registered block. -/
def entryOf (id : BlockId) (b : Block) : BlockEntry :=
  ⟨id, b.effect.need, b.effect.stack, b.instrs, b.funcs.toList⟩

/-- The document of a graph's registered blocks and of all its edges. -/
def ofGraph (g : Graph) : GraphDocument where
  blocks := g.blocks.entries.map fun e => entryOf e.1 e.2
  edges := g.edges.map fun e => [e.source, e.target]

end GraphDocument

end StackFlow
