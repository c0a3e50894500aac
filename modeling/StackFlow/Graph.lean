import StackFlow.Block
import StackFlow.Distinct
import StackFlow.Measure

/-!
# Graphs of blocks

A graph keeps, for each node, its successors in the order in which edges were added, with
repetition, and its distinct predecessors in the order in which they first occurred. A node may be
registered with the contents of its block; edges and registrations come in any order.
-/

namespace StackFlow

/-- A directed graph over block numbers, with the contents of some of its blocks. -/
structure Graph where
  /-- The successors of each node in order of insertion, repeated edges kept. -/
  succs : SortedMap BlockId (List BlockId)
  /-- The distinct predecessors of each edge target, in order of first insertion. -/
  preds : SortedMap BlockId (List BlockId)
  /-- The registered blocks. -/
  blocks : SortedMap BlockId Block
  deriving DecidableEq

/-- Why a block is not registered. -/
inductive GraphError where
  /-- The block's number belongs to a block with other contents. -/
  | duplicateBlock (id : BlockId)
  deriving DecidableEq

/-- The text of a refused registration. -/
def GraphError.message : GraphError → String
  | .duplicateBlock id =>
    s!"graph: cannot add block: block {decimal id} already defined with different metadata"

namespace Graph

/-- The graph without nodes. -/
def empty : Graph := ⟨.empty, .empty, .empty⟩

/-- The successors of a node in order of insertion; an unknown node has none. -/
def successors (g : Graph) (n : BlockId) : List BlockId := (g.succs.get? n).getD []

/-- The distinct predecessors of a node in order of insertion. -/
def predecessors (g : Graph) (n : BlockId) : List BlockId := (g.preds.get? n).getD []

/-- Adds an edge. Both ends become nodes, a repeated edge is kept among the successors, and
registered ends learn of the edge. -/
def addEdge (g : Graph) (source target : BlockId) : Graph where
  succs := (g.succs.upsert source (fun l => l.getD [] ++ [target])).upsert target (·.getD [])
  preds := g.preds.upsert target (fun l => appendNew (l.getD []) source)
  blocks :=
    (g.blocks.modify source (fun b => { b with succs := b.succs.add target })).modify target
      (fun b => { b with preds := b.preds.add source })

/-- The graph of a list of edges, added in order. -/
def ofEdges (edges : List Edge) : Graph :=
  edges.foldl (fun g e => g.addEdge e.source e.target) empty

/-- Registers a block, which takes up the edges that the graph already has. A block with the
contents of the one registered under its number changes nothing; other contents are refused. -/
def addBlock (g : Graph) (b : Block) : Except GraphError Graph :=
  match g.blocks.get? b.id with
  | some known => if known.sameContents b then .ok g else .error (.duplicateBlock b.id)
  | none =>
    let linked := { b with
      succs := (g.successors b.id).foldl SortedSet.add b.succs
      preds := (g.predecessors b.id).foldl SortedSet.add b.preds }
    .ok { g with
      succs := g.succs.upsert b.id (·.getD [])
      blocks := g.blocks.insert b.id linked }

/-- Whether a node has no successors; unknown nodes have none. -/
def isLeaf (g : Graph) (n : BlockId) : Bool := (g.successors n).isEmpty

/-- Whether a number is an end of an edge or registered. -/
def hasNode (g : Graph) (n : BlockId) : Bool := g.succs.contains n

/-- The nodes in ascending order. -/
def nodes (g : Graph) : List BlockId := g.succs.keys

/-- The nodes without successors, in ascending order. -/
def leaves (g : Graph) : List BlockId := g.nodes.filter g.isLeaf

/-- The edges by ascending source, those of one source in order of insertion. -/
def edges (g : Graph) : List Edge :=
  g.succs.entries.flatMap (fun e => e.2.map (Edge.mk e.1))

/-- The block registered under a number. -/
def block? (g : Graph) (n : BlockId) : Option Block := g.blocks.get? n

/-- What the block registered under a number does to the stack. -/
def effect? (g : Graph) (n : BlockId) : Option StackEffect := (g.block? n).map (·.effect)

/-- The targets of all edges. -/
def targets (g : Graph) : List BlockId := g.edges.map (·.target)

/-- A node's successors are the targets of its edges. -/
theorem mem_edges_of_mem_successors {g : Graph} {n t : BlockId} (h : t ∈ g.successors n) :
    Edge.mk n t ∈ g.edges := by
  unfold successors at h
  cases hl : g.succs.get? n with
  | none => simp [hl] at h
  | some l =>
    have := SortedMap.mem_entries_iff.2 hl
    exact List.mem_flatMap.2 ⟨(n, l), this, List.mem_map.2 ⟨t, by simpa [hl] using h, rfl⟩⟩

/-- Every successor is an edge target. -/
theorem mem_targets_of_mem_successors {g : Graph} {n t : BlockId} (h : t ∈ g.successors n) :
    t ∈ g.targets :=
  List.mem_map.2 ⟨⟨n, t⟩, mem_edges_of_mem_successors h, rfl⟩

/-- A node has no more successors than there are edge targets. -/
theorem length_successors_le (g : Graph) (n : BlockId) :
    (g.successors n).length ≤ g.targets.length := by
  unfold successors
  cases hl : g.succs.get? n with
  | none => simp
  | some l =>
    have hmem := SortedMap.mem_entries_iff.2 hl
    have key : ∀ es : List (BlockId × List BlockId), (n, l) ∈ es →
        l.length ≤ (es.flatMap (fun e => e.2.map (Edge.mk e.1))).length := by
      intro es
      induction es with
      | nil => intro h; simp at h
      | cons e es ih =>
        intro h
        rcases List.mem_cons.1 h with rfl | h
        · simp
        · have := ih h
          simp only [List.flatMap_cons, List.length_append]
          omega
    simpa [targets, edges] using key g.succs.entries hmem

end Graph

end StackFlow
