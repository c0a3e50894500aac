import StackFlow.Number.Integer
import StackFlow.SortedMap

/-!
# Basic blocks

A block is a straight line of instructions. It is known by a number, needs some items on the stack
on entry and changes the number of items by a fixed amount. Its predecessors, successors and
enclosing functions are sets of keys into a graph, not owned blocks.
-/

namespace StackFlow

/-- The number that names a block, typically its offset in the program. -/
abbrev BlockId := Int64

/-- The text of a block's number on its own. -/
def BlockId.text (n : BlockId) : String := "#" ++ decimal n

/-- The texts of a list of blocks, joined by arrows. -/
def arrows (ids : List BlockId) : String := " → ".intercalate (ids.map decimal)

/-- A control flow edge. Two edges with the same ends are the same edge. -/
structure Edge where
  /-- The block that control leaves. -/
  source : BlockId
  /-- The block that control enters. -/
  target : BlockId
  deriving DecidableEq

/-- The text of an edge. -/
def Edge.text (e : Edge) : String := arrows [e.source, e.target]

/-- What executing a block asks of the stack and does to it. -/
structure StackEffect where
  /-- The least number of items on entry. -/
  need : Int64
  /-- The change in the number of items. -/
  stack : Int64
  deriving DecidableEq

/-- A basic block with its relations. -/
structure Block where
  /-- The block's number. -/
  id : BlockId
  /-- What the block does to the stack. -/
  effect : StackEffect
  /-- The instructions in program order. -/
  instrs : List String
  /-- The blocks with an edge into this one. -/
  preds : SortedSet BlockId
  /-- The blocks this one has an edge to. -/
  succs : SortedSet BlockId
  /-- The names of the functions around the block. -/
  funcs : SortedSet String
  deriving DecidableEq

namespace Block

/-- A block without relations. -/
def new (id : BlockId) (effect : StackEffect) (instrs : List String) : Block :=
  ⟨id, effect, instrs, .empty, .empty, .empty⟩

/-- A leaf has no successor. -/
def isLeaf (b : Block) : Bool := b.succs.size == 0

/-- A shared block is part of more than one function. -/
def isShared (b : Block) : Bool := 1 < b.funcs.size

/-- Whether two blocks have the same contents, whatever their relations. -/
def sameContents (b c : Block) : Bool := b.effect == c.effect && b.instrs == c.instrs

/-- The block drawn as a box, an instruction a line. -/
def render (b : Block) : String :=
  let need := decimal b.effect.need
  let stack := signedDecimal b.effect.stack
  let top := s!"┌─ block {decimal b.id} (need:{need} stack:{stack})\n"
  top ++ String.join (b.instrs.map (fun i => s!"│ {i}\n")) ++ "└─"

end Block

end StackFlow
