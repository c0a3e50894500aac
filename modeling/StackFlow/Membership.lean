import StackFlow.Graph

/-!
# Function membership

Which functions enclose each block. Compilers share blocks between functions, and such shared
blocks are where the control flow of different functions meets.
-/

namespace StackFlow

/-- The names of the functions around each block. -/
structure Membership where
  /-- The names by block. -/
  funcs : SortedMap BlockId (SortedSet String)

namespace Membership

/-- No block is in any function. -/
def empty : Membership := ⟨.empty⟩

/-- Records that a block is part of a function. -/
def add (m : Membership) (n : BlockId) (name : String) : Membership :=
  ⟨m.funcs.upsert n (fun s => (s.getD .empty).add name)⟩

/-- Records that blocks are part of a function. -/
def addAll (m : Membership) (name : String) (ns : List BlockId) : Membership :=
  ns.foldl (fun m n => m.add n name) m

/-- The names of the functions around a block in ascending order, if any was recorded. -/
def names? (m : Membership) (n : BlockId) : Option (List String) :=
  (m.funcs.get? n).map SortedSet.toList

/-- The blocks in more than one function, in ascending order. -/
def shared (m : Membership) : List BlockId :=
  (m.funcs.entries.filter (fun e => 1 < e.2.size)).map (·.1)

/-- The number of blocks with a function. -/
def size (m : Membership) : Nat := m.funcs.size

/-- Adds each block's names to the block registered in a graph. -/
def apply (m : Membership) (g : Graph) : Graph :=
  { g with
    blocks := m.funcs.entries.foldl
      (fun blocks e => blocks.modify e.1 (fun b => { b with funcs := b.funcs.union e.2 }))
      g.blocks }

end Membership

end StackFlow
