import StackFlow.Block
import StackFlow.Distinct

/-!
# Paths

A path is a sequence of blocks. Collections of paths are lists whose order carries no meaning of
its own; `Paths.sorted` gives the canonical one, in which a path comes before its extensions.
-/

namespace StackFlow

/-- A sequence of blocks in the order in which control passes through them. -/
abbrev Path := List BlockId

/-- What only a path with blocks has. -/
inductive PathError where
  /-- The first block of an empty path. -/
  | noStart
  /-- The last block of an empty path. -/
  | noEnd
  deriving DecidableEq

/-- The text of a question to an empty path. -/
def PathError.message : PathError → String
  | .noStart => "an empty path has no first block"
  | .noEnd => "an empty path has no last block"

namespace Path

/-- The first block. -/
def start (p : Path) : Except PathError BlockId :=
  match p.head? with
  | some n => .ok n
  | none => .error .noStart

/-- The last block. -/
def ending (p : Path) : Except PathError BlockId :=
  match p.getLast? with
  | some n => .ok n
  | none => .error .noEnd

/-- The lexicographic order, a path before its extensions. -/
def before : Path → Path → Bool
  | [], [] => false
  | [], _ :: _ => true
  | _ :: _, [] => false
  | a :: p, b :: q => if a = b then before p q else a < b

/-- The text of a path. -/
def text (p : Path) : String := "[" ++ arrows p ++ "]"

/-- The beginnings of a path with at least two blocks, shortest first. -/
def arrivals (p : Path) : List Path := (List.range (p.length - 1)).map (fun i => p.take (i + 2))

end Path

/-- A collection of paths. -/
abbrev Paths := List Path

namespace Paths

/-- The paths in lexicographic order. -/
def sorted (ps : Paths) : Paths := ps.mergeSort (fun p q => !Path.before q p)

/-- Whether two collections have the same paths equally often. -/
def same (ps qs : Paths) : Bool := sorted ps == sorted qs

/-- The last block of each path. -/
def endings (ps : Paths) : Except PathError (List BlockId) := ps.mapM Path.ending

/-- The distinct last blocks in ascending order. -/
def ends (ps : Paths) : Except PathError (List BlockId) := do
  return (SortedSet.ofList (← endings ps)).toList

/-- The paths grouped by last block, each group in the order of the collection. -/
def byEnd (ps : Paths) : Except PathError (SortedMap BlockId Paths) :=
  ps.foldlM (fun groups p => do
    let n ← p.ending
    return groups.upsert n (·.getD [] ++ [p])) .empty

/-- The text of a collection in its own order. -/
def text (ps : Paths) : String := "\x7b" ++ ", ".intercalate (ps.map Path.text) ++ "\x7d"

end Paths

end StackFlow
