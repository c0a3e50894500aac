import StackFlow.Search

/-!
# Convergence of paths

Whether the paths from a start block all end at one block, and the blocks on the way at which
different beginnings of paths meet.
-/

namespace StackFlow

/-- The outcome of a search for a common last block, with the paths that decided it. -/
structure Convergence where
  /-- The last block that all paths share. -/
  node? : Option BlockId
  /-- The paths. -/
  paths : Paths
  deriving DecidableEq

/-- Why convergence is not decided. -/
inductive ConvergenceError where
  /-- No path leaves the start block, where one is required. -/
  | noPaths (start : BlockId)
  /-- A path has no last block. -/
  | path (cause : PathError)
  deriving DecidableEq

/-- The text of a convergence error. -/
def ConvergenceError.message : ConvergenceError → String
  | .noPaths start => s!"start block {decimal start}: converge: no paths found"
  | .path cause => cause.message

namespace Convergence

/-- The outcome as text. -/
def text (c : Convergence) : String :=
  match c.node? with
  | none => s!"no converging node ({c.paths.length} paths)"
  | some n => s!"converge at {decimal n} ({c.paths.length} paths)"

/-- Whether all paths end at a block; the first that does not settles it. -/
def allEndAt (n : BlockId) : Paths → Except PathError Bool
  | [] => .ok true
  | p :: ps => do
    let m ← p.ending
    if m = n then allEndAt n ps else return false

/-- The common last block of a collection of paths, if it has one. -/
def ofPaths : Paths → Except PathError Convergence
  | [] => .ok ⟨none, []⟩
  | p :: ps => do
    let n ← p.ending
    return ⟨if ← allEndAt n ps then some n else none, p :: ps⟩

/-- The common last block of the paths from a start. In strict mode there has to be a path. -/
def conclude (strict : Bool) (start : BlockId) (ps : Paths) :
    Except ConvergenceError Convergence :=
  match ofPaths ps with
  | .error e => .error (.path e)
  | .ok c => if strict && c.paths.isEmpty then .error (.noPaths start) else .ok c

end Convergence

/-- The common last block of the paths from a start block, in the order in which a search finds
them. -/
def Graph.convergenceWith (g : Graph) (order : CandidateOrder) (strict : Bool) (start : BlockId) :
    Except ConvergenceError Convergence :=
  Convergence.conclude strict start (g.pathsWith order start)

/-- The common last block of the paths from a start block. -/
def Graph.convergence (g : Graph) (strict : Bool) (start : BlockId) :
    Except ConvergenceError Convergence :=
  g.convergenceWith .insertion strict start

namespace Paths

/-- The distinct beginnings, of at least two blocks, of a collection's paths, in lexicographic
order. -/
def arrivals (ps : Paths) : Paths := dropRepeats (sorted (ps.flatMap Path.arrivals))

/-- The distinct beginnings that end at a block, in lexicographic order. -/
def pathsTo (ps : Paths) (n : BlockId) : Paths :=
  (arrivals ps).filter (fun p => p.getLast? = some n)

/-- The blocks at which at least two distinct beginnings end, in ascending order. -/
def mergeNodes (ps : Paths) : List BlockId :=
  let ends := (arrivals ps).filterMap (·.getLast?)
  (SortedSet.ofList ends).toList.filter (fun n => 1 < ends.count n)

end Paths

end StackFlow
