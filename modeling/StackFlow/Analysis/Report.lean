import StackFlow.Balance
import StackFlow.Convergence
import StackFlow.Loop
import StackFlow.Text

/-!
# Reports

What the analysis of one start block found: the loops that its paths do not follow, the paths, where
they converge, and the balance at each block where they meet.
-/

namespace StackFlow

/-- Why a block where paths meet has no balance. -/
inductive FailureCause where
  /-- The paths into it cannot be reconciled. -/
  | balance (error : BalanceError)
  /-- No balance could be chosen for it. -/
  | choice (error : MergeError)
  deriving DecidableEq

/-- The text of a cause. -/
def FailureCause.message : FailureCause → String
  | .balance e => e.message
  | .choice e => e.message

/-- A block where paths meet and that has no balance. -/
structure Failure where
  /-- The block. -/
  node : BlockId
  /-- Why it has none. -/
  cause : FailureCause
  deriving DecidableEq

/-- The text of a failure. -/
def Failure.message (f : Failure) : String :=
  s!"merge at block {decimal f.node}: {f.cause.message}"

/-- What was found from a start block. -/
structure Report where
  /-- The start block. -/
  start : BlockId
  /-- The edges back to a block on the way, in the order found. -/
  backEdges : List Edge
  /-- The loops that they close. -/
  loops : List Loop
  /-- The paths, in lexicographic order. -/
  paths : Paths
  /-- Whether there are more paths than the limit. -/
  truncated : Bool
  /-- Where the paths converge. -/
  convergence : Convergence
  /-- The blocks where paths meet, in ascending order. -/
  merges : List Merge
  /-- The balances chosen for ambiguous merges. -/
  resolved : SortedMap BlockId Balance
  /-- The blocks where paths meet and that have no balance. -/
  failures : List Failure

/-- Why a report is not clean. -/
inductive ReportError where
  /-- A block has no balance. -/
  | failure (f : Failure)
  /-- A block is ambiguous. -/
  | merge (e : MergeError)
  deriving DecidableEq

/-- The text of the complaint about a report. -/
def ReportError.message : ReportError → String
  | .failure f => f.message
  | .merge e => e.message

namespace Report

/-- The report of a start block from which nothing was found. -/
def empty (start : BlockId) : Report where
  start := start
  backEdges := []
  loops := []
  paths := []
  truncated := false
  convergence := ⟨none, []⟩
  merges := []
  resolved := .empty
  failures := []

/-- Whether the paths into a merge disagree and no balance was chosen. -/
def isOpen (r : Report) (m : Merge) : Bool := m.single?.isNone && !r.resolved.contains m.node

/-- The merges whose paths disagree and for which no balance was chosen. -/
def ambiguous (r : Report) : List BlockId := (r.merges.filter r.isOpen).map (·.node)

/-- The first failure, or else the complaint about the first open merge. -/
def error? (r : Report) : Option ReportError :=
  match r.failures with
  | f :: _ => some (.failure f)
  | [] => ((r.merges.find? r.isOpen).bind Merge.error?).map .merge

/-- The lines about a merge, with its paths if they disagree. -/
def mergeText (r : Report) (color : Bool) (m : Merge) : String :=
  let perPath := String.join (m.perPath.map fun b => s!"    {b.text}\n")
  match m.single?, r.resolved.get? m.node with
  | some _, _ => s!"  merge {Text.Style.green.apply color m.text}\n"
  | none, some b =>
    s!"  merge {Text.Style.yellow.apply color m.text} resolved to {b.text}\n" ++ perPath
  | none, none => s!"  merge {Text.Style.red.apply color m.text}\n" ++ perPath

/-- The report as text. -/
def text (r : Report) (color : Bool) : String :=
  let head := Text.Style.bold.apply color s!"start {decimal r.start}"
  let partly := Text.Style.yellow.apply color "path limit reached, results are partial"
  let back := Text.Style.cyan.apply color "back edge"
  let found : Text.Style := if r.convergence.node?.isSome then .green else .yellow
  s!"{head}\n  paths ({r.paths.length}):\n" ++
    String.join (r.paths.map fun p => s!"    {p.text}\n") ++
    (if r.truncated then s!"  {partly}\n" else "") ++
    String.join (r.backEdges.map fun e => s!"  {back} {e.text}\n") ++
    String.join (r.loops.map fun l => s!"  {Text.Style.cyan.apply color l.text}\n") ++
    s!"  {found.apply color r.convergence.text}\n" ++
    String.join (r.merges.map (r.mergeText color)) ++
    String.join (r.failures.map fun f => s!"  {Text.Style.red.apply color f.message}\n")

end Report

end StackFlow
