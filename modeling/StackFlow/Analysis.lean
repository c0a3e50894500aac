import StackFlow.Analysis.Report
import StackFlow.Log
import StackFlow.Membership

/-!
# Analysis of a graph

Each start block is analysed on its own: its loops are found, its paths listed up to a limit, and
the balances reconciled at every block where paths meet. What happens on the way is kept as events
for a log.
-/

namespace StackFlow

/-- What is to be analysed, and how. -/
structure Analysis where
  /-- The start blocks; without any they are taken from the graph. -/
  starts : List BlockId
  /-- Whether a start block without paths ends the analysis. -/
  strict : Bool
  /-- The number of paths to list for a start block, if positive. -/
  limit : Int
  /-- The choice among the balances at an ambiguous merge. -/
  policy : Option Policy
  /-- The functions around each block. -/
  members : Option Membership
  /-- The order in which the successors of a path's end are tried. -/
  order : CandidateOrder

/-- What happens in the course of an analysis. -/
inductive AnalysisEvent where
  /-- The analysis of a start block begins. -/
  | enter (start : BlockId)
  /-- The start block is not in the graph. -/
  | unknownStart (start : BlockId)
  /-- A step of the search for loops. -/
  | walk (event : WalkEvent)
  /-- Paths do not follow an edge. -/
  | cut (edge : Edge)
  /-- There are more paths than the limit. -/
  | limitReached (limit : Int) (start : BlockId)
  /-- Where the paths converge is decided. -/
  | concluded (start : BlockId) (convergence : Convergence)
  /-- The paths into a block cannot be reconciled. -/
  | irreconcilable (node : BlockId) (error : BalanceError)
  /-- The paths into a block agree. -/
  | agreed (merge : Merge)
  /-- The paths into a block disagree, and there is no policy. -/
  | disagreed (merge : Merge)
  /-- A balance was chosen for a block. -/
  | chosen (node : BlockId) (balance : Balance)
  /-- The analysis of a start block is done. -/
  | leave (start : BlockId)
  /-- The analysis is done. -/
  | finished (count : Nat)

namespace AnalysisEvent

/-- The level of an event in the log. -/
def level : AnalysisEvent → LogLevel
  | .unknownStart _ | .limitReached _ _ | .disagreed _ => .warn
  | .irreconcilable _ _ | .finished _ => .info
  | _ => .debug

/-- The text of an event behind the name of the part of the program that it happens in. -/
def message (part : String) : AnalysisEvent → String
  | .enter n => s!"{part} Enter {BlockId.text n}"
  | .unknownStart n => s!"{part} Start {BlockId.text n} not in graph"
  | .walk e => s!"{part} {e.message}"
  | .cut e => s!"{part} Cut back edge {e.text}"
  | .limitReached limit n => s!"{part} Path limit {limit} reached from {BlockId.text n}"
  | .concluded n c => s!"{part} {BlockId.text n} {c.text}"
  | .irreconcilable n e => s!"{part} Merge {BlockId.text n}: {e.message}"
  | .agreed m | .disagreed m => s!"{part} Merge {m.text}"
  | .chosen n b => s!"{part} Merge {BlockId.text n} resolved to {b.text}"
  | .leave n => s!"{part} Exit {BlockId.text n}"
  | .finished count => s!"analysed {count} start blocks"

/-- The entry of an event in the log. -/
def entry (color : Bool) (e : AnalysisEvent) : LogEntry :=
  ⟨e.level, e.message (Text.Style.green.apply color "start")⟩

end AnalysisEvent

/-- Why an analysis ends early. -/
inductive AnalysisError where
  /-- A start block is not in the graph. -/
  | unknownStart (start : BlockId)
  /-- Convergence is not decided. -/
  | convergence (error : ConvergenceError)
  deriving DecidableEq

/-- The text of an early end. -/
def AnalysisError.message : AnalysisError → String
  | .unknownStart n => s!"block {decimal n}: start block not in graph"
  | .convergence e => e.message

/-- What came of an analysis. -/
structure Outcome where
  /-- The reports of the start blocks before the one that ended it, or of all. -/
  reports : List Report
  /-- Why it ended early. -/
  error? : Option AnalysisError
  /-- What happened. -/
  events : List AnalysisEvent

namespace Outcome

/-- The reports of all start blocks; if the analysis ended early there are none. -/
def result (o : Outcome) : Except AnalysisError (List Report) :=
  match o.error? with
  | some e => .error e
  | none => .ok o.reports

/-- The reports as text. -/
def text (o : Outcome) (color : Bool) : String := String.join (o.reports.map (·.text color))

/-- The entries of the log. -/
def log (o : Outcome) (color : Bool) : List LogEntry := o.events.map (·.entry color)

end Outcome

namespace Analysis

/-- An analysis of what the graph and the functions suggest. -/
def default : Analysis := ⟨[], false, 0, none, none, .insertion⟩

/-- The blocks of a graph without predecessors. -/
def roots (g : Graph) : List BlockId := g.nodes.filter fun n => (g.predecessors n).isEmpty

/-- The blocks that are part of several functions. -/
def sharedBlocks (a : Analysis) : List BlockId := (a.members.map Membership.shared).getD []

/-- The start blocks: the given ones, or else those that are part of several functions, or else
those without predecessors, or else the lowest block. -/
def startBlocks (a : Analysis) (g : Graph) : List BlockId :=
  if !a.starts.isEmpty then a.starts
  else if !a.sharedBlocks.isEmpty then a.sharedBlocks
  else if !(roots g).isEmpty then roots g
  else g.nodes.take 1

/-- The paths from a start block in the order found, one more than the limit if there are more, and
whether these are all. -/
def search (a : Analysis) (g : Graph) (start : BlockId) : Paths × Bool :=
  let r := g.searchWith a.order start
    (fun (found : Paths) p => (found ++ [p], a.limit ≤ 0 || (found.length : Int) + 1 ≤ a.limit)) []
  (r.state, r.complete)

/-- Reconciles the paths into a block where they meet. -/
def reconcile (a : Analysis) (g : Graph) (r : Report) (node : BlockId) :
    Report × List AnalysisEvent :=
  match Merge.ofPaths g.effect? node (r.paths.pathsTo node) with
  | .error e =>
    ({ r with failures := r.failures ++ [⟨node, .balance e⟩] }, [.irreconcilable node e])
  | .ok m =>
    let r := { r with merges := r.merges ++ [m] }
    match m.single?, a.policy with
    | some _, _ => (r, [.agreed m])
    | none, none => (r, [.disagreed m])
    | none, some policy =>
      match m.resolve (some policy) with
      | .error e => ({ r with failures := r.failures ++ [⟨node, .choice e⟩] }, [])
      | .ok b => ({ r with resolved := r.resolved.insert node b }, [.chosen node b])

/-- Reconciles the paths into several blocks in turn. -/
def reconcileAll (a : Analysis) (g : Graph) :
    Report → List BlockId → Report × List AnalysisEvent
  | r, [] => (r, [])
  | r, n :: ns =>
    let (r, first) := a.reconcile g r n
    let (r, rest) := a.reconcileAll g r ns
    (r, first ++ rest)

/-- The analysis of one start block, and what happened. -/
def report (a : Analysis) (g : Graph) (start : BlockId) :
    Except AnalysisError Report × List AnalysisEvent :=
  if !g.hasNode start then
    if a.strict then (.error (.unknownStart start), [.enter start])
    else (.ok (.empty start), [.enter start, .unknownStart start])
  else
    let loops := LoopDetector.empty.detect g start
    let (found, complete) := a.search g start
    let paths := (if complete then found else found.take a.limit.toNat).sorted
    let before := .enter start :: loops.events.map .walk ++ loops.found.map .cut ++
      (if complete then [] else [.limitReached a.limit start])
    match Convergence.conclude a.strict start paths with
    | .error e => (.error (.convergence e), before)
    | .ok c =>
      let r := { Report.empty start with
        backEdges := loops.found
        loops := loops.detector.allLoops
        paths := paths
        truncated := !complete
        convergence := c }
      let (r, after) := a.reconcileAll g r paths.mergeNodes
      (.ok r, before ++ .concluded start c :: after ++ [.leave start])

/-- Analyses start blocks in turn until there is an error. -/
def reports (a : Analysis) (g : Graph) : List BlockId → Outcome
  | [] => ⟨[], none, []⟩
  | n :: ns =>
    match a.report g n with
    | (.error e, events) => ⟨[], some e, events⟩
    | (.ok r, events) =>
      let rest := a.reports g ns
      ⟨r :: rest.reports, rest.error?, events ++ rest.events⟩

/-- Analyses all start blocks. -/
def run (a : Analysis) (g : Graph) : Outcome :=
  let o := a.reports g (a.startBlocks g)
  match o.error? with
  | some _ => o
  | none => { o with events := o.events ++ [.finished o.reports.length] }

end Analysis

end StackFlow
