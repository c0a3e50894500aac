import StackFlow.Analysis
import StackFlow.Bytecode.Program
import StackFlow.CommandLine.Command
import StackFlow.CommandLine.Settings
import StackFlow.GraphDocument.Read
import StackFlow.GraphDocument.Write

/-!
# Running a command

The arguments are read first, then the configuration, then the number of arguments is checked, the
log opened, the graph loaded, and last the numbers of blocks are read. The first fault on this way
is reported.
-/

namespace StackFlow.CommandLine

/-- Why a file cannot be used. -/
inductive FileFault where
  | missing
  | notDirectory
  | isDirectory
  deriving DecidableEq

/-- The text of a fault. -/
def FileFault.reason : FileFault → String
  | .missing => "no such file or directory"
  | .notDirectory => "not a directory"
  | .isDirectory => "is a directory"

/-- The text of a fault with a file that cannot be opened, or read if it is a directory. -/
def FileFault.message (name : String) (f : FileFault) : String :=
  if f = .isDirectory then s!"read {name}: {f.reason}" else s!"open {name}: {f.reason}"

/-- What a run has around it. -/
structure Surroundings (m : Type → Type) where
  /-- The text of a file. -/
  fileText : String → m (Except FileFault String)
  /-- The value of an environment variable. -/
  environment? : String → m (Option String)
  /-- Opens a file for the log. -/
  openLog : String → m (Option FileFault)
  /-- Whether texts may be coloured. -/
  color : Bool
  /-- The order in which a search tries the successors of a path's end. -/
  order : CandidateOrder := .insertion

/-- Why a command fails. -/
inductive CommandError where
  /-- The arguments do not fit. -/
  | usage (error : UsageError)
  /-- The configuration file cannot be opened. -/
  | configurationFile (name : String) (fault : FileFault)
  /-- The configuration file cannot be read. -/
  | configuration (error : Yaml.ReadError)
  /-- There is no level of the log of a name. -/
  | logLevel (name : String)
  /-- The file for the log cannot be opened. -/
  | logFile (name : String) (fault : FileFault)
  /-- There is nothing to work on. -/
  | noInput
  /-- There are two things to work on. -/
  | manyInputs
  /-- A graph document cannot be opened. -/
  | documentFile (name : String) (fault : FileFault)
  /-- A graph document cannot be read. -/
  | document (name : String) (error : DocumentError)
  /-- A graph document makes no graph. -/
  | build (error : BuildError)
  /-- A file of bytecode cannot be read. -/
  | bytecodeFile (name : String) (fault : FileFault)
  /-- The bytecode is refused. -/
  | bytecode (error : BytecodeError)
  /-- The blocks of the bytecode make no graph. -/
  | graph (error : GraphError)
  /-- An argument is no number of a block. -/
  | block (word : String)
  /-- Convergence is not decided. -/
  | convergence (error : ConvergenceError)
  /-- The paths into a block cannot be reconciled. -/
  | balance (error : BalanceError)
  /-- The paths into a block disagree. -/
  | merge (error : MergeError)
  /-- The analysis ended early. -/
  | analysis (error : AnalysisError)
  /-- A report is not clean. -/
  | report (error : ReportError)
  /-- A source file cannot be opened. -/
  | source (name : String) (fault : FileFault)
  /-- Source files are not analysed. -/
  | sourceAnalysis

/-- The text of a failed command. -/
def CommandError.message : CommandError → String
  | .usage e => e.message
  | .configurationFile name fault => fault.message name
  | .configuration e => e.message
  | .logLevel name =>
    s!"unknown log level {Text.quote name} (expected debug, info, warn, or error)"
  | .logFile name fault => s!"open sink {Text.quote name}: open {name}: {fault.reason}"
  | .noInput => "no input, use --graph or --bytecode"
  | .manyInputs => "--graph and --bytecode cannot be used together"
  | .documentFile name .isDirectory =>
    s!"graphfile: cannot load {name}: graphfile: invalid document: yaml: input error: " ++
      FileFault.isDirectory.message name
  | .documentFile name fault => s!"graphfile: cannot open {name}: {fault.message name}"
  | .document name e => s!"graphfile: cannot load {name}: {e.message}"
  | .build e => e.message
  | .bytecodeFile name fault => s!"cannot read bytecode: {fault.message name}"
  | .bytecode e => e.message
  | .graph e => e.message
  | .block word => s!"invalid block {Text.quote word}"
  | .convergence e => e.message
  | .balance e => e.message
  | .merge e => e.message
  | .analysis e => e.message
  | .report e => e.message
  | .source name fault => s!"ssa: failed to parse file: {name}: {fault.message name}"
  | .sourceAnalysis => "ssa: source files cannot be analysed"

/-- What a run gives: its output, why it failed, and the entries of its log. -/
structure Response where
  /-- The output. -/
  output : String
  /-- Why the command failed. -/
  error? : Option CommandError
  /-- The entries of the log. -/
  log : List LogEntry
  /-- The name of a file that the log goes to as well, or empty. -/
  logFile : String

namespace Response

/-- A run that wrote a text. -/
def wrote (s : String) : Response := ⟨s, none, [], ""⟩

/-- A run that failed before it wrote anything. -/
def failed (e : CommandError) : Response := ⟨"", some e, [], ""⟩

/-- What is written about the failure. -/
def complaint (r : Response) : String :=
  match r.error? with
  | some e => s!"Error: {e.message}\n"
  | none => ""

end Response

/-! ## The work of the commands -/

/-- The graph that a command works on, the functions around its blocks, and the log of loading it.
-/
structure Input where
  /-- The graph. -/
  graph : Graph
  /-- The functions around each block. -/
  members : Membership
  /-- The entries of the log. -/
  log : List LogEntry

/-- The graph of bytecode. -/
def Input.ofBytecode (hex : String) : Except CommandError Input :=
  match Program.ofHex hex with
  | .error e => .error (.bytecode e)
  | .ok p =>
    match p.graph with
    | .error e => .error (.graph e)
    | .ok g =>
      let m := p.membership g
      .ok ⟨m.apply g, m, p.events.map fun e => ⟨.debug, e.message⟩⟩

/-- The graph of the text of a document. -/
def Input.ofDocument (name text : String) : Except CommandError Input :=
  match GraphDocument.read text with
  | .error e => .error (.document name e)
  | .ok d =>
    match d.build with
    | .error e => .error (.build e)
    | .ok (g, m) => .ok ⟨g, m, []⟩

/-- The number of a block in an argument. -/
def blockOf (word : String) : Except CommandError BlockId :=
  match Number.readInteger (some 10) word.toList with
  | .ok n => .ok (Int64.ofInt n)
  | .error _ => .error (.block word)

/-- Lists the paths from a start block up to the limit. -/
def listPaths (order : CandidateOrder) (s : Settings) (g : Graph) (start : BlockId) : Response :=
  let emit (found : Paths) (p : Path) : Paths × Bool :=
    (found ++ [p], s.maxPaths ≤ 0 || (found.length : Int) + 1 < s.maxPaths)
  let found := (g.searchWith order start emit []).state
  if s.strict && found.isEmpty then .failed (.convergence (.noPaths start))
  else .wrote (String.join (found.map fun p => p.text ++ "\n"))

/-- Shows where the paths from a start block converge, or else the paths. -/
def showConvergence (order : CandidateOrder) (s : Settings) (color : Bool) (g : Graph)
    (start : BlockId) : Response :=
  match g.convergenceWith order s.strict start with
  | .error e => .failed (.convergence e)
  | .ok c =>
    if c.node?.isSome then .wrote (Text.Style.green.apply color c.text ++ "\n")
    else
      .wrote (Text.Style.yellow.apply color c.text ++ "\n" ++
        String.join (c.paths.sorted.map fun p => s!"  {p.text}\n"))

/-- Shows the balances of the paths from a start block into another. -/
def showBalance (order : CandidateOrder) (color : Bool) (g : Graph) (start node : BlockId) :
    Response :=
  match Merge.ofPaths g.effect? node ((g.pathsWith order start).pathsTo node) with
  | .error e => .failed (.balance e)
  | .ok m =>
    let lines := String.join (m.perPath.map fun b => b.text ++ "\n")
    let common := if m.single?.isSome then Text.Style.green.apply color m.text ++ "\n" else ""
    ⟨lines ++ common, m.error?.map .merge, [], ""⟩

/-- Shows the reports on start blocks. -/
def showAnalysis (order : CandidateOrder) (s : Settings) (color : Bool) (input : Input)
    (starts : List BlockId) : Response :=
  let a : Analysis := { Analysis.default with
    starts := starts
    strict := s.strict
    limit := s.maxPaths
    members := some input.members
    order := order }
  let o := a.run input.graph
  match o.result with
  | .error e => ⟨"", some (.analysis e), o.log color, ""⟩
  | .ok rs =>
    let complaint := if s.fail then rs.findSome? Report.error? else none
    ⟨o.text color, complaint.map .report, o.log color, ""⟩

/-- The work of a command on a graph, whose searches try candidates in a given order. -/
def perform (order : CandidateOrder) (c : Command) (s : Settings) (color : Bool)
    (words : List String) (input : Input) : Response :=
  if c = .graph then .wrote (GraphDocument.ofGraph input.graph).text
  else
    match words.mapM blockOf with
    | .error e => .failed e
    | .ok ids =>
      match c, ids with
      | .paths, [start] => listPaths order s input.graph start
      | .converge, [start] => showConvergence order s color input.graph start
      | .balance, [start, node] => showBalance order color input.graph start node
      | .analyse, starts => showAnalysis order s color input starts
      | _, _ => .wrote ""

/-! ## The way to the work -/

variable {m : Type → Type} [Monad m]

/-- The names of the configuration files that are looked for. -/
def configurationNames (w : Surroundings m) : m (List String) := do
  let below (directory : Option String) (path : String) : List String :=
    match directory with
    | some d => if d = "" then [] else [s!"{d}/{path}"]
    | none => []
  let shared ← w.environment? "XDG_CONFIG_HOME"
  let home ← w.environment? "HOME"
  return below shared "cfgpath/cfgpath.yaml" ++ below home ".config/cfgpath/cfgpath.yaml"

/-- The text of the first of some files that is there. -/
def firstText? (w : Surroundings m) : List String → m (Option String)
  | [] => return none
  | n :: ns => do
    match ← w.fileText n with
    | .ok text => return some text
    | .error _ => firstText? w ns

/-- The text of the configuration file: the one that the environment names, which must be there, or
else the first of those that are looked for. -/
def configurationText (w : Surroundings m) : m (Except CommandError (Option String)) := do
  match (← w.environment? "CFGPATH_CONFIG").filter (· ≠ "") with
  | some name =>
    match ← w.fileText name with
    | .ok text => return .ok (some text)
    | .error fault => return .error (.configurationFile name fault)
  | none => return .ok (← firstText? w (← configurationNames w))

/-- The values of the global flags in the environment. -/
def environmentValues (w : Surroundings m) : List Flag → m (List (Flag × String))
  | [] => return []
  | f :: fs => do
    let rest ← environmentValues w fs
    match (← w.environment? (variableOf f)).filter (· ≠ "") with
    | some s => return (f, s) :: rest
    | none => return rest

/-- Completes arguments from the environment and the configuration file. -/
def configure (w : Surroundings m) (a : Arguments) : m (Except CommandError Arguments) := do
  match ← configurationText w with
  | .error e => return .error e
  | .ok text? =>
    match Configuration.read (text?.getD "") with
    | .error e => return .error (.configuration e)
    | .ok c =>
      let values ← environmentValues w Flag.globals
      return .ok (a.withDefaults fun f => (values.lookup f).orElse fun _ => c.value? f)

/-- Opens the log. -/
def openLog (w : Surroundings m) (s : Settings) : m (Except CommandError LogLevel) := do
  match s.level? with
  | none => return .error (.logLevel s.logLevel)
  | some level =>
    if s.logFile = "" then return .ok level
    else
      match ← w.openLog s.logFile with
      | some fault => return .error (.logFile s.logFile fault)
      | none => return .ok level

/-- Loads the graph to work on. -/
def loadInput (w : Surroundings m) (s : Settings) : m (Except CommandError Input) := do
  if s.graph ≠ "" && s.bytecode ≠ "" then return .error .manyInputs
  else if s.graph ≠ "" then
    match ← w.fileText s.graph with
    | .error fault => return .error (.documentFile s.graph fault)
    | .ok text => return Input.ofDocument s.graph text
  else if s.bytecode ≠ "" then
    match s.bytecode.toList with
    | '@' :: name =>
      match ← w.fileText (String.ofList name) with
      | .error fault => return .error (.bytecodeFile (String.ofList name) fault)
      | .ok text => return Input.ofBytecode text
    | _ => return Input.ofBytecode s.bytecode
  else return .error .noInput

/-- Looks for the source files of a command that analyses them. -/
def findSources (w : Surroundings m) : List String → m CommandError
  | [] => return .sourceAnalysis
  | n :: ns => do
    match ← w.fileText n with
    | .error fault => return .source n fault
    | .ok _ => findSources w ns

/-- Runs a command whose flags are read. -/
def runCommand (w : Surroundings m) (c : Command) (a : Arguments) : m Response := do
  match ← configure w a with
  | .error e => return .failed e
  | .ok a =>
    match c.checkWords a.words with
    | .error e => return .failed (.usage e)
    | .ok () =>
      let s := Settings.ofArguments a
      match ← openLog w s with
      | .error e => return .failed e
      | .ok level =>
        if c = .ssa then return .failed (← findSources w a.words)
        else
          match ← loadInput w s with
          | .error e => return .failed e
          | .ok input =>
            let r := perform w.order c s (w.color && !s.noColor) a.words input
            let log := (input.log ++ r.log).filter (·.level.atLeast level)
            return { r with log := log, logFile := s.logFile }

/-- Runs the command that arguments name. Without a command, or with one that shows how to use the
program, nothing is done. -/
def run (w : Surroundings m) (args : List String) : m Response := do
  match selectCommand args with
  | .error e => return .failed (.usage e)
  | .ok (c?, args) =>
    let known := (c?.map Command.flags).getD (Flag.globals ++ [.help])
    match Arguments.empty.read known args with
    | .error e => return .failed (.usage (.flag e))
    | .ok a =>
      match c? with
      | none | some .help | some .completion => return .wrote ""
      | some c =>
        if ((a.value? .help).bind truth?).getD false then return .wrote ""
        else runCommand w c a

end StackFlow.CommandLine
