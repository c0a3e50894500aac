import StackFlow.CommandLine.Configuration
import StackFlow.Log

/-!
# Settings

What the flags and the configuration ask for.
-/

namespace StackFlow.CommandLine

/-- What the flags and the configuration ask for. -/
structure Settings where
  /-- The name of the graph document, or empty. -/
  graph : String
  /-- The bytecode, or the name of its file behind an at sign, or empty. -/
  bytecode : String
  /-- The name of the least level of the log. -/
  logLevel : String
  /-- The name of a file for the log, or empty. -/
  logFile : String
  /-- Whether colours are off. -/
  noColor : Bool
  /-- Whether a start block without paths is an error. -/
  strict : Bool
  /-- The number of paths to list for a start block, if positive. -/
  maxPaths : Int
  /-- Whether a block without one balance is an error. -/
  fail : Bool
  deriving DecidableEq

namespace Settings

/-- The settings of arguments. -/
def ofArguments (a : Arguments) : Settings :=
  let text (f : Flag) (default : String) := (a.value? f).getD default
  let truth (f : Flag) := ((a.value? f).bind truth?).getD false
  { graph := text .graph ""
    bytecode := text .bytecode ""
    logLevel := text .logLevel "warn"
    logFile := text .logFile ""
    noColor := truth .noColor
    strict := truth .strict
    maxPaths := ((a.value? .maxPaths).bind fun s => (wholeNumber s).toOption).getD 0
    fail := truth .fail }

/-- The least level of the log, if its name is known. -/
def level? (s : Settings) : Option LogLevel :=
  match s.logLevel.toLower with
  | "debug" => some .debug
  | "info" | "" => some .info
  | "warn" | "warning" => some .warn
  | "error" => some .error
  | _ => none

end Settings

/-- Adds values for the global flags that are not given; values that a flag does not take are left
out. -/
def Arguments.withDefaults (a : Arguments) (value? : Flag → Option String) : Arguments :=
  let added := Flag.globals.filterMap fun f =>
    if (a.value? f).isSome then none
    else ((value? f).filter fun s => (f.kind.refuses s).isNone).map fun s => (f, s)
  { a with flags := a.flags ++ added }

end StackFlow.CommandLine
