import StackFlow.CommandLine.Run

/-!
# The program

Reads files, the environment and the arguments, and writes what a run gives.
-/

open StackFlow.CommandLine

/-- The fault with a file behind an error of the system. -/
def faultOf : IO.Error → FileFault
  | .inappropriateType .. => .isDirectory
  | .resourceVanished .. | .invalidArgument .. => .notDirectory
  | _ => .missing

/-- The text of a file. -/
def readText (name : String) : IO (Except FileFault String) := do
  try
    return .ok (← IO.FS.readFile name)
  catch e => return .error (faultOf e)

/-- Opens a file for the log, which keeps what it holds. -/
def openForLog (name : String) : IO (Option FileFault) := do
  try
    let _ ← IO.FS.Handle.mk name .append
    return none
  catch e => return some (faultOf e)

/-- The entries of a log as lines. -/
def logText (entries : List StackFlow.LogEntry) : String :=
  String.join (entries.map fun e => s!"{e.level.name.toUpper}\t{e.message}\n")

/-- The surroundings of a process. -/
def surroundings (color : Bool) : Surroundings IO where
  fileText := readText
  environment? name := IO.getEnv name
  openLog := openForLog
  color := color

/-- Adds a text to a file. -/
def addText (name text : String) : IO Unit := do
  let file ← IO.FS.Handle.mk name .append
  file.putStr text

/-- Runs the program. -/
def main (args : List String) : IO UInt32 := do
  let out ← IO.getStdout
  let err ← IO.getStderr
  let r ← run (surroundings (← out.isTty)) args
  out.putStr r.output
  err.putStr (logText r.log)
  if r.logFile ≠ "" then addText r.logFile (logText r.log)
  err.putStr r.complaint
  return if r.error?.isSome then 1 else 0
