import StackFlow.CommandLine.Flag
import StackFlow.Text

/-!
# Commands

The first argument that is neither a flag nor the value of one names the command. Commands that are
spelled in a similar way are suggested for an unknown name.
-/

namespace StackFlow.CommandLine

/-- The commands. -/
inductive Command where
  | paths
  | converge
  | balance
  | analyse
  | graph
  | ssa
  | completion
  | help
  deriving DecidableEq

namespace Command

/-- The name of a command. -/
def name : Command → String
  | .paths => "paths"
  | .converge => "converge"
  | .balance => "balance"
  | .analyse => "analyse"
  | .graph => "graph"
  | .ssa => "ssa"
  | .completion => "completion"
  | .help => "help"

/-- The commands that are suggested, in the order in which they are. -/
def suggested : List Command := [.paths, .converge, .balance, .analyse, .graph, .ssa, .completion]

/-- The command of a name. -/
def ofName? (s : String) : Option Command :=
  if s = "analyze" then some .analyse
  else (suggested ++ [Command.help]).find? fun c => c.name == s

/-- The flags of a command. -/
def flags : Command → List Flag
  | .analyse => Flag.globals ++ [.fail, .help]
  | .ssa => Flag.globals ++ [.package, .function, .dump, .help]
  | _ => Flag.globals ++ [.help]

/-- Whether a name is spelled like that of a command: by at most two changes, or by the letters that
it begins with, both without regard to case. -/
def isLike (c : Command) (s : String) : Bool :=
  Text.distance s.toLower.toUTF8.toList c.name.toUTF8.toList ≤ 2 ||
    s.toLower.toList.isPrefixOf c.name.toList

/-- The commands that are spelled like a name. -/
def like (s : String) : List Command := suggested.filter (·.isLike s)

end Command

/-- The name of the program. -/
def program : String := "cfgpath"

/-- Why the arguments do not fit a command. -/
inductive UsageError where
  /-- There is no command of a name. -/
  | unknownCommand (name : String)
  /-- The flags are not understood. -/
  | flag (error : FlagError)
  /-- Another number of arguments is wanted. -/
  | count (wanted received : Nat)
  /-- More arguments are wanted. -/
  | atLeast (wanted received : Nat)
  /-- No arguments are wanted. -/
  | superfluous (command : Command) (word : String)
  deriving DecidableEq

/-- The text of a complaint about arguments. -/
def UsageError.message : UsageError → String
  | .unknownCommand name =>
    let lines := String.join ((Command.like name).map fun c => s!"\t{c.name}\n")
    let question := if lines = "" then "" else s!"\n\nDid you mean this?\n{lines}"
    s!"unknown command {Text.quote name} for {Text.quote program}{question}"
  | .flag e => e.message
  | .count wanted received => s!"accepts {wanted} arg(s), received {received}"
  | .atLeast wanted received => s!"requires at least {wanted} arg(s), only received {received}"
  | .superfluous command word =>
    let whole := s!"{program} {command.name}"
    s!"unknown command {Text.quote word} for {Text.quote whole}"

/-- Whether an argument is a flag whose value is the next argument. -/
def takesNext (s : String) : Bool :=
  match s.toList with
  | '-' :: '-' :: cs =>
    !cs.contains '=' &&
      !Flag.globals.any fun f => f.kind == .truth && f.name == String.ofList cs
  | ['-', c] =>
    c != '=' && c.toNat < 0x80 &&
      !Flag.globals.any fun f => f.kind == .truth && f.letter? == some c
  | _ => false

/-- Whether an argument begins with a hyphen. -/
def isSwitch (s : String) : Bool := s.toList.head? == some '-'

/-- The arguments that are neither flags nor their values. A flag at the end that lacks its value
ends them, as does one whose value is the last argument. -/
def plainWords : List String → List String
  | [] => []
  | s :: args =>
    if s = "--" then []
    else if takesNext s then
      match args with
      | _ :: arg :: rest => plainWords (arg :: rest)
      | _ => []
    else if s ≠ "" && !isSwitch s then s :: plainWords args
    else plainWords args

/-- The arguments without the first one that is a given word and neither a flag nor its value. -/
def withoutWord (w : String) : List String → List String
  | [] => []
  | s :: args =>
    if s = "--" then s :: args
    else if takesNext s then
      match args with
      | [] => [s]
      | v :: rest => s :: v :: withoutWord w rest
    else if s = w then args
    else s :: withoutWord w args

/-- The command that arguments name, if any, and the arguments without its name. -/
def selectCommand (args : List String) : Except UsageError (Option Command × List String) :=
  match plainWords args with
  | [] => .ok (none, args)
  | w :: _ =>
    match Command.ofName? w with
    | some c => .ok (some c, withoutWord w args)
    | none => .error (.unknownCommand w)

/-- Complains if the number of words is not what a command wants. -/
def Command.checkWords (c : Command) (words : List String) : Except UsageError Unit :=
  let exactly (n : Nat) : Except UsageError Unit :=
    if words.length = n then .ok () else .error (.count n words.length)
  match c with
  | .paths | .converge => exactly 1
  | .balance => exactly 2
  | .graph =>
    match words with
    | [] => .ok ()
    | w :: _ => .error (.superfluous c w)
  | .ssa => if words.isEmpty then .error (.atLeast 1 0) else .ok ()
  | .analyse | .completion | .help => .ok ()

end StackFlow.CommandLine
