import StackFlow.Number.Integer
import StackFlow.Text

/-!
# Flags

Flags stand anywhere among the arguments, until `--`. A long flag has its value behind an equals
sign or in the next argument; a short one directly behind it, too. Flags for truth values need no
value. Of a flag that is given several times the last value counts.
-/

namespace StackFlow.CommandLine

/-- The values that a flag takes. -/
inductive FlagKind where
  | text
  | truth
  | integer
  deriving DecidableEq

/-- The flags. -/
inductive Flag where
  | graph
  | bytecode
  | logLevel
  | logFile
  | noColor
  | strict
  | maxPaths
  | fail
  | package
  | function
  | dump
  | help
  deriving DecidableEq

namespace Flag

/-- The name of a flag. -/
def name : Flag → String
  | .graph => "graph"
  | .bytecode => "bytecode"
  | .logLevel => "log-level"
  | .logFile => "log-file"
  | .noColor => "no-color"
  | .strict => "strict"
  | .maxPaths => "max-paths"
  | .fail => "fail"
  | .package => "pkg"
  | .function => "func"
  | .dump => "dump"
  | .help => "help"

/-- The letter of a flag. -/
def letter? : Flag → Option Char
  | .graph => some 'g'
  | .bytecode => some 'b'
  | .help => some 'h'
  | _ => none

/-- The values that a flag takes. -/
def kind : Flag → FlagKind
  | .noColor | .strict | .fail | .dump | .help => .truth
  | .maxPaths => .integer
  | _ => .text

/-- The flags of all commands. -/
def globals : List Flag :=
  [.graph, .bytecode, .logLevel, .logFile, .noColor, .strict, .maxPaths]

/-- A flag as a message names it. -/
def shown (f : Flag) : String :=
  match f.letter? with
  | some c => s!"-{c}, --{f.name}"
  | none => s!"--{f.name}"

end Flag

/-- Why a text is not a value of a flag. -/
inductive ValueError where
  /-- It is no truth value. -/
  | truth
  /-- It is no integer. -/
  | integer (error : Number.NumberError)
  deriving DecidableEq

/-- The text of a refused value. -/
def ValueError.message (value : String) : ValueError → String
  | .truth => s!"strconv.ParseBool: parsing {Text.quote value}: invalid syntax"
  | .integer .form => s!"strconv.ParseInt: parsing {Text.quote value}: invalid syntax"
  | .integer .range => s!"strconv.ParseInt: parsing {Text.quote value}: value out of range"

/-- The truth value of a text. -/
def truth? : String → Option Bool
  | "1" | "t" | "T" | "true" | "TRUE" | "True" => some true
  | "0" | "f" | "F" | "false" | "FALSE" | "False" => some false
  | _ => none

/-- The integer of a text; its base may be given by how it begins. -/
def wholeNumber (s : String) : Except Number.NumberError Int := Number.readInteger none s.toList

/-- Why a text is not a value of a kind. -/
def FlagKind.refuses (k : FlagKind) (value : String) : Option ValueError :=
  match k with
  | .text => none
  | .truth => if (truth? value).isSome then none else some .truth
  | .integer =>
    match wholeNumber value with
    | .ok _ => none
    | .error e => some (.integer e)

/-- Why arguments are not understood. -/
inductive FlagError where
  /-- A long flag has no name. -/
  | malformed (argument : String)
  /-- There is no flag of a name. -/
  | unknown (name : String)
  /-- There is no flag of the first letter of some letters. -/
  | unknownLetter (letters : List Char)
  /-- A flag has no value. -/
  | noValue (name : String)
  /-- The flag of the first of some letters has no value. -/
  | noLetterValue (letters : List Char)
  /-- The value of a flag is refused. -/
  | value (flag : Flag) (given : String) (error : ValueError)
  deriving DecidableEq

/-- The character that a message shows for the first of some letters. Letters beyond ASCII are all
shown as one, by the octet that their octets begin with when they are taken for characters. -/
def shownLetter (letters : List Char) : String :=
  match letters with
  | [] => Text.quoteChar (Char.ofNat 0)
  | c :: _ => Text.quoteChar (if c.toNat < 0x80 then c else Char.ofNat 0xc3)

/-- The text of a complaint about flags. -/
def FlagError.message : FlagError → String
  | .malformed argument => s!"bad flag syntax: {argument}"
  | .unknown name => s!"unknown flag: --{name}"
  | .unknownLetter letters =>
    s!"unknown shorthand flag: {shownLetter letters} in -{String.ofList letters}"
  | .noValue name => s!"flag needs an argument: --{name}"
  | .noLetterValue letters =>
    s!"flag needs an argument: {shownLetter letters} in -{String.ofList letters}"
  | .value flag given error =>
    let shown := Text.quote flag.shown
    s!"invalid argument {Text.quote given} for {shown} flag: {error.message given}"

/-- The flags and the other arguments of a command line. -/
structure Arguments where
  /-- The flags with their values, the last first. -/
  flags : List (Flag × String)
  /-- The other arguments in order. -/
  words : List String

namespace Arguments

/-- No arguments. -/
def empty : Arguments := ⟨[], []⟩

/-- The last value of a flag. -/
def value? (a : Arguments) (f : Flag) : Option String := a.flags.lookup f

/-- One more flag, if its value is allowed. -/
def addFlag (a : Arguments) (f : Flag) (value : String) : Except FlagError Arguments :=
  match f.kind.refuses value with
  | some e => .error (.value f value e)
  | none => .ok { a with flags := (f, value) :: a.flags }

/-- Reads the letters of short flags, given the next argument; returns whether that was taken. -/
def readLetters (known : List Flag) (next? : Option String) :
    Arguments → List Char → Except FlagError (Arguments × Bool)
  | a, [] => .ok (a, false)
  | a, c :: cs =>
    match known.find? fun f => f.letter? == some c with
    | none => .error (.unknownLetter (c :: cs))
    | some f =>
      match cs with
      | '=' :: d :: ds => do return (← a.addFlag f (String.ofList (d :: ds)), false)
      | _ =>
        if f.kind == .truth then do readLetters known next? (← a.addFlag f "true") cs
        else if !cs.isEmpty then do return (← a.addFlag f (String.ofList cs), false)
        else
          match next? with
          | some value => do return (← a.addFlag f value, true)
          | none => .error (.noLetterValue (c :: cs))

/-- Reads a long flag behind its hyphens, given the next argument; returns whether that was taken.
-/
def readLong (known : List Flag) (next? : Option String) (a : Arguments) (cs : List Char) :
    Except FlagError (Arguments × Bool) :=
  if cs.head? == none || cs.head? == some '-' || cs.head? == some '=' then
    .error (.malformed (String.ofList ('-' :: '-' :: cs)))
  else
    let name := String.ofList (cs.takeWhile (· != '='))
    match known.find? (·.name == name) with
    | none => .error (.unknown name)
    | some f =>
      match cs.dropWhile (· != '='), next? with
      | _ :: value, _ => do return (← a.addFlag f (String.ofList value), false)
      | [], next? =>
        if f.kind == .truth then do return (← a.addFlag f "true", false)
        else
          match next? with
          | some value => do return (← a.addFlag f value, true)
          | none => .error (.noValue name)

/-- Reads arguments by the flags that are known. Letters that begin with `test.` are left out. -/
def read (known : List Flag) (a : Arguments) : List String → Except FlagError Arguments
  | [] => .ok a
  | s :: args =>
    match s.toList with
    | ['-', '-'] => .ok { a with words := a.words ++ args }
    | '-' :: '-' :: cs => do
      let (a, taken) ← a.readLong known args.head? cs
      read known a (if taken then args.drop 1 else args)
    | '-' :: c :: cs =>
      if ['t', 'e', 's', 't', '.'].isPrefixOf (c :: cs) then read known a args
      else do
        let (a, taken) ← readLetters known args.head? a (c :: cs)
        read known a (if taken then args.drop 1 else args)
    | _ => read known { a with words := a.words ++ [s] } args
termination_by args => args.length
decreasing_by
  all_goals
    rw [List.length_cons]
    grind

end Arguments

end StackFlow.CommandLine
