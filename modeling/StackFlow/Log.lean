/-!
# Log entries

Entries of a log by their level.
-/

namespace StackFlow

/-- How much an entry matters, in ascending order. -/
inductive LogLevel where
  | debug
  | info
  | warn
  | error
  deriving DecidableEq

namespace LogLevel

/-- The level's place in the order. -/
def rank : LogLevel → Nat
  | .debug => 0
  | .info => 1
  | .warn => 2
  | .error => 3

/-- The name of a level. -/
def name : LogLevel → String
  | .debug => "debug"
  | .info => "info"
  | .warn => "warn"
  | .error => "error"

/-- Whether a level is at least another. -/
def atLeast (l least : LogLevel) : Bool := least.rank ≤ l.rank

end LogLevel

/-- An entry of a log. -/
structure LogEntry where
  /-- Its level. -/
  level : LogLevel
  /-- Its text. -/
  message : String
  deriving DecidableEq

end StackFlow
