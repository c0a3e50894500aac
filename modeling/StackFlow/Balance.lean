import StackFlow.Path

/-!
# Stack balance

The balance of a path is the number of items that it asks for on entry and the number that it
leaves on exit. The depth runs from zero; a block that needs more than the running depth adds the
shortfall to what is asked for on entry, and the depth starts at zero again. At a block where
several paths meet the balances are reconciled: either they are all the same or the merge is
ambiguous. Arithmetic is on words and wraps.
-/

namespace StackFlow

/-- What a path asks for on entry and leaves on exit. -/
structure Balance where
  /-- The number of items asked for on entry. -/
  entry : Int64
  /-- The number of items on exit. -/
  exit : Int64
  deriving DecidableEq

/-- A balance as text. -/
def Balance.text (b : Balance) : String := s!"in:{decimal b.entry} out:{decimal b.exit}"

/-- Why a path has no balance, or a merge cannot be reconciled. -/
inductive BalanceError where
  /-- The path has no blocks. -/
  | emptyPath
  /-- Nothing is known of a block. -/
  | missing (block : BlockId)
  /-- A block needs a negative number of items. -/
  | invalid (block : BlockId) (effect : StackEffect)
  /-- The path leaves a negative number of items. -/
  | negativeExit (path : Path) (depth : Int64)
  /-- No path leads to the merge. -/
  | noPaths (node : BlockId)
  /-- A path leads elsewhere. -/
  | notAtMerge (path : Path) (node : BlockId)
  /-- A path into the merge has no balance. -/
  | onPath (path : Path) (cause : BalanceError)
  deriving DecidableEq

/-- The text of a balance error. -/
def BalanceError.message : BalanceError → String
  | .emptyPath => "balance: empty path"
  | .missing n => s!"block {decimal n}: no stack metadata"
  | .invalid n e =>
    s!"block {decimal n}: invalid stack metadata (need:{decimal e.need} stack:{decimal e.stack})"
  | .negativeExit p d =>
    s!"path {p.text}: depth {decimal d}: balance: negative stack depth on exit"
  | .noPaths n => s!"block {decimal n}: balance: no paths reach merge node"
  | .notAtMerge p n =>
    s!"path {p.text}, merge block {decimal n}: balance: path does not end at merge node"
  | .onPath p cause => s!"path {p.text}: {cause.message}"

namespace Balance

/-- The depth above the last shortfall, and the shortfalls so far. -/
structure Running where
  /-- The number of items since the last shortfall. -/
  depth : Int64
  /-- The sum of the shortfalls. -/
  required : Int64
  deriving DecidableEq

/-- Executes one block. -/
def Running.step (r : Running) (e : StackEffect) : Running :=
  if r.depth < e.need then ⟨0 + e.stack, r.required + (e.need - r.depth)⟩
  else ⟨r.depth + e.stack, r.required⟩

/-- Executes the blocks of a path. -/
def Running.along (effect? : BlockId → Option StackEffect) (r : Running) :
    Path → Except BalanceError Running
  | [] => .ok r
  | n :: rest =>
    match effect? n with
    | none => .error (.missing n)
    | some e => if e.need < 0 then .error (.invalid n e) else (r.step e).along effect? rest

/-- The balance of a path, given what its blocks do. -/
def ofPath (effect? : BlockId → Option StackEffect) (p : Path) : Except BalanceError Balance :=
  match p with
  | [] => .error .emptyPath
  | p => do
    let r ← Running.along effect? ⟨0, 0⟩ p
    let exit := r.depth + r.required
    if exit < 0 then .error (.negativeExit p exit) else return ⟨r.required, exit⟩

end Balance

/-- A path with its balance. -/
structure PathBalance where
  /-- The path. -/
  path : Path
  /-- Its balance. -/
  balance : Balance
  deriving DecidableEq

/-- A path and its balance as text. -/
def PathBalance.text (b : PathBalance) : String := b.path.text ++ " " ++ b.balance.text

/-- The balances of the paths into a merge. -/
structure Merge where
  /-- The block at which the paths meet. -/
  node : BlockId
  /-- The distinct paths in lexicographic order, each with its balance. -/
  perPath : List PathBalance
  deriving DecidableEq

/-- A choice among the balances at an ambiguous merge; it may refuse, with a reason. -/
abbrev Policy := BlockId → List PathBalance → Except String Balance

/-- Why a merge has no one balance. -/
inductive MergeError where
  /-- Its paths disagree. -/
  | ambiguous (node : BlockId) (balances : List PathBalance)
  /-- Its paths disagree and the policy refused to choose. -/
  | refused (node : BlockId) (reason : String)
  deriving DecidableEq

namespace Merge

/-- The distinct balances of a list of paths, in order of first appearance. -/
def distinct (bs : List PathBalance) : List Balance := firsts (bs.map (·.balance))

/-- The balance that all paths have, if it is the same. -/
def single? (m : Merge) : Option Balance :=
  match distinct m.perPath with
  | [b] => some b
  | _ => none

/-- The complaint about an ambiguous merge. -/
def error? (m : Merge) : Option MergeError :=
  match m.single? with
  | some _ => none
  | none => some (.ambiguous m.node m.perPath)

/-- The balance of a merge: the common one, or what a policy makes of an ambiguous one. -/
def resolve (m : Merge) (policy : Option Policy) : Except MergeError Balance :=
  match m.single?, policy with
  | some b, _ => .ok b
  | none, none => .error (.ambiguous m.node m.perPath)
  | none, some choose =>
    match choose m.node m.perPath with
    | .ok b => .ok b
    | .error reason => .error (.refused m.node reason)

/-- A merge as text. -/
def text (m : Merge) : String :=
  match m.single? with
  | some b => s!"block {decimal m.node}: {b.text} ({m.perPath.length} paths)"
  | none =>
    let all := " ".intercalate ((distinct m.perPath).map Balance.text)
    s!"block {decimal m.node}: ambiguous [{all}] ({m.perPath.length} paths)"

/-- Adds the balances of sorted paths that must all end at a block; a path whose text was seen
before adds nothing. -/
def gather (effect? : BlockId → Option StackEffect) (node : BlockId) (seen : SortedSet String)
    (m : List PathBalance) : Paths → Except BalanceError (List PathBalance)
  | [] => .ok m
  | p :: ps =>
    match p.getLast? with
    | none => .error .emptyPath
    | some n =>
      if n ≠ node then .error (.notAtMerge p node)
      else if seen.contains p.text then gather effect? node seen m ps
      else
        match Balance.ofPath effect? p with
        | .error e => .error (.onPath p e)
        | .ok b => gather effect? node (seen.add p.text) (m ++ [⟨p, b⟩]) ps

/-- The balances of the distinct paths of a collection, which must all end at `node`. -/
def ofPaths (effect? : BlockId → Option StackEffect) (node : BlockId) (ps : Paths) :
    Except BalanceError Merge :=
  if ps.isEmpty then .error (.noPaths node)
  else do return ⟨node, ← gather effect? node .empty [] ps.sorted⟩

end Merge

/-- The text of a merge error. -/
def MergeError.message : MergeError → String
  | .ambiguous n bs =>
    s!"merge at block {decimal n} is ambiguous: {bs.length} paths with " ++
      s!"{(Merge.distinct bs).length} distinct balances"
  | .refused n reason => s!"balance: cannot resolve merge at block {decimal n}: {reason}"

end StackFlow
