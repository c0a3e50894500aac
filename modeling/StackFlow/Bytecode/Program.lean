import StackFlow.Bytecode.Instruction
import StackFlow.Membership
import StackFlow.Visit

/-!
# Programs

Bytecode split into basic blocks. A block starts at offset zero, at every jump destination and
behind every instruction that ends a block; its number is its offset. Edges are what falls through
to the next block and the jumps whose target is the constant pushed right before the jump. Other
jumps are unresolved. Functions are found by the dispatcher's test of a selector, and a block
belongs to every function whose entry reaches it.
-/

namespace StackFlow

/-- Why bytecode has no program. -/
inductive BytecodeError where
  /-- The text is not hexadecimal. -/
  | hex (cause : Hex.Error)
  /-- There are no bytes. -/
  | empty
  deriving DecidableEq

/-- The text of the error. -/
def BytecodeError.message : BytecodeError → String
  | .hex cause => cause.message
  | .empty => "evm: empty bytecode"

/-- A notable step of the decoder. -/
inductive DecodeEvent where
  /-- A constant jump does not lead to a jump destination. -/
  | notDestination (target : Nat)
  /-- The target of a block's jump is not known. -/
  | unresolved (block : BlockId) (jump : Instruction)
  /-- A function was found. -/
  | function (selector : String) (entry : Nat)
  /-- The program was decoded. -/
  | decoded (bytes blocks edges functions : Nat)

/-- A step as a line of a log. -/
def DecodeEvent.message : DecodeEvent → String
  | .notDestination t => s!"evm: jump to 0x{Hex.ofNat t} is not a JUMPDEST"
  | .unresolved n i => s!"evm: block {decimal n}: unresolved {i.op.text} at pc {i.pc}"
  | .function s e => s!"evm: function {s} at {e}"
  | .decoded bytes blocks edges functions =>
    s!"evm: decoded {bytes} bytes: {blocks} blocks, {edges} edges, {functions} functions"

/-- A run of instructions that is entered at its first and left at its last. -/
structure CodeBlock where
  /-- The first instruction. -/
  first : Instruction
  /-- The instructions after the first. -/
  rest : List Instruction

namespace CodeBlock

/-- The instructions in order. -/
def instrs (b : CodeBlock) : List Instruction := b.first :: b.rest

/-- The block's number, the offset of its first instruction. -/
def id (b : CodeBlock) : BlockId := Int64.ofNat b.first.pc

/-- The last instruction. -/
def last (b : CodeBlock) : Instruction := b.rest.getLastD b.first

/-- The height of the stack above its height on entry, and the least height so far. Both are counted
without bounds and become words at the end. Counted in words all along they would be the same, but
for blocks of more than 2^58 instructions: an instruction moves them by 17 at most. -/
structure Height where
  /-- The height after the instructions so far. -/
  now : Int
  /-- The least height that an instruction left before its pushes. -/
  low : Int

/-- Executes instructions; one that is not defined ends the count. -/
def Height.along (h : Height) : List Instruction → Height
  | [] => h
  | i :: rest =>
    match i.op.info? with
    | none => h
    | some e => (Height.mk (h.now - e.pops + e.pushes) (min h.low (h.now - e.pops))).along rest

/-- What the block needs and does: as many items as it goes below its entry height, and its final
height. -/
def effect (b : CodeBlock) : StackEffect :=
  let h := (Height.mk 0 0).along b.instrs
  ⟨Int64.ofInt (-h.low), Int64.ofInt h.now⟩

/-- The block as a node of a graph. -/
def toBlock (b : CodeBlock) : Block := Block.new b.id b.effect (b.instrs.map Instruction.text)

/-- The constant pushed right before the last instruction, if it fits a word. -/
def pushedTarget? (b : CodeBlock) : Option Nat := do
  let i ← b.instrs.dropLast.getLast?
  let v ← i.value?
  if v < UInt64.size then return v else none

/-- Splits instructions into blocks, the first of which goes on with what `open?` holds. -/
def split (open? : Option CodeBlock) : List Instruction → List CodeBlock
  | [] => open?.toList
  | i :: rest =>
    match open? with
    | none => if i.op.endsBlock then ⟨i, []⟩ :: split none rest else split (some ⟨i, []⟩) rest
    | some b =>
      if i.op == Opcode.jumpDest then b :: split (some ⟨i, []⟩) rest
      else
        let b' : CodeBlock := { b with rest := b.rest ++ [i] }
        if i.op.endsBlock then b' :: split none rest else split (some b') rest

end CodeBlock

/-- Decoded bytecode. -/
structure Program where
  /-- The bytes. -/
  code : List UInt8
  /-- The blocks in order of their offsets. -/
  blocks : List CodeBlock
  /-- The edges in order of their sources, a jump before what falls through. -/
  edges : List Edge
  /-- The blocks whose jump has no known target. -/
  unresolved : List BlockId
  /-- The entry block of each function by selector. -/
  entries : SortedMap String BlockId
  /-- The notable steps of the decoder. -/
  events : List DecodeEvent

namespace Program

/-- What the decoder finds out about one block. -/
structure Exits where
  /-- The edges out of the block. -/
  edges : List Edge
  /-- Whether the target of its jump is not known. -/
  unresolved : Bool
  /-- The notable steps. -/
  events : List DecodeEvent

/-- The edge of a block's jump. -/
def jumpExit (destinations : List Nat) (b : CodeBlock) : Exits :=
  if b.last.op == Opcode.jump || b.last.op == Opcode.jumpIf then
    let missing := DecodeEvent.unresolved b.id b.last
    match b.pushedTarget? with
    | none => ⟨[], true, [missing]⟩
    | some t =>
      if t ∈ destinations then ⟨[⟨b.id, Int64.ofNat t⟩], false, []⟩
      else ⟨[], true, [.notDestination t, missing]⟩
  else ⟨[], false, []⟩

/-- The edges out of a block that is followed by `next?`. -/
def exits (destinations : List Nat) (b : CodeBlock) (next? : Option CodeBlock) : Exits :=
  let jump := jumpExit destinations b
  match next? with
  | some next =>
    if b.last.op.halts then jump else { jump with edges := jump.edges ++ [⟨b.id, next.id⟩] }
  | none => jump

/-- The exits of each block of a list. -/
def allExits (destinations : List Nat) : List CodeBlock → List (CodeBlock × Exits)
  | [] => []
  | b :: rest => (b, exits destinations b rest.head?) :: allExits destinations rest

/-- The entry that a dispatcher's test leads to, if instructions begin with one: a selector, at most
one copy, a comparison, a constant jump destination and a conditional jump. -/
def dispatch? (destinations : List Nat) : List Instruction → Option (String × Nat)
  | [] => none
  | i :: rest =>
    if i.op ≠ Opcode.push4 then none
    else
      let tail := match rest with
        | d :: more => if d.op.isDup then more else rest
        | [] => rest
      match tail with
      | test :: target :: jump :: _ =>
        if test.op = Opcode.eq ∧ jump.op = Opcode.jumpIf then
          match target.value? with
          | some v =>
            if v < UInt64.size ∧ v ∈ destinations then some ("0x" ++ Hex.encode i.arg, v) else none
          | none => none
        else none
      | _ => none

/-- The functions found in a sequence of instructions, in order. -/
def functions (destinations : List Nat) : List Instruction → List (String × Nat)
  | [] => []
  | i :: rest => (dispatch? destinations (i :: rest)).toList ++ functions destinations rest

/-- Splits bytecode into blocks and finds its edges and functions. A selector that is tested twice
belongs to the last test. -/
def decode (code : List UInt8) : Except BytecodeError Program :=
  if code.isEmpty then .error .empty
  else
    let instrs := Instruction.read code
    let destinations := (instrs.filter (·.op == Opcode.jumpDest)).map (·.pc)
    let blocks := CodeBlock.split none instrs
    let exits := allExits destinations blocks
    let edges := exits.flatMap (·.2.edges)
    let found := functions destinations instrs
    let entries := found.foldl (fun m f => m.insert f.1 (Int64.ofNat f.2)) .empty
    .ok {
      code, blocks, edges, entries
      unresolved := (exits.filter (·.2.unresolved)).map (·.1.id)
      events := exits.flatMap (·.2.events) ++ found.map (fun f => .function f.1 f.2) ++
        [.decoded code.length blocks.length edges.length entries.size] }

/-- Decodes hexadecimal text. -/
def ofHex (s : String) : Except BytecodeError Program :=
  match Hex.parse s with
  | .error e => .error (.hex e)
  | .ok code => decode code

/-- The graph of a program, with all its blocks registered. -/
def graph (p : Program) : Except GraphError Graph := do
  let g ← p.blocks.foldlM (fun g b => g.addBlock b.toBlock) Graph.empty
  return p.edges.foldl (fun g e => g.addEdge e.source e.target) g

/-- The functions around each block, of those with these entries: its own are those whose entry
reaches it in a graph. -/
def membershipOf (g : Graph) (entries : List (String × BlockId)) : Membership :=
  entries.foldl (fun m e =>
    (m.add e.2 e.1).addAll e.1 ((g.traverse e.2).edges.map (·.target))) .empty

/-- The functions of a program around each block. -/
def membership (p : Program) (g : Graph) : Membership := membershipOf g p.entries.entries

end Program

end StackFlow
