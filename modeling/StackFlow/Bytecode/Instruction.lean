import StackFlow.Bytecode.Opcode
import StackFlow.Bytecode.Hex

/-!
# Instructions

Bytecode read from left to right: an opcode, and behind a push the bytes of its immediate. An
immediate that runs over the end of the code is filled up with zeros.
-/

namespace StackFlow

/-- An opcode at an offset of the code, with its immediate. -/
structure Instruction where
  /-- The offset of the opcode. -/
  pc : Nat
  /-- The opcode. -/
  op : Opcode
  /-- The bytes of the immediate. -/
  arg : List UInt8
  deriving DecidableEq

namespace Instruction

/-- The number that big-endian bytes stand for. -/
def bigEndian (bytes : List UInt8) : Nat := bytes.foldl (fun n b => 256 * n + b.toNat) 0

/-- The constant that a push puts on the stack. -/
def value? (i : Instruction) : Option Nat := if i.op.isPush then some (bigEndian i.arg) else none

/-- An instruction as text. -/
def text (i : Instruction) : String :=
  if i.arg.isEmpty then i.op.text else i.op.text ++ " 0x" ++ Hex.encode i.arg

/-- The instructions of code that begins at an offset. -/
def readFrom (pc : Nat) : List UInt8 → List Instruction
  | [] => []
  | b :: rest =>
    let op : Opcode := ⟨b⟩
    let n := op.immediateSize
    ⟨pc, op, rest.take n ++ List.replicate (n - rest.length) 0⟩ ::
      readFrom (pc + 1 + n) (rest.drop n)
termination_by code => code.length
decreasing_by simp only [List.length_drop, List.length_cons]; omega

/-- The instructions of a program's code. -/
def read (code : List UInt8) : List Instruction := readFrom 0 code

end Instruction

end StackFlow
