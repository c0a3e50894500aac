/-!
# Opcodes

An opcode is a byte. The defined ones have a name, take some items off the stack and put some on
it; the push family is followed by an immediate of one to thirty-two bytes.
-/

namespace StackFlow

/-- The name of an opcode and its effect on the stack. -/
structure OpcodeInfo where
  /-- The name. -/
  name : String
  /-- The number of items taken off the stack. -/
  pops : Nat
  /-- The number of items then put on it. -/
  pushes : Nat
  deriving DecidableEq

/-- The byte of an instruction. -/
structure Opcode where
  /-- The byte's value. -/
  byte : UInt8
  deriving DecidableEq

namespace Opcode

/-- The opcodes outside the numbered families, with name, pops and pushes. -/
def table : List (UInt8 × String × Nat × Nat) :=
  [(0x00, "STOP", 0, 0), (0x01, "ADD", 2, 1), (0x02, "MUL", 2, 1), (0x03, "SUB", 2, 1),
    (0x04, "DIV", 2, 1), (0x05, "SDIV", 2, 1), (0x06, "MOD", 2, 1), (0x07, "SMOD", 2, 1),
    (0x08, "ADDMOD", 3, 1), (0x09, "MULMOD", 3, 1), (0x0a, "EXP", 2, 1),
    (0x0b, "SIGNEXTEND", 2, 1), (0x10, "LT", 2, 1), (0x11, "GT", 2, 1), (0x12, "SLT", 2, 1),
    (0x13, "SGT", 2, 1), (0x14, "EQ", 2, 1), (0x15, "ISZERO", 1, 1), (0x16, "AND", 2, 1),
    (0x17, "OR", 2, 1), (0x18, "XOR", 2, 1), (0x19, "NOT", 1, 1), (0x1a, "BYTE", 2, 1),
    (0x1b, "SHL", 2, 1), (0x1c, "SHR", 2, 1), (0x1d, "SAR", 2, 1), (0x20, "KECCAK256", 2, 1),
    (0x30, "ADDRESS", 0, 1), (0x31, "BALANCE", 1, 1), (0x32, "ORIGIN", 0, 1),
    (0x33, "CALLER", 0, 1), (0x34, "CALLVALUE", 0, 1), (0x35, "CALLDATALOAD", 1, 1),
    (0x36, "CALLDATASIZE", 0, 1), (0x37, "CALLDATACOPY", 3, 0), (0x38, "CODESIZE", 0, 1),
    (0x39, "CODECOPY", 3, 0), (0x3a, "GASPRICE", 0, 1), (0x3b, "EXTCODESIZE", 1, 1),
    (0x3c, "EXTCODECOPY", 4, 0), (0x3d, "RETURNDATASIZE", 0, 1), (0x3e, "RETURNDATACOPY", 3, 0),
    (0x3f, "EXTCODEHASH", 1, 1), (0x40, "BLOCKHASH", 1, 1), (0x41, "COINBASE", 0, 1),
    (0x42, "TIMESTAMP", 0, 1), (0x43, "NUMBER", 0, 1), (0x44, "DIFFICULTY", 0, 1),
    (0x45, "GASLIMIT", 0, 1), (0x46, "CHAINID", 0, 1), (0x47, "SELFBALANCE", 0, 1),
    (0x48, "BASEFEE", 0, 1), (0x49, "BLOBHASH", 1, 1), (0x4a, "BLOBBASEFEE", 0, 1),
    (0x50, "POP", 1, 0), (0x51, "MLOAD", 1, 1), (0x52, "MSTORE", 2, 0), (0x53, "MSTORE8", 2, 0),
    (0x54, "SLOAD", 1, 1), (0x55, "SSTORE", 2, 0), (0x56, "JUMP", 1, 0), (0x57, "JUMPI", 2, 0),
    (0x58, "PC", 0, 1), (0x59, "MSIZE", 0, 1), (0x5a, "GAS", 0, 1), (0x5b, "JUMPDEST", 0, 0),
    (0x5c, "TLOAD", 1, 1), (0x5d, "TSTORE", 2, 0), (0x5e, "MCOPY", 3, 0), (0x5f, "PUSH0", 0, 1),
    (0xf0, "CREATE", 3, 1), (0xf1, "CALL", 7, 1), (0xf2, "CALLCODE", 7, 1),
    (0xf3, "RETURN", 2, 0), (0xf4, "DELEGATECALL", 6, 1), (0xf5, "CREATE2", 4, 1),
    (0xfa, "STATICCALL", 6, 1), (0xfd, "REVERT", 2, 0), (0xfe, "INVALID", 0, 0),
    (0xff, "SELFDESTRUCT", 1, 0)]

/-- What is known of an opcode; nothing for a byte that is not defined. -/
def info? (op : Opcode) : Option OpcodeInfo :=
  let n := op.byte.toNat
  if 0x60 ≤ n ∧ n ≤ 0x7f then some ⟨s!"PUSH{n - 0x5f}", 0, 1⟩
  else if 0x80 ≤ n ∧ n ≤ 0x8f then some ⟨s!"DUP{n - 0x7f}", n - 0x7f, n - 0x7f + 1⟩
  else if 0x90 ≤ n ∧ n ≤ 0x9f then some ⟨s!"SWAP{n - 0x8f}", n - 0x8f + 1, n - 0x8f + 1⟩
  else if 0xa0 ≤ n ∧ n ≤ 0xa4 then some ⟨s!"LOG{n - 0xa0}", n - 0xa0 + 2, 0⟩
  else (table.find? (·.1 == op.byte)).map (fun row => ⟨row.2.1, row.2.2.1, row.2.2.2⟩)

/-- A defined opcode is one of a numbered family or has a row in the table. -/
theorem info?_cases {op : Opcode} {e : OpcodeInfo} (h : op.info? = some e) :
    (∃ k, k ≤ 32 ∧ e = ⟨s!"PUSH{k}", 0, 1⟩) ∨
      (∃ k, k ≤ 16 ∧ e = ⟨s!"DUP{k}", k, k + 1⟩) ∨
      (∃ k, k ≤ 16 ∧ e = ⟨s!"SWAP{k}", k + 1, k + 1⟩) ∨
      (∃ k, k ≤ 4 ∧ e = ⟨s!"LOG{k}", k + 2, 0⟩) ∨
      ∃ row ∈ table, row.1 = op.byte ∧ e = ⟨row.2.1, row.2.2.1, row.2.2.2⟩ := by
  unfold info? at h
  dsimp only at h
  split at h
  next => exact .inl ⟨_, by omega, (Option.some.inj h).symm⟩
  next =>
    split at h
    next => exact .inr (.inl ⟨_, by omega, (Option.some.inj h).symm⟩)
    next =>
      split at h
      next => exact .inr (.inr (.inl ⟨_, by omega, (Option.some.inj h).symm⟩))
      next =>
        split at h
        next => exact .inr (.inr (.inr (.inl ⟨_, by omega, (Option.some.inj h).symm⟩)))
        next =>
          obtain ⟨row, hrow, rfl⟩ := Option.map_eq_some_iff.1 h
          have hbyte : row.1 = op.byte := by simpa using List.find?_some hrow
          exact .inr (.inr (.inr (.inr ⟨row, List.mem_of_find?_eq_some hrow, hbyte, rfl⟩)))

/-- The text of an opcode. -/
def text (op : Opcode) : String :=
  match op.info? with
  | some i => i.name
  | none => "opcode 0x" ++ String.ofList (Nat.toDigits 16 op.byte.toNat) ++ " not defined"

/-- Halts the program. -/
def stop : Opcode := ⟨0x00⟩

/-- Compares two items. -/
def eq : Opcode := ⟨0x14⟩

/-- Jumps to the offset on top of the stack. -/
def jump : Opcode := ⟨0x56⟩

/-- Jumps to the offset on top of the stack if the next item is not zero. -/
def jumpIf : Opcode := ⟨0x57⟩

/-- Marks an offset that jumps may go to. -/
def jumpDest : Opcode := ⟨0x5b⟩

/-- Pushes zero. -/
def push0 : Opcode := ⟨0x5f⟩

/-- Pushes four bytes. -/
def push4 : Opcode := ⟨0x63⟩

/-- Whether an opcode copies an item to the top of the stack. -/
def isDup (op : Opcode) : Bool := 0x80 ≤ op.byte && op.byte ≤ 0x8f

/-- The number of bytes of the immediate. -/
def immediateSize (op : Opcode) : Nat :=
  if 0x60 ≤ op.byte ∧ op.byte ≤ 0x7f then op.byte.toNat - 0x5f else 0

/-- Whether an opcode pushes a constant. -/
def isPush (op : Opcode) : Bool := op.immediateSize ≠ 0 || op == push0

/-- Whether an opcode transfers control or halts; one that is not defined halts. -/
def endsBlock (op : Opcode) : Bool :=
  op == jump || op == jumpIf || op == stop || op.byte == 0xf3 || op.byte == 0xfd ||
    op.byte == 0xfe || op.byte == 0xff || op.info?.isNone

/-- Whether execution never goes on with the next instruction. -/
def halts (op : Opcode) : Bool := op.endsBlock && op != jumpIf

end Opcode

end StackFlow
