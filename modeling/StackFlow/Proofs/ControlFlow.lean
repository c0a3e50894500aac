import Mathlib.Logic.Relation
import StackFlow.Proofs.CodeLayout

/-!
# Every run follows the edges of the program

`Step` is what control can do at an instruction: push a constant, jump to a destination that is on
the stack, or take items off the stack, put any others on it and go on behind the instruction. A run
that leaves a block goes on at the first instruction of a block, along an edge of the decoded
program or out of a block whose jump is listed as unresolved (`decode_follows_runs`).

The invariant of a run is `At`: it is at an instruction of a block, and if the instruction before it
in that block pushes a constant, this constant is on top of the stack. It holds at the first
instruction of every block for want of an instruction before, and a step from one instruction of a
block to the next establishes it. So a jump whose target is pushed right before it goes to that
target.
-/

namespace StackFlow

/-- Whether an opcode stops a run. -/
def Opcode.stops (op : Opcode) : Bool :=
  op.byte ∈ [0x00, 0xf3, 0xfd, 0xfe, 0xff] || op.info?.isNone

/-- A run between two instructions. -/
structure Machine where
  /-- The offset of the next instruction. -/
  pc : Nat
  /-- The items on the stack, the top one first. -/
  stack : List Nat

namespace Machine

/-- Whether jumps may go to an offset. -/
def IsDestination (code : List UInt8) (t : Nat) : Prop :=
  ∃ d ∈ Instruction.read code, d.op = Opcode.jumpDest ∧ d.pc = t

/-- One instruction is executed and the run goes on. There is no step from an opcode that stops the
run, with too few items on the stack, or behind the end of the code. -/
inductive Step (code : List UInt8) : Machine → Machine → Prop
  /-- A constant is pushed. -/
  | push {i : Instruction} {v : Nat} {stack : List Nat} (hi : i ∈ Instruction.read code)
      (hv : i.value? = some v) (hnext : i.next < code.length) :
      Step code ⟨i.pc, stack⟩ ⟨i.next, v :: stack⟩
  /-- A jump is taken. -/
  | jump {i : Instruction} {t : Nat} {stack : List Nat} (hi : i ∈ Instruction.read code)
      (hop : i.op = Opcode.jump) (ht : IsDestination code t) :
      Step code ⟨i.pc, t :: stack⟩ ⟨t, stack⟩
  /-- A conditional jump is taken. -/
  | jumpIf {i : Instruction} {t condition : Nat} {stack : List Nat}
      (hi : i ∈ Instruction.read code) (hop : i.op = Opcode.jumpIf) (ht : IsDestination code t) :
      Step code ⟨i.pc, t :: condition :: stack⟩ ⟨t, stack⟩
  /-- A conditional jump is not taken. -/
  | fallThrough {i : Instruction} {t condition : Nat} {stack : List Nat}
      (hi : i ∈ Instruction.read code) (hop : i.op = Opcode.jumpIf)
      (hnext : i.next < code.length) :
      Step code ⟨i.pc, t :: condition :: stack⟩ ⟨i.next, stack⟩
  /-- Any other instruction takes its items off the stack and puts as many as it is known to put
  on it, whatever they are. -/
  | other {i : Instruction} {info : OpcodeInfo} {popped pushed stack : List Nat}
      (hi : i ∈ Instruction.read code) (hinfo : i.op.info? = some info)
      (hpush : i.op.isPush = false) (hjump : i.op ≠ Opcode.jump) (hjumpIf : i.op ≠ Opcode.jumpIf)
      (hstops : i.op.stops = false) (hpopped : popped.length = info.pops)
      (hpushed : pushed.length = info.pushes) (hnext : i.next < code.length) :
      Step code ⟨i.pc, popped ++ stack⟩ ⟨i.next, pushed ++ stack⟩

end Machine

/-! ## What a step does -/

/-- What neither jumps nor stops a run does not end a block. -/
theorem Opcode.endsBlock_eq_false {op : Opcode} (hjump : op ≠ jump) (hjumpIf : op ≠ jumpIf)
    (hstops : op.stops = false) : op.endsBlock = false := by
  have hbyte : ∀ b : UInt8, op ≠ ⟨b⟩ ↔ op.byte ≠ b := by
    intro b
    obtain ⟨b'⟩ := op
    simp
  unfold stops at hstops
  unfold endsBlock
  simp only [Bool.or_eq_false_iff, decide_eq_false_iff_not, List.mem_cons, not_or] at hstops
  simp only [Bool.or_eq_false_iff, beq_eq_false_iff_ne]
  refine ⟨⟨⟨⟨⟨⟨⟨hjump, hjumpIf⟩, ?_⟩, ?_⟩, ?_⟩, ?_⟩, ?_⟩, hstops.2⟩
  · exact (hbyte 0x00).2 hstops.1.1
  · exact hstops.1.2.1
  · exact hstops.1.2.2.1
  · exact hstops.1.2.2.2.1
  · exact hstops.1.2.2.2.2.1

/-- The opcodes that push a constant are one range. -/
theorem Opcode.isPush_iff {op : Opcode} : op.isPush = true ↔ 0x5f ≤ op.byte ∧ op.byte ≤ 0x7f := by
  obtain ⟨b⟩ := op
  have hrange : ∀ m n : UInt8, m ≤ b ∧ b ≤ n ↔ m.toNat ≤ b.toNat ∧ b.toNat ≤ n.toNat :=
    fun m n => and_congr UInt8.le_iff_toNat_le UInt8.le_iff_toNat_le
  have hzero : Opcode.mk b = push0 ↔ b.toNat = 0x5f := by
    rw [push0, Opcode.mk.injEq, ← UInt8.toNat_inj]
    rfl
  -- the opcode without an immediate is the one right below the others
  unfold isPush immediateSize
  simp only [hrange, Bool.or_eq_true, decide_eq_true_eq, beq_iff_eq, hzero, UInt8.reduceToNat]
  split <;> omega

/-- From the first push to the last copy, no opcode ends a block. -/
theorem Opcode.endsBlock_eq_false_of_range {op : Opcode} (hlow : 0x5f ≤ op.byte)
    (hhigh : op.byte ≤ 0x8f) : op.endsBlock = false := by
  have hall : ∀ n ≤ 0x8f, 0x5f ≤ n → Opcode.endsBlock ⟨UInt8.ofNat n⟩ = false := by decide
  rw [UInt8.le_iff_toNat_le] at hlow hhigh
  have hop := hall op.byte.toNat hhigh hlow
  rwa [UInt8.ofNat_toNat] at hop

/-- A push does not end a block. -/
theorem Opcode.endsBlock_eq_false_of_isPush {op : Opcode} (h : op.isPush = true) :
    op.endsBlock = false := by
  obtain ⟨hlow, hhigh⟩ := isPush_iff.1 h
  exact endsBlock_eq_false_of_range hlow (UInt8.le_trans hhigh (by decide))

namespace Machine

variable {code : List UInt8} {s s' : Machine}

/-- A step executes the instruction that the run is at. Either it goes on right behind it, with a
constant that the instruction pushes on top of the stack, or it jumps to the destination that was
on top of the stack. -/
theorem step_cases (h : Step code s s') :
    ∃ i ∈ Instruction.read code, i.pc = s.pc ∧
      (i.op.halts = false ∧ i.next < code.length ∧ s'.pc = i.next ∧
          (∀ v, i.value? = some v → s'.stack.head? = some v) ∨
        (i.op = Opcode.jump ∨ i.op = Opcode.jumpIf) ∧ IsDestination code s'.pc ∧
          s.stack.head? = some s'.pc) := by
  cases h with
  | @push i v stack hi hv hnext =>
    refine ⟨i, hi, rfl, .inl ⟨?_, hnext, rfl, ?_⟩⟩
    · have hpush : i.op.isPush = true := by
        by_contra hne
        simp [Instruction.value?, hne] at hv
      rw [Opcode.halts, Opcode.endsBlock_eq_false_of_isPush hpush, Bool.false_and]
    · intro w hw
      rw [List.head?_cons, ← hv, hw]
  | @jump i t stack hi hop ht => exact ⟨i, hi, rfl, .inr ⟨.inl hop, ht, rfl⟩⟩
  | @jumpIf i t condition stack hi hop ht => exact ⟨i, hi, rfl, .inr ⟨.inr hop, ht, rfl⟩⟩
  | @fallThrough i t condition stack hi hop hnext =>
    refine ⟨i, hi, rfl, .inl ⟨?_, hnext, rfl, ?_⟩⟩
    · rw [Opcode.halts, hop]
      decide
    · intro v hv
      rw [Instruction.value?, hop, if_neg (by decide)] at hv
      exact absurd hv (by simp)
  | @other i info popped pushed stack hi hinfo hpush hjump hjumpIf hstops hpopped hpushed hnext =>
    refine ⟨i, hi, rfl, .inl ⟨?_, hnext, rfl, ?_⟩⟩
    · rw [Opcode.halts, Opcode.endsBlock_eq_false hjump hjumpIf hstops, Bool.false_and]
    · intro v hv
      simp [Instruction.value?, hpush] at hv

end Machine

/-! ## What the decoder notes of a block -/

namespace Program

/-- The offsets that the decoder takes for jump destinations. -/
def destinations (code : List UInt8) : List Nat :=
  ((Instruction.read code).filter (·.op == Opcode.jumpDest)).map (·.pc)

/-- The blocks of a program are those of the code, its edges and unresolved blocks are what is noted
of them, and its entries are those of the functions found in the code. -/
structure IsDecoded (code : List UInt8) (p : Program) : Prop where
  /-- The blocks are the instructions of the code cut into pieces. -/
  blocks : p.blocks = CodeBlock.ofCode code
  /-- The edges are the exits of all blocks. -/
  edges : p.edges = (allExits (destinations code) p.blocks).flatMap (·.2.edges)
  /-- A block is unresolved if its exits are. -/
  unresolved : p.unresolved =
    ((allExits (destinations code) p.blocks).filter (·.2.unresolved)).map (·.1.id)
  /-- The last test of a selector decides its entry. -/
  entries : p.entries = (functions (destinations code) (Instruction.read code)).foldl
    (fun m f => m.insert f.1 (Int64.ofNat f.2)) .empty

/-- Code that is not empty has a program. -/
theorem decode_eq_ok {code : List UInt8} (h : code ≠ []) :
    ∃ p, decode code = .ok p ∧ IsDecoded code p := by
  unfold decode
  rw [if_neg (by simpa using h)]
  exact ⟨_, rfl, rfl, rfl, rfl, rfl⟩

/-- Every program is decoded from its code in this way. -/
theorem isDecoded_of_decode {code : List UInt8} {p : Program} (h : decode code = .ok p) :
    IsDecoded code p := by
  have hcode : code ≠ [] := by
    rintro rfl
    exact absurd h (by nofun)
  obtain ⟨p', hdecode, hp⟩ := decode_eq_ok hcode
  rwa [Except.ok.inj (h.symm.trans hdecode)]

/-- The exits that are noted are those of the blocks, each before the block behind it. -/
theorem mem_allExits_iff {ds : List Nat} {bs : List CodeBlock} {b : CodeBlock} {x : Exits} :
    (b, x) ∈ allExits ds bs ↔
      ∃ before after, bs = before ++ b :: after ∧ x = exits ds b after.head? := by
  constructor
  · intro h
    induction bs with
    | nil => exact absurd h List.not_mem_nil
    | cons c bs ih =>
      rcases List.mem_cons.1 h with h | h
      · obtain ⟨rfl, rfl⟩ := Prod.mk.inj h
        exact ⟨[], bs, rfl, rfl⟩
      · obtain ⟨before, after, rfl, hx⟩ := ih h
        exact ⟨c :: before, after, rfl, hx⟩
  · rintro ⟨before, after, rfl, rfl⟩
    induction before with
    | nil => exact List.mem_cons_self
    | cons c before ih => exact List.mem_cons_of_mem _ ih

/-- The jump of a block has an edge if what is pushed right before it is a jump destination. -/
theorem mem_edges_jumpExit {ds : List Nat} {b : CodeBlock} {e : Edge} :
    e ∈ (jumpExit ds b).edges ↔
      (b.last.op = Opcode.jump ∨ b.last.op = Opcode.jumpIf) ∧
        ∃ t ∈ ds, b.pushedTarget? = some t ∧ e = ⟨b.id, Int64.ofNat t⟩ := by
  unfold jumpExit
  by_cases hjump : b.last.op = Opcode.jump ∨ b.last.op = Opcode.jumpIf
  · rw [if_pos (by simpa using hjump)]
    cases ht : b.pushedTarget? with
    | none => simp
    | some t =>
      by_cases hmem : t ∈ ds
      · simp [hmem, hjump]
      · simp [hmem]
  · rw [if_neg (by simpa using hjump)]
    simp [hjump]

/-- The jump of a block is unresolved if no jump destination is pushed right before it. -/
theorem unresolved_jumpExit {ds : List Nat} {b : CodeBlock} :
    (jumpExit ds b).unresolved = true ↔
      (b.last.op = Opcode.jump ∨ b.last.op = Opcode.jumpIf) ∧
        ∀ t ∈ ds, b.pushedTarget? ≠ some t := by
  unfold jumpExit
  by_cases hjump : b.last.op = Opcode.jump ∨ b.last.op = Opcode.jumpIf
  · rw [if_pos (by simpa using hjump)]
    cases ht : b.pushedTarget? with
    | none => simp [hjump]
    | some t =>
      by_cases hmem : t ∈ ds
      · simp [hmem]
      · simp only [hmem, if_false, hjump, true_and, true_iff]
        intro u hu htu
        exact hmem (Option.some.inj htu ▸ hu)
  · rw [if_neg (by simpa using hjump)]
    simp [hjump]

/-- A block has the edge of its jump, and one to the block behind if it can go on there. -/
theorem mem_edges_exits {ds : List Nat} {b : CodeBlock} {next? : Option CodeBlock} {e : Edge} :
    e ∈ (exits ds b next?).edges ↔
      e ∈ (jumpExit ds b).edges ∨
        b.last.op.halts = false ∧ ∃ c, next? = some c ∧ e = ⟨b.id, c.id⟩ := by
  unfold exits
  cases next? with
  | none => simp
  | some c => cases hhalts : b.last.op.halts <;> simp

/-- What stands behind a block does not decide whether its jump is resolved. -/
theorem unresolved_exits (ds : List Nat) (b : CodeBlock) (next? : Option CodeBlock) :
    (exits ds b next?).unresolved = (jumpExit ds b).unresolved := by
  unfold exits
  cases next? with
  | none => rfl
  | some c =>
    dsimp only
    split <;> rfl

variable {code : List UInt8} {p : Program}

/-- The edges of a program are those of its blocks. -/
theorem IsDecoded.mem_edges_iff (hp : IsDecoded code p) {e : Edge} :
    e ∈ p.edges ↔
      ∃ before b after, p.blocks = before ++ b :: after ∧
        (e ∈ (jumpExit (destinations code) b).edges ∨
          b.last.op.halts = false ∧ ∃ c, after.head? = some c ∧ e = ⟨b.id, c.id⟩) := by
  rw [hp.edges, List.mem_flatMap]
  constructor
  · rintro ⟨⟨b, x⟩, hx, he⟩
    obtain ⟨before, after, hblocks, rfl⟩ := mem_allExits_iff.1 hx
    exact ⟨before, b, after, hblocks, mem_edges_exits.1 he⟩
  · rintro ⟨before, b, after, hblocks, he⟩
    exact ⟨_, mem_allExits_iff.2 ⟨before, after, hblocks, rfl⟩, mem_edges_exits.2 he⟩

/-- The unresolved blocks of a program are those whose jump is. -/
theorem IsDecoded.mem_unresolved_iff (hp : IsDecoded code p) {n : BlockId} :
    n ∈ p.unresolved ↔
      ∃ b ∈ p.blocks, b.id = n ∧ (jumpExit (destinations code) b).unresolved = true := by
  rw [hp.unresolved, List.mem_map]
  constructor
  · rintro ⟨⟨b, x⟩, hx, rfl⟩
    obtain ⟨hx, hunresolved⟩ := List.mem_filter.1 hx
    obtain ⟨before, after, hblocks, rfl⟩ := mem_allExits_iff.1 hx
    refine ⟨b, ?_, rfl, (unresolved_exits _ _ _).symm.trans hunresolved⟩
    rw [hblocks]
    exact List.mem_append_right _ List.mem_cons_self
  · rintro ⟨b, hb, rfl, hunresolved⟩
    obtain ⟨before, after, hblocks⟩ := List.append_of_mem hb
    refine ⟨_, List.mem_filter.2 ⟨mem_allExits_iff.2 ⟨before, after, hblocks, rfl⟩, ?_⟩, rfl⟩
    exact (unresolved_exits _ _ _).trans hunresolved

end Program

/-- A pushed target is the constant of the instruction before the last, if it fits a word. -/
theorem CodeBlock.pushedTarget?_eq_some_iff {b : CodeBlock} {t : Nat} :
    b.pushedTarget? = some t ↔
      ∃ j, b.instrs.dropLast.getLast? = some j ∧ j.value? = some t ∧ t < UInt64.size := by
  unfold pushedTarget?
  constructor
  · intro h
    obtain ⟨j, hj, h⟩ := Option.bind_eq_some_iff.1 h
    obtain ⟨v, hv, h⟩ := Option.bind_eq_some_iff.1 h
    split at h
    next hlt =>
      obtain rfl : v = t := Option.some.inj h
      exact ⟨j, hj, hv, hlt⟩
    next => simp at h
  · rintro ⟨j, hj, hv, hlt⟩
    simp [hj, hv, hlt]

/-! ## Runs -/

/-- Within the block control passes from the instruction at `pc` to the one at `q`. -/
def CodeBlock.Continues (b : CodeBlock) (pc q : Nat) : Prop :=
  ∃ before i j after, b.instrs = before ++ i :: j :: after ∧ i.pc = pc ∧ j.pc = q

namespace Program

/-- By the program, control may pass from one block to another: there is an edge, or the target of
the first block's jump is not known. -/
def Allows (p : Program) (b c : CodeBlock) : Prop :=
  ⟨b.id, c.id⟩ ∈ p.edges ∨ b.id ∈ p.unresolved

variable {code : List UInt8} {p : Program} {b c : CodeBlock} {bs cs : List CodeBlock}

/-- Control may pass from a block that can go on to the block behind it. -/
theorem IsDecoded.allows_next (hp : IsDecoded code p)
    (h : CodeBlock.ofCode code = bs ++ b :: cs) (hc : cs.head? = some c)
    (hb : b.last.op.halts = false) : p.Allows b c :=
  .inl (hp.mem_edges_iff.2 ⟨bs, b, cs, hp.blocks.trans h, .inr ⟨hb, c, hc, rfl⟩⟩)

/-- Control may pass from a block that ends with a jump to the block at the jump's target, if this
is what is pushed right before the jump, should that be a constant. -/
theorem IsDecoded.allows_jump (hp : IsDecoded code p)
    (h : CodeBlock.ofCode code = bs ++ b :: cs)
    (hb : b.last.op = Opcode.jump ∨ b.last.op = Opcode.jumpIf)
    (hc : ∀ t, b.pushedTarget? = some t → c.first.pc = t) : p.Allows b c := by
  have hblocks := hp.blocks.trans h
  by_cases hknown : ∃ t ∈ destinations code, b.pushedTarget? = some t
  · obtain ⟨t, hmem, ht⟩ := hknown
    refine .inl (hp.mem_edges_iff.2 ⟨bs, b, cs, hblocks, .inl ?_⟩)
    exact mem_edges_jumpExit.2 ⟨hb, t, hmem, ht, by rw [← hc t ht]; rfl⟩
  · refine .inr (hp.mem_unresolved_iff.2 ⟨b, ?_, rfl, unresolved_jumpExit.2 ⟨hb, ?_⟩⟩)
    · rw [hblocks]
      exact List.mem_append_right _ List.mem_cons_self
    · exact fun t hmem ht => hknown ⟨t, hmem, ht⟩

end Program

namespace Machine

variable {code : List UInt8} {p : Program} {b : CodeBlock} {s s' : Machine}

/-- The run is at an instruction of the block, and if the instruction before it in the block pushes
a constant, this constant is on top of the stack. -/
def At (b : CodeBlock) (s : Machine) : Prop :=
  ∃ before i after, b.instrs = before ++ i :: after ∧ i.pc = s.pc ∧
    ∀ j v, before.getLast? = some j → j.value? = some v → s.stack.head? = some v

/-- A run that arrives at the first instruction of a block is at the block. -/
theorem at_of_pc_eq_first (h : b.first.pc = s.pc) : At b s :=
  ⟨[], b.first, b.rest, rfl, h, by simp⟩

/-- A destination is an offset of the code. -/
theorem IsDestination.lt_length {t : Nat} (h : IsDestination code t) : t < code.length := by
  obtain ⟨d, hd, -, rfl⟩ := h
  have hpc := Instruction.pc_lt_of_mem_readFrom hd
  rwa [Nat.zero_add] at hpc

/-- Every destination of a jump is the first instruction of a block. -/
theorem IsDestination.exists_block {t : Nat} (h : IsDestination code t) :
    ∃ c ∈ CodeBlock.ofCode code, c.first.pc = t := by
  obtain ⟨d, hd, hop, rfl⟩ := h
  obtain ⟨c, hc, hdc⟩ := CodeBlock.exists_mem_instrs_of_mem_read hd
  refine ⟨c, hc, ?_⟩
  rcases List.mem_cons.1 hdc with rfl | hrest
  · rfl
  · exact absurd hop ((CodeBlock.straight_of_mem_ofCode hc).no_jumpDest d hrest)

/-- A step from within a block goes to the next instruction of the block, or leaves the block and
goes to the first instruction of a block that the program allows. -/
theorem step_of_at (hp : Program.IsDecoded code p) (hb : b ∈ CodeBlock.ofCode code) (hs : At b s)
    (h : Step code s s') :
    b.Continues s.pc s'.pc ∧ At b s' ∨
      ∃ c ∈ CodeBlock.ofCode code, c.first.pc = s'.pc ∧ p.Allows b c := by
  obtain ⟨before, i, after, hinstrs, hpc, htop⟩ := hs
  obtain ⟨i', hi', hpc', hcases⟩ := step_cases h
  obtain rfl : i' = i := by
    refine Instruction.eq_of_pc_eq hi' ?_ (hpc'.trans hpc.symm)
    exact CodeBlock.mem_read_of_mem_instrs hb (by simp [hinstrs])
  cases after with
  | cons j after =>
    -- inside the block nothing jumps
    refine .inl ?_
    have hend : i'.op.endsBlock = false := by
      refine (CodeBlock.straight_of_mem_ofCode hb).no_end i' ?_
      rw [hinstrs, List.dropLast_append_of_ne_nil (by simp)]
      simp
    rcases hcases with ⟨-, -, hnext, hpush⟩ | ⟨hjump, -, -⟩
    · have hj : j.pc = s'.pc := (CodeBlock.pc_eq_next_of_instrs hb hinstrs).trans hnext.symm
      refine ⟨⟨before, i', j, after, hinstrs, hpc, hj⟩,
        before ++ [i'], j, after, by simp [hinstrs], hj, ?_⟩
      intro k v hk hv
      obtain rfl : i' = k := by simpa using hk
      exact hpush v hv
    · rcases hjump with hop | hop <;> rw [hop] at hend <;> exact absurd hend (by decide)
  | nil =>
    -- from its last instruction the run leaves the block, even if it comes back to it
    refine .inr ?_
    obtain ⟨bs, cs, hblocks⟩ := List.append_of_mem hb
    have hsplit := List.append_inj_left' (hinstrs.symm.trans b.instrs_eq_concat) rfl
    obtain rfl : i' = b.last := by
      have hlast := b.last_eq_getLast
      rw [hinstrs, List.getLast?_concat, Option.some.injEq] at hlast
      exact hlast
    rcases hcases with ⟨hhalts, hlt, hnext, -⟩ | ⟨hjump, hdest, htarget⟩
    · obtain ⟨c, hc, hcpc⟩ := CodeBlock.pc_first_eq_next hblocks hlt
      refine ⟨c, ?_, hcpc.trans hnext.symm, hp.allows_next hblocks hc hhalts⟩
      rw [hblocks]
      simp [List.mem_of_mem_head? hc]
    · obtain ⟨c, hc, hcpc⟩ := hdest.exists_block
      refine ⟨c, hc, hcpc, hp.allows_jump hblocks hjump ?_⟩
      intro t ht
      -- the constant pushed right before the jump is what the jump takes off the stack
      obtain ⟨j, hj, hv, -⟩ := CodeBlock.pushedTarget?_eq_some_iff.1 ht
      have hhead := htop j t (by rw [hsplit]; exact hj) hv
      rw [htarget, Option.some.injEq] at hhead
      exact hcpc.trans hhead

/-- Every run is at some block as long as it goes on. -/
theorem exists_at_of_run (hcode : code ≠ []) {stack : List Nat}
    (h : Relation.ReflTransGen (Step code) ⟨0, stack⟩ s) :
    ∃ b ∈ CodeBlock.ofCode code, At b s := by
  obtain ⟨p, -, hp⟩ := Program.decode_eq_ok hcode
  induction h with
  | refl =>
    obtain ⟨b, hb, hpc⟩ := CodeBlock.exists_first_block hcode
    exact ⟨b, hb, at_of_pc_eq_first hpc⟩
  | tail _ hstep ih =>
    obtain ⟨b, hb, hat⟩ := ih
    rcases step_of_at hp hb hat hstep with ⟨-, hat'⟩ | ⟨c, hc, hpc, -⟩
    · exact ⟨b, hb, hat'⟩
    · exact ⟨c, hc, at_of_pc_eq_first hpc⟩

end Machine

/-- Whatever a run does from offset zero, each of its steps starts in one block of the program. It
goes to the next instruction of that block, or it leaves the block and goes on at the first
instruction of a block, along an edge or from a block that is listed as unresolved. -/
theorem Program.decode_follows_runs (code : List UInt8) (hcode : code ≠ []) :
    ∃ p, Program.decode code = .ok p ∧
      ∀ (stack : List Nat) (s s' : Machine),
        Relation.ReflTransGen (Machine.Step code) ⟨0, stack⟩ s → Machine.Step code s s' →
        ∃ b ∈ p.blocks, s.pc ∈ b.instrs.map (·.pc) ∧
          (∀ c ∈ p.blocks, s.pc ∈ c.instrs.map (·.pc) → c = b) ∧
          (b.Continues s.pc s'.pc ∨
            ∃ c ∈ p.blocks, c.first.pc = s'.pc ∧
              (⟨b.id, c.id⟩ ∈ p.edges ∨ b.id ∈ p.unresolved)) := by
  obtain ⟨p, hdecode, hp⟩ := Program.decode_eq_ok hcode
  refine ⟨p, hdecode, ?_⟩
  intro stack s s' hrun hstep
  obtain ⟨b, hb, hat⟩ := Machine.exists_at_of_run hcode hrun
  rw [hp.blocks]
  obtain ⟨before, i, after, hinstrs, hpc, -⟩ := id hat
  have hi : i ∈ b.instrs := by simp [hinstrs]
  refine ⟨b, hb, List.mem_map.2 ⟨i, hi, hpc⟩, ?_, ?_⟩
  · intro c hc hmem
    obtain ⟨k, hk, hkpc⟩ := List.mem_map.1 hmem
    obtain rfl : k = i := Instruction.eq_of_pc_eq (CodeBlock.mem_read_of_mem_instrs hc hk)
      (CodeBlock.mem_read_of_mem_instrs hb hi) (hkpc.trans hpc.symm)
    exact CodeBlock.eq_of_mem_instrs hc hb hk hi
  · rcases Machine.step_of_at hp hb hat hstep with ⟨hcont, -⟩ | ⟨c, hc, hcpc, hallows⟩
    · exact .inl hcont
    · exact .inr ⟨c, hc, hcpc, hallows⟩

/-- A jump over a byte that is not reached, to a destination that stops the run. -/
def jumpOverByte : List UInt8 := [0x60, 0x04, 0x56, 0x00, 0x5b, 0x00]

/-- The instructions of the code. -/
theorem read_jumpOverByte :
    Instruction.read jumpOverByte =
      [⟨0, ⟨0x60⟩, [0x04]⟩, ⟨2, ⟨0x56⟩, []⟩, ⟨3, ⟨0x00⟩, []⟩, ⟨4, ⟨0x5b⟩, []⟩,
        ⟨5, ⟨0x00⟩, []⟩] := by
  simp [jumpOverByte, Instruction.read, Instruction.readFrom, Opcode.immediateSize]

/-- The jump that the run takes is an edge between the blocks of the code, or its block is listed as
unresolved. -/
theorem Program.decode_follows_runs_jumpOverByte :
    jumpOverByte ≠ [] ∧
      Relation.ReflTransGen (Machine.Step jumpOverByte) ⟨0, []⟩ ⟨2, [4]⟩ ∧
      Machine.Step jumpOverByte ⟨2, [4]⟩ ⟨4, []⟩ ∧
      ∃ p, Program.decode jumpOverByte = .ok p ∧ ∃ b ∈ p.blocks, 2 ∈ b.instrs.map (·.pc) ∧
        (b.Continues 2 4 ∨ ∃ c ∈ p.blocks, c.first.pc = 4 ∧
          (⟨b.id, c.id⟩ ∈ p.edges ∨ b.id ∈ p.unresolved)) := by
  have hne : jumpOverByte ≠ [] := by decide
  have hpush : Machine.Step jumpOverByte ⟨0, []⟩ ⟨2, [4]⟩ :=
    .push (i := ⟨0, ⟨0x60⟩, [0x04]⟩) (by simp [read_jumpOverByte]) (by decide) (by decide)
  have hjump : Machine.Step jumpOverByte ⟨2, [4]⟩ ⟨4, []⟩ :=
    .jump (i := ⟨2, ⟨0x56⟩, []⟩) (by simp [read_jumpOverByte]) rfl
      ⟨⟨4, ⟨0x5b⟩, []⟩, by simp [read_jumpOverByte], rfl, rfl⟩
  obtain ⟨p, hp, hruns⟩ := Program.decode_follows_runs jumpOverByte hne
  obtain ⟨b, hb, hpc, -, hcases⟩ := hruns [] ⟨2, [4]⟩ ⟨4, []⟩ (.single hpush) hjump
  exact ⟨hne, .single hpush, hjump, p, hp, b, hb, hpc, hcases⟩

end StackFlow
