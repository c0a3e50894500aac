import StackFlow.Proofs.ControlFlow

/-!
# Blocks are the coarsest split of the code

A split cuts instructions into runs such that a jump destination can only be the first of a run and
an opcode that ends a block only the last (`IsSplit`). The blocks of a program are such a split, and
there is no cut between two of them that another split could do without: before the cut stands an
opcode that ends a block, or behind it a jump destination (`isChain_split`). So every split cuts
where the blocks do (`IsSplit.exists_parts`), which makes the blocks the coarsest one.

The number of a block is the offset of its first instruction. It is a word, and exact as long as the
length of the code is one (`CodeBlock.toInt_id`).
-/

namespace StackFlow

/-! ## Opcodes that end a block -/

namespace Opcode

/-- The names of the opcodes that transfer control or halt. -/
def endNames : List String :=
  ["JUMP", "JUMPI", "STOP", "RETURN", "REVERT", "INVALID", "SELFDESTRUCT"]

/-- An opcode ends a block if it transfers control or halts, and also if it is not defined. -/
def Ends (op : Opcode) : Prop := op.info? = none ∨ op.text ∈ endNames

/-- An undefined opcode ends its block. -/
theorem endsBlock_of_info?_eq_none {op : Opcode} (h : op.info? = none) : op.endsBlock = true := by
  rw [endsBlock, h]
  simp

/-- The rows of the table with such a name end a block, and no numbered family has one. -/
theorem endsBlock_of_name {op : Opcode} {e : OpcodeInfo} (he : op.info? = some e)
    (hname : e.name ∈ endNames) : op.endsBlock = true := by
  have htable : ∀ row ∈ table, row.2.1 ∈ endNames → (Opcode.mk row.1).endsBlock = true := by
    decide +kernel
  have hpush : ∀ k ≤ 32, s!"PUSH{k}" ∉ endNames := by decide +kernel
  have hdup : ∀ k ≤ 16, s!"DUP{k}" ∉ endNames := by decide +kernel
  have hswap : ∀ k ≤ 16, s!"SWAP{k}" ∉ endNames := by decide +kernel
  have hlog : ∀ k ≤ 4, s!"LOG{k}" ∉ endNames := by decide +kernel
  rcases info?_cases he with ⟨k, hk, rfl⟩ | ⟨k, hk, rfl⟩ | ⟨k, hk, rfl⟩ | ⟨k, hk, rfl⟩ |
    ⟨row, hrow, hbyte, rfl⟩
  · exact absurd hname (hpush k hk)
  · exact absurd hname (hdup k hk)
  · exact absurd hname (hswap k hk)
  · exact absurd hname (hlog k hk)
  · have hend := htable row hrow hname
    rwa [hbyte] at hend

/-- The test for the end of a block says what it should. -/
theorem endsBlock_iff {op : Opcode} : op.endsBlock = true ↔ op.Ends := by
  constructor
  · intro h
    have hbyte : ∀ b : UInt8, op.byte = b → op = ⟨b⟩ := fun b hb => by rw [← hb]
    unfold endsBlock at h
    simp only [Bool.or_eq_true, beq_iff_eq, Option.isNone_iff_eq_none] at h
    rcases h with ((((((rfl | rfl) | rfl) | h) | h) | h) | h) | h
    · exact .inr (by decide)
    · exact .inr (by decide)
    · exact .inr (by decide)
    · exact .inr (by rw [hbyte _ h]; decide)
    · exact .inr (by rw [hbyte _ h]; decide)
    · exact .inr (by rw [hbyte _ h]; decide)
    · exact .inr (by rw [hbyte _ h]; decide)
    · exact .inl h
  · rintro (h | h)
    · exact endsBlock_of_info?_eq_none h
    · cases he : op.info? with
      | none => exact endsBlock_of_info?_eq_none he
      | some e =>
        rw [text, he] at h
        exact endsBlock_of_name he h

end Opcode

/-! ## Splits -/

/-- A run of instructions that control can only enter at the first and only leave at the last. -/
structure IsRun (run : List Instruction) : Prop where
  /-- There is a first instruction. -/
  ne_nil : run ≠ []
  /-- A jump destination can only be the first. -/
  no_jumpDest : ∀ i ∈ run.tail, i.op ≠ Opcode.jumpDest
  /-- An opcode that ends a block can only be the last. -/
  no_end : ∀ i ∈ run.dropLast, ¬ i.op.Ends

/-- Instructions are cut into runs. -/
structure IsSplit (is : List Instruction) (runs : List (List Instruction)) : Prop where
  /-- One behind the other, the runs are the instructions. -/
  flatten_eq : runs.flatten = is
  /-- Each piece is a run. -/
  isRun : ∀ run ∈ runs, IsRun run

/-- Between an instruction and the next there must be a cut. -/
def MustCut (i j : Instruction) : Prop := i.op.Ends ∨ j.op = Opcode.jumpDest

/-- There need not be a cut within a run. -/
theorem IsRun.not_mustCut {before after : List Instruction} {i j : Instruction}
    (h : IsRun (before ++ i :: j :: after)) : ¬ MustCut i j := by
  rintro (hend | hdest)
  · refine h.no_end i ?_ hend
    rw [List.dropLast_append_of_ne_nil (List.cons_ne_nil _ _), List.dropLast_cons_cons]
    simp
  · refine h.no_jumpDest j ?_ hdest
    cases before with
    | nil => simp
    | cons k before => simp

/-- Where there must be a cut, every split has one. -/
theorem exists_append_of_mustCut {runs : List (List Instruction)}
    {before after : List Instruction} {i j : Instruction} (hruns : ∀ run ∈ runs, IsRun run)
    (hflatten : runs.flatten = before ++ i :: j :: after) (hij : MustCut i j) :
    ∃ left right, runs = left ++ right ∧ left.flatten = before ++ [i] ∧
      right.flatten = j :: after := by
  induction runs generalizing before with
  | nil => exact absurd hflatten (by simp)
  | cons run runs ih =>
    obtain ⟨hrun, hrest⟩ := List.forall_mem_cons.1 hruns
    rw [List.flatten_cons, ← List.singleton_append (x := i), ← List.append_assoc,
      List.append_eq_append_iff] at hflatten
    rcases hflatten with ⟨more, hmore, hflat⟩ | ⟨beyond, hbeyond, hflat⟩
    · -- the run ends at the cut or before
      rcases List.eq_nil_or_concat' more with rfl | ⟨more, k, rfl⟩
      · rw [List.append_nil] at hmore
        exact ⟨[run], runs, rfl, by simp [hmore], hflat⟩
      · rw [← List.append_assoc] at hmore
        obtain ⟨rfl, hk⟩ := List.append_inj' hmore rfl
        obtain rfl : i = k := by simpa using hk
        rw [List.append_assoc, List.singleton_append] at hflat
        obtain ⟨left, right, rfl, hleft, hright⟩ := ih hrest hflat
        exact ⟨run :: left, right, rfl, by simp [hleft], hright⟩
    · cases beyond with
      | nil =>
        rw [List.append_nil] at hbeyond
        exact ⟨[run], runs, rfl, by simp [hbeyond], hflat.symm⟩
      | cons k beyond =>
        -- a run that goes on behind the cut would hold both instructions
        obtain ⟨rfl, -⟩ := List.cons.inj hflat
        rw [hbeyond, List.append_assoc, List.singleton_append] at hrun
        exact absurd hij hrun.not_mustCut

namespace CodeBlock

variable {b c : CodeBlock} {code : List UInt8}

/-- The last instruction of a block is the one that was put behind it. -/
theorem last_append (b : CodeBlock) (i : Instruction) :
    last { b with rest := b.rest ++ [i] } = i := by
  unfold last
  rw [List.getLastD_concat]

/-- The block that is still open keeps its first instruction. -/
theorem first_of_head?_split {is : List Instruction}
    (h : (split (some b) is).head? = some c) : c.first = b.first := by
  induction is generalizing b with
  | nil =>
    rw [split, Option.toList_some, List.head?_cons, Option.some.injEq] at h
    rw [h]
  | cons i is ih =>
    rw [split] at h
    dsimp only at h
    split at h
    next => rw [List.head?_cons, Option.some.injEq] at h; rw [h]
    next =>
      split at h
      next => rw [List.head?_cons, Option.some.injEq] at h; rw [← h]
      next => exact ih (b := { b with rest := b.rest ++ [i] }) h

/-- Between two blocks there must be a cut. -/
theorem isChain_split (open? : Option CodeBlock) (is : List Instruction) :
    (split open? is).IsChain (fun b c => MustCut b.last c.first) := by
  induction is generalizing open? with
  | nil =>
    rw [split]
    cases open? with
    | none => exact .nil
    | some b => exact .singleton b
  | cons i is ih =>
    cases open? with
    | none =>
      rw [split]
      split
      next hend =>
        exact List.isChain_cons.2 ⟨fun c _ => .inl (Opcode.endsBlock_iff.1 hend), ih none⟩
      next => exact ih _
    | some b =>
      rw [split]
      dsimp only
      split
      next hdest =>
        -- the open block is closed before a jump destination, which begins the next one
        refine List.isChain_cons.2 ⟨fun c hc => .inr ?_, ih _⟩
        rw [first_of_head?_split hc]
        exact beq_iff_eq.1 hdest
      next =>
        split
        next hend =>
          refine List.isChain_cons.2 ⟨fun c _ => .inl ?_, ih none⟩
          rw [last_append]
          exact Opcode.endsBlock_iff.1 hend
        next => exact ih _

/-- A straight block is a run. -/
theorem Straight.isRun (h : b.Straight) : IsRun b.instrs where
  ne_nil := List.cons_ne_nil _ _
  no_jumpDest := h.no_jumpDest
  no_end i hi hend := by
    have hfalse := h.no_end i hi
    rw [Opcode.endsBlock_iff.2 hend] at hfalse
    exact absurd hfalse (by decide)

/-- The blocks of code are its instructions, split at the right places. -/
theorem isSplit_ofCode (code : List UInt8) :
    IsSplit (Instruction.read code) ((ofCode code).map instrs) := by
  constructor
  case flatten_eq => rw [← List.flatMap_def, flatMap_instrs_ofCode]
  case isRun =>
    intro run hrun
    obtain ⟨b, hb, rfl⟩ := List.mem_map.1 hrun
    exact (straight_of_mem_ofCode hb).isRun

/-- Blocks with no cut between them that need not be there are coarser than any runs of the same
instructions: the runs can be put together to the blocks. -/
theorem exists_parts {bs : List CodeBlock} (hbs : bs.IsChain (fun b c => MustCut b.last c.first))
    {runs : List (List Instruction)} (hruns : ∀ run ∈ runs, IsRun run)
    (hflatten : runs.flatten = (bs.map instrs).flatten) :
    ∃ parts : List (List (List Instruction)),
      parts.flatten = runs ∧ parts.map List.flatten = bs.map instrs := by
  induction bs generalizing runs with
  | nil =>
    refine ⟨[], ?_, rfl⟩
    cases runs with
    | nil => rfl
    | cons run runs =>
      -- a run is not empty
      refine absurd ?_ (hruns run List.mem_cons_self).ne_nil
      exact (List.append_eq_nil_iff.1 hflatten).1
  | cons b bs ih =>
    obtain ⟨hcut, hchain⟩ := List.isChain_cons.1 hbs
    cases bs with
    | nil =>
      refine ⟨[runs], by simp, ?_⟩
      simpa using hflatten
    | cons c cs =>
      have hsplit : runs.flatten =
          b.instrs.dropLast ++ b.last :: c.first :: (c.rest ++ (cs.map instrs).flatten) := by
        rw [hflatten, List.map_cons, List.flatten_cons, b.instrs_eq_concat]
        simp [instrs]
      obtain ⟨left, right, rfl, hleft, hright⟩ :=
        exists_append_of_mustCut hruns hsplit (hcut c rfl)
      obtain ⟨parts, rfl, hparts⟩ :=
        ih hchain (fun run hrun => hruns run (List.mem_append_right left hrun)) hright
      refine ⟨left :: parts, rfl, ?_⟩
      rw [List.map_cons, List.map_cons, hparts, hleft, ← b.instrs_eq_concat]

/-- A run among the instructions of such blocks lies within one of them. -/
theorem exists_mem_of_isRun {bs : List CodeBlock}
    (hbs : bs.IsChain (fun b c => MustCut b.last c.first)) {before run after : List Instruction}
    (hrun : IsRun run) (hflatten : (bs.map instrs).flatten = before ++ run ++ after) :
    ∃ b ∈ bs, ∃ front back, b.instrs = front ++ run ++ back := by
  induction bs generalizing before with
  | nil => exact absurd hflatten (by simp [hrun.ne_nil])
  | cons b bs ih =>
    obtain ⟨hcut, hchain⟩ := List.isChain_cons.1 hbs
    rw [List.map_cons, List.flatten_cons, List.append_assoc] at hflatten
    rcases List.append_eq_append_iff.1 hflatten with ⟨more, rfl, hrest⟩ | ⟨inside, hb, hrest⟩
    · -- the run begins behind the block
      rw [← List.append_assoc] at hrest
      obtain ⟨c, hc, hparts⟩ := ih hchain hrest
      exact ⟨c, List.mem_cons_of_mem _ hc, hparts⟩
    · rcases List.append_eq_append_iff.1 hrest with ⟨back, rfl, -⟩ | ⟨beyond, rfl, hbeyond⟩
      · exact ⟨b, List.mem_cons_self, before, back, by rw [hb, List.append_assoc]⟩
      obtain rfl | ⟨inside, i, rfl⟩ := List.eq_nil_or_concat' inside
      · -- the run begins with the next block
        obtain ⟨c, hc, hparts⟩ := ih hchain
          (show (bs.map instrs).flatten = [] ++ ([] ++ beyond) ++ after from hbeyond)
        exact ⟨c, List.mem_cons_of_mem _ hc, hparts⟩
      cases beyond with
      | nil => exact ⟨b, List.mem_cons_self, before, [], by simp [hb]⟩
      | cons j beyond =>
        -- the run would go on behind the last instruction of the block, where there must be a cut
        obtain rfl : i = b.last := by
          have hlast := b.last_eq_getLast
          rw [hb, ← List.append_assoc, List.getLast?_concat] at hlast
          exact Option.some.inj hlast
        cases bs with
        | nil => exact absurd hbeyond (by simp)
        | cons c cs =>
          obtain ⟨rfl, -⟩ := List.cons.inj hbeyond
          rw [List.append_assoc, List.singleton_append] at hrun
          exact absurd (hcut c rfl) hrun.not_mustCut

/-! ## Numbers of blocks -/

/-- The number of a block is the offset of its first instruction, as long as the length of the code
is a word. -/
theorem toInt_id (hlength : (code.length : Int) ≤ Int64.maxValue.toInt) (hb : b ∈ ofCode code) :
    b.id.toInt = b.first.pc := by
  have hpc := Instruction.pc_lt_of_mem_readFrom (mem_read_of_mem_instrs hb List.mem_cons_self)
  have hmax := Int64.toInt_maxValue
  exact Int64.toInt_ofNat_of_lt (by omega)

/-- The numbers of blocks ascend. -/
theorem pairwise_id_ofCode (hlength : (code.length : Int) ≤ Int64.maxValue.toInt) :
    ((ofCode code).map id).Pairwise (· < ·) := by
  refine List.pairwise_map.2 ((pairwise_pc_ofCode code).imp_of_mem (fun {b c} hb hc hlt => ?_))
  rw [Int64.lt_iff_toInt_lt, toInt_id hlength hb, toInt_id hlength hc]
  exact Int.ofNat_lt.2 hlt

end CodeBlock

/-- Code that is not empty has a program, whose blocks are its instructions cut into runs. The
numbers of the blocks ascend from zero, and each is the offset of the block's first instruction.
Between two blocks there must be a cut, and so the blocks are the coarsest split: the runs of any
other can be put together to them. -/
theorem Program.decode_coarsest_split (code : List UInt8) (hcode : code ≠ [])
    (hlength : (code.length : Int) ≤ Int64.maxValue.toInt) :
    ∃ p, Program.decode code = .ok p ∧
      IsSplit (Instruction.read code) (p.blocks.map CodeBlock.instrs) ∧
      (p.blocks.map CodeBlock.id).head? = some 0 ∧
      (p.blocks.map CodeBlock.id).Pairwise (· < ·) ∧
      (∀ b ∈ p.blocks, b.id.toInt = b.first.pc) ∧
      p.blocks.IsChain (fun b c => b.last.op.Ends ∨ c.first.op = Opcode.jumpDest) ∧
      ∀ runs, IsSplit (Instruction.read code) runs →
        ∃ parts : List (List (List Instruction)),
          parts.flatten = runs ∧ parts.map List.flatten = p.blocks.map CodeBlock.instrs := by
  obtain ⟨p, hdecode, hp⟩ := Program.decode_eq_ok hcode
  have hsplit := CodeBlock.isSplit_ofCode code
  have hchain := CodeBlock.isChain_split none (Instruction.read code)
  refine ⟨p, hdecode, ?_⟩
  rw [hp.blocks]
  refine ⟨hsplit, ?_, CodeBlock.pairwise_id_ofCode hlength, fun b => CodeBlock.toInt_id hlength,
    hchain, fun runs hruns => ?_⟩
  · obtain ⟨b, hb, hpc⟩ := CodeBlock.exists_head?_ofCode hcode
    rw [List.head?_map, hb, Option.map_some, CodeBlock.id, hpc]
    rfl
  · exact CodeBlock.exists_parts hchain hruns.isRun (hruns.flatten_eq.trans hsplit.flatten_eq.symm)

/-- Jump destinations one behind the other and right behind a jump, an opcode that is not defined,
and a push whose immediate runs over the end of the code and looks like a jump destination. -/
def jumpDests : List UInt8 := [0x5b, 0x5b, 0x56, 0x5b, 0x0c, 0x62, 0x5b]

/-- The instructions of the code. -/
theorem read_jumpDests :
    Instruction.read jumpDests =
      [⟨0, ⟨0x5b⟩, []⟩, ⟨1, ⟨0x5b⟩, []⟩, ⟨2, ⟨0x56⟩, []⟩, ⟨3, ⟨0x5b⟩, []⟩, ⟨4, ⟨0x0c⟩, []⟩,
        ⟨5, ⟨0x62⟩, [0x5b, 0, 0]⟩] := by
  simp [jumpDests, Instruction.read, Instruction.readFrom, Opcode.immediateSize]

/-- Instructions one by one are a split, and four blocks are the coarsest. -/
theorem Program.decode_coarsest_split_jumpDests :
    jumpDests ≠ [] ∧ (jumpDests.length : Int) ≤ Int64.maxValue.toInt ∧
      IsSplit (Instruction.read jumpDests) ((Instruction.read jumpDests).map ([·])) ∧
      ∃ p, Program.decode jumpDests = .ok p ∧ p.blocks.map CodeBlock.id = [0, 1, 3, 5] ∧
        (p.blocks.map CodeBlock.id).Pairwise (· < ·) ∧
        ∃ parts : List (List (List Instruction)),
          parts.flatten = (Instruction.read jumpDests).map ([·]) ∧
          parts.map List.flatten = p.blocks.map CodeBlock.instrs := by
  have hne : jumpDests ≠ [] := by decide
  have hlength : (jumpDests.length : Int) ≤ Int64.maxValue.toInt := by decide
  have hsingle : IsSplit (Instruction.read jumpDests) ((Instruction.read jumpDests).map ([·])) := by
    constructor
    case flatten_eq => rw [← List.flatMap_def, List.flatMap_singleton']
    case isRun =>
      intro run hrun
      obtain ⟨i, -, rfl⟩ := List.mem_map.1 hrun
      exact ⟨by simp, by simp, by simp⟩
  obtain ⟨p, hdecode, -, -, hascend, -, -, hcoarsest⟩ :=
    Program.decode_coarsest_split jumpDests hne hlength
  have hp := Program.isDecoded_of_decode hdecode
  refine ⟨hne, hlength, hsingle, p, hdecode, ?_, hascend, hcoarsest _ hsingle⟩
  rw [hp.blocks, CodeBlock.ofCode, read_jumpDests]
  decide

end StackFlow
