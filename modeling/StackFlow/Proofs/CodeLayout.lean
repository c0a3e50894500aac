import Mathlib.Data.List.Basic
import Mathlib.Data.List.Chain
import Mathlib.Data.List.Nodup
import StackFlow.Bytecode.Program

/-!
# How blocks lie in the code

Instructions follow one another without gaps (`readFrom_isChain`), and the blocks of a program are
its instructions cut into pieces (`flatMap_instrs_split`). A cut is made before each jump
destination and behind each instruction that ends a block, and nowhere does a block hold one of the
two in between (`CodeBlock.Straight`).
-/

namespace StackFlow

namespace Instruction

/-- The offset behind an instruction and its immediate. -/
def next (i : Instruction) : Nat := i.pc + 1 + i.arg.length

/-- An instruction takes up at least one byte. -/
theorem pc_lt_next (i : Instruction) : i.pc < i.next := by
  unfold next
  omega

/-- There is nothing to read behind the end of the code. -/
theorem readFrom_nil (pc : Nat) : readFrom pc [] = [] := by rw [readFrom]

/-- The instruction that code begins with. -/
def readFirst (pc : Nat) (b : UInt8) (rest : List UInt8) : Instruction :=
  ⟨pc, ⟨b⟩, rest.take (Opcode.immediateSize ⟨b⟩) ++
    List.replicate (Opcode.immediateSize ⟨b⟩ - rest.length) 0⟩

/-- The next instruction stands behind the argument. -/
theorem readFirst_next (pc : Nat) (b : UInt8) (rest : List UInt8) :
    (readFirst pc b rest).next = pc + 1 + Opcode.immediateSize ⟨b⟩ := by
  unfold next readFirst
  simp only [List.length_append, List.length_take, List.length_replicate]
  omega

/-- Reading goes on behind the first instruction. -/
theorem readFrom_cons (pc : Nat) (b : UInt8) (rest : List UInt8) :
    readFrom pc (b :: rest) = readFirst pc b rest ::
      readFrom (readFirst pc b rest).next (rest.drop (Opcode.immediateSize ⟨b⟩)) := by
  rw [readFirst_next, readFrom]
  rfl

/-- The first instruction stands where reading begins. -/
theorem pc_of_head?_readFrom {pc : Nat} {code : List UInt8} {i : Instruction}
    (h : (readFrom pc code).head? = some i) : i.pc = pc := by
  cases code with
  | nil => simp [readFrom_nil] at h
  | cons b rest =>
    rw [readFrom_cons, List.head?_cons, Option.some.injEq] at h
    rw [← h]
    rfl

/-- Each instruction stands right behind the one before. -/
theorem readFrom_isChain (pc : Nat) (code : List UInt8) :
    (readFrom pc code).IsChain (fun i j => j.pc = i.next) := by
  induction hn : code.length using Nat.strong_induction_on generalizing pc code with
  | h n ih =>
    cases code with
    | nil => rw [readFrom_nil]; exact .nil
    | cons b rest =>
      rw [readFrom_cons, List.isChain_cons]
      refine ⟨fun j hj => pc_of_head?_readFrom hj, ih _ ?_ _ _ rfl⟩
      rw [← hn, List.length_drop, List.length_cons]
      omega

/-- The last instruction reaches to the end of the code. -/
theorem length_le_next_of_getLast? {pc : Nat} {code : List UInt8} {i : Instruction}
    (h : (readFrom pc code).getLast? = some i) : pc + code.length ≤ i.next := by
  induction hn : code.length using Nat.strong_induction_on generalizing pc code with
  | h n ih =>
    cases code with
    | nil => simp [readFrom_nil] at h
    | cons b rest =>
      rw [readFrom_cons, List.getLast?_cons, Option.some.injEq] at h
      rw [List.length_cons] at hn
      have hnext := readFirst_next pc b rest
      cases hl : (readFrom (readFirst pc b rest).next
          (rest.drop (Opcode.immediateSize ⟨b⟩))).getLast? with
      | none =>
        -- nothing is left behind the first instruction
        rw [List.getLast?_eq_none_iff] at hl
        have hdrop : rest.drop (Opcode.immediateSize ⟨b⟩) = [] := by
          cases hd : rest.drop (Opcode.immediateSize ⟨b⟩) with
          | nil => rfl
          | cons c more => rw [hd, readFrom_cons] at hl; exact absurd hl (List.cons_ne_nil _ _)
        have hlen := List.drop_eq_nil_iff.1 hdrop
        rw [hl, List.getLast?_nil, Option.getD_none] at h
        rw [← h, hnext]
        omega
      | some j =>
        rw [hl, Option.getD_some] at h
        subst h
        have hrest := ih _ (by rw [← hn, List.length_drop]; omega) hl rfl
        rw [hnext, List.length_drop] at hrest
        omega

/-- The offsets of instructions ascend. -/
theorem pairwise_pc_readFrom (pc : Nat) (code : List UInt8) :
    (readFrom pc code).Pairwise (fun i j => i.pc < j.pc) := by
  have hchain : (readFrom pc code).IsChain (fun i j => i.pc < j.pc) := by
    refine (readFrom_isChain pc code).imp (fun i j h => ?_)
    rw [h]
    exact i.pc_lt_next
  have : IsTrans Instruction (fun i j => i.pc < j.pc) := ⟨fun _ _ _ h h' => Nat.lt_trans h h'⟩
  exact List.isChain_iff_pairwise.1 hchain

/-- An instruction begins within the code. -/
theorem pc_lt_of_mem_readFrom {pc : Nat} {code : List UInt8} {i : Instruction}
    (h : i ∈ readFrom pc code) : i.pc < pc + code.length := by
  induction hn : code.length using Nat.strong_induction_on generalizing pc code with
  | h n ih =>
    cases code with
    | nil => rw [readFrom_nil] at h; exact absurd h List.not_mem_nil
    | cons b rest =>
      rw [List.length_cons] at hn
      rw [readFrom_cons] at h
      rcases List.mem_cons.1 h with rfl | h
      · change pc < pc + n
        omega
      · have hlt := ih _ (by rw [List.length_drop]; omega) h rfl
        rw [readFirst_next, List.length_drop] at hlt
        -- behind the immediate there is code left, since an instruction is read from it
        have hle : Opcode.immediateSize ⟨b⟩ ≤ rest.length := by
          by_contra hshort
          rw [List.drop_of_length_le (by omega), readFrom_nil] at h
          exact absurd h List.not_mem_nil
        omega

/-- No instruction occurs twice. -/
theorem nodup_read (code : List UInt8) : (read code).Nodup :=
  (pairwise_pc_readFrom 0 code).imp (fun h e => Nat.ne_of_lt h (congrArg pc e))

/-- An instruction is known by its offset. -/
theorem eq_of_pc_eq {code : List UInt8} {i j : Instruction} (hi : i ∈ read code)
    (hj : j ∈ read code) (h : i.pc = j.pc) : i = j := by
  have hnodup : ((read code).map pc).Nodup :=
    List.pairwise_map.2 ((pairwise_pc_readFrom 0 code).imp Nat.ne_of_lt)
  exact List.inj_on_of_nodup_map hnodup hi hj h

end Instruction

namespace CodeBlock

/-- The last instruction of a block is the last of its instructions. -/
theorem last_eq_getLast (b : CodeBlock) : b.instrs.getLast? = some b.last := by
  rw [instrs, List.getLast?_cons, last, List.getLastD_eq_getLast?]

/-- A block with an instruction behind its last. -/
theorem instrs_append (b : CodeBlock) (i : Instruction) :
    instrs { b with rest := b.rest ++ [i] } = b.instrs ++ [i] := rfl

/-! ## Where blocks are cut -/

/-- A block in which control can neither arrive behind the first instruction nor turn away before
the last. -/
structure Straight (b : CodeBlock) : Prop where
  /-- Behind the first instruction there is no jump destination. -/
  no_jumpDest : ∀ i ∈ b.rest, i.op ≠ Opcode.jumpDest
  /-- Before the last instruction nothing ends the block. -/
  no_end : ∀ i ∈ b.instrs.dropLast, i.op.endsBlock = false

/-- A block that may go on: nothing in it ends it. -/
structure Unfinished (b : CodeBlock) : Prop where
  /-- Behind the first instruction there is no jump destination. -/
  no_jumpDest : ∀ i ∈ b.rest, i.op ≠ Opcode.jumpDest
  /-- No instruction ends the block. -/
  no_end : ∀ i ∈ b.instrs, i.op.endsBlock = false

/-- A block under way runs straight on. -/
theorem Unfinished.straight {b : CodeBlock} (h : b.Unfinished) : b.Straight :=
  ⟨h.no_jumpDest, fun i hi => h.no_end i (List.dropLast_subset _ hi)⟩

/-- A block of one instruction that does not end it. -/
theorem unfinished_single {i : Instruction} (h : i.op.endsBlock = false) :
    (CodeBlock.mk i []).Unfinished :=
  ⟨by simp, by simpa [instrs] using h⟩

/-- A block that may go on, with an instruction behind it that is no jump destination. -/
theorem Unfinished.append {b : CodeBlock} (hb : b.Unfinished) {i : Instruction}
    (hi : i.op ≠ Opcode.jumpDest) : Straight { b with rest := b.rest ++ [i] } := by
  refine ⟨?_, ?_⟩
  · intro j hj
    rcases List.mem_append.1 hj with hj | hj
    · exact hb.no_jumpDest j hj
    · rw [List.mem_singleton.1 hj]
      exact hi
  · rw [instrs_append, List.dropLast_concat]
    exact hb.no_end

/-- All blocks that instructions are split into are straight. -/
theorem straight_of_mem_split {open? : Option CodeBlock} {is : List Instruction}
    (hopen : ∀ b ∈ open?, b.Unfinished) {b : CodeBlock} (hb : b ∈ split open? is) :
    b.Straight := by
  induction is generalizing open? with
  | nil =>
    rw [split, Option.mem_toList] at hb
    exact (hopen b hb).straight
  | cons i is ih =>
    cases open? with
    | none =>
      rw [split] at hb
      split at hb
      next =>
        rcases List.mem_cons.1 hb with rfl | hb
        · exact ⟨by simp, by simp [instrs]⟩
        · exact ih (by simp) hb
      next hi => exact ih (by simpa using unfinished_single (by simpa using hi)) hb
    | some o =>
      have ho : o.Unfinished := hopen o rfl
      rw [split] at hb
      split at hb
      next hd =>
        -- a jump destination closes the open block and opens one of its own
        rcases List.mem_cons.1 hb with rfl | hb
        · exact ho.straight
        · refine ih ?_ hb
          have hend : i.op.endsBlock = false := by
            rw [beq_iff_eq.1 hd]
            decide
          simpa using unfinished_single hend
      next hd =>
        have hs : Straight { o with rest := o.rest ++ [i] } := ho.append (by simpa using hd)
        split at hb
        next =>
          rcases List.mem_cons.1 hb with rfl | hb
          · exact hs
          · exact ih (by simp) hb
        next hi =>
          -- the block stays open, with one instruction more
          refine ih ?_ hb
          rintro c hc
          obtain rfl := Option.some.inj hc
          refine ⟨hs.no_jumpDest, ?_⟩
          rw [instrs_append]
          simpa [or_imp, forall_and] using ⟨ho.no_end, by simpa using hi⟩

/-- Splitting instructions into blocks leaves none out and adds none. -/
theorem flatMap_instrs_split (open? : Option CodeBlock) (is : List Instruction) :
    (split open? is).flatMap instrs = open?.toList.flatMap instrs ++ is := by
  induction is generalizing open? with
  | nil => rw [split, List.append_nil]
  | cons i is ih =>
    cases open? with
    | none =>
      rw [split]
      split
      next => rw [List.flatMap_cons, ih]; rfl
      next => rw [ih]; rfl
    | some o =>
      rw [split]
      split
      next => rw [List.flatMap_cons, ih]; simp [instrs]
      next =>
        split
        next => rw [List.flatMap_cons, ih]; simp [instrs]
        next => rw [ih]; simp [instrs]

/-! ## The blocks of code -/

/-- The blocks of code, in order of their offsets. -/
def ofCode (code : List UInt8) : List CodeBlock := split none (Instruction.read code)

variable {code : List UInt8} {b c : CodeBlock} {i j : Instruction}

/-- The blocks of code are its instructions cut into pieces. -/
theorem flatMap_instrs_ofCode (code : List UInt8) :
    (ofCode code).flatMap instrs = Instruction.read code :=
  flatMap_instrs_split none (Instruction.read code)

/-- The blocks of code run straight on to their last instruction. -/
theorem straight_of_mem_ofCode (hb : b ∈ ofCode code) : b.Straight :=
  straight_of_mem_split (by simp) hb

/-- The instructions of a block are instructions of the code. -/
theorem mem_read_of_mem_instrs (hb : b ∈ ofCode code) (hi : i ∈ b.instrs) :
    i ∈ Instruction.read code := by
  rw [← flatMap_instrs_ofCode]
  exact List.mem_flatMap.2 ⟨b, hb, hi⟩

/-- Every instruction of the code is in a block. -/
theorem exists_mem_instrs_of_mem_read (hi : i ∈ Instruction.read code) :
    ∃ b ∈ ofCode code, i ∈ b.instrs := by
  rw [← flatMap_instrs_ofCode] at hi
  exact List.mem_flatMap.1 hi

/-- No instruction is in two blocks. -/
theorem eq_of_mem_instrs (hb : b ∈ ofCode code) (hc : c ∈ ofCode code) (hib : i ∈ b.instrs)
    (hic : i ∈ c.instrs) : b = c := by
  have hnodup := Instruction.nodup_read code
  rw [← flatMap_instrs_ofCode, List.nodup_flatMap] at hnodup
  have : Std.Symm (Function.onFun List.Disjoint instrs) := ⟨fun _ _ h => List.disjoint_symm h⟩
  by_contra hne
  exact hnodup.2.forall hb hc hne hib hic

/-- The offsets of blocks ascend. -/
theorem pairwise_pc_ofCode (code : List UInt8) :
    (ofCode code).Pairwise (fun b c => b.first.pc < c.first.pc) := by
  have hread := Instruction.pairwise_pc_readFrom 0 code
  rw [← Instruction.read, ← flatMap_instrs_ofCode, List.pairwise_flatMap] at hread
  exact hread.2.imp (fun h => h _ List.mem_cons_self _ List.mem_cons_self)

/-- The first block of code is at offset zero. -/
theorem exists_head?_ofCode (hcode : code ≠ []) :
    ∃ b, (ofCode code).head? = some b ∧ b.first.pc = 0 := by
  have hread := flatMap_instrs_ofCode code
  cases hblocks : ofCode code with
  | nil =>
    obtain ⟨x, rest, rfl⟩ := List.exists_cons_of_ne_nil hcode
    rw [hblocks, Instruction.read, Instruction.readFrom_cons] at hread
    exact absurd hread.symm (List.cons_ne_nil _ _)
  | cons b bs =>
    rw [hblocks, List.flatMap_cons, instrs, List.cons_append] at hread
    have hfirst : (Instruction.readFrom 0 code).head? = some b.first := by
      rw [← Instruction.read, ← hread, List.head?_cons]
    exact ⟨b, rfl, Instruction.pc_of_head?_readFrom hfirst⟩

/-- Code begins with a block at offset zero. -/
theorem exists_first_block (hcode : code ≠ []) : ∃ b ∈ ofCode code, b.first.pc = 0 := by
  obtain ⟨b, hb, hpc⟩ := exists_head?_ofCode hcode
  exact ⟨b, List.mem_of_mem_head? hb, hpc⟩

/-- A block ends with its last instruction. -/
theorem instrs_eq_concat (b : CodeBlock) : b.instrs = b.instrs.dropLast ++ [b.last] :=
  (List.dropLast_append_getLast? b.last b.last_eq_getLast).symm

/-- Within a block each instruction stands right behind the one before. -/
theorem pc_eq_next_of_instrs (hb : b ∈ ofCode code) {before after : List Instruction}
    (h : b.instrs = before ++ i :: j :: after) : j.pc = i.next := by
  have hchain := Instruction.readFrom_isChain 0 code
  obtain ⟨bs, cs, hblocks⟩ := List.append_of_mem hb
  rw [← Instruction.read, ← flatMap_instrs_ofCode, hblocks, List.flatMap_append,
    List.flatMap_cons] at hchain
  have hblock := hchain.right_of_append.left_of_append
  rw [h, List.isChain_append_cons_cons] at hblock
  exact hblock.2.1

/-- Behind the last instruction of a block stands the first of the next block, unless the code ends
there. -/
theorem pc_first_eq_next {bs cs : List CodeBlock} (h : ofCode code = bs ++ b :: cs)
    (hnext : b.last.next < code.length) : ∃ c, cs.head? = some c ∧ c.first.pc = b.last.next := by
  have hread := flatMap_instrs_ofCode code
  rw [h, List.flatMap_append, List.flatMap_cons, b.instrs_eq_concat] at hread
  cases cs with
  | nil =>
    have hlast : (Instruction.readFrom 0 code).getLast? = some b.last := by
      rw [← Instruction.read, ← hread]
      simp
    -- behind the last block the code ends
    have hle := Instruction.length_le_next_of_getLast? hlast
    omega
  | cons c cs =>
    refine ⟨c, rfl, ?_⟩
    have hchain := Instruction.readFrom_isChain 0 code
    rw [← Instruction.read, ← hread, List.flatMap_cons, List.append_assoc,
      List.singleton_append] at hchain
    have hblock := hchain.right_of_append
    exact (List.isChain_append_cons_cons.1 hblock).2.1

end CodeBlock

end StackFlow
