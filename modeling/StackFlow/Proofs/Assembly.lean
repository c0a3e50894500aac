import Mathlib.Data.List.Infix
import StackFlow.Proofs.CodeLayout

/-!
# Instructions and their bytes

An instruction stands in code as its opcode with the immediate behind it, and `assemble` writes
instructions one behind the other. `Laid` says which lists of instructions can stand in code: those
without gaps whose immediates have the sizes that the opcodes ask for. Reading gives such a list
(`laid_readFrom`), and what such a list is assembled to is read as the list itself
(`readFrom_assemble`).

The other way round something may be added. An immediate that the end of the code cuts off is read
as if zeros followed, and `assemble` writes these zeros out. They belong to the last instruction,
since reading ends where the code does (`exists_assemble_readFrom`).
-/

namespace StackFlow.Instruction

/-- The bytes of an instruction: the opcode, and behind it the immediate. -/
def bytes (i : Instruction) : List UInt8 := i.op.byte :: i.arg

/-- The code of instructions that follow one another. -/
def assemble (is : List Instruction) : List UInt8 := is.flatMap bytes

/-- Instructions as they stand in code from an offset on. -/
structure Laid (pc : Nat) (is : List Instruction) : Prop where
  /-- The first instruction stands at the offset. -/
  first : ∀ i, is.head? = some i → i.pc = pc
  /-- Each instruction stands right behind the one before. -/
  steps : is.IsChain (fun i j => j.pc = i.pc + 1 + i.arg.length)
  /-- Each immediate has the size that its opcode asks for. -/
  sizes : ∀ i ∈ is, i.arg.length = i.op.immediateSize

variable {pc : Nat} {i : Instruction} {is : List Instruction}

/-- The bytes of an instruction come first, its opcode before its argument. -/
theorem assemble_cons (i : Instruction) (is : List Instruction) :
    assemble (i :: is) = i.op.byte :: (i.arg ++ assemble is) := rfl

/-- Behind its first instruction a layout goes on at the next offset. -/
theorem Laid.tail (h : Laid pc (i :: is)) : Laid i.next is := by
  obtain ⟨hnext, hsteps⟩ := List.isChain_cons.1 h.steps
  exact ⟨hnext, hsteps, fun j hj => h.sizes j (List.mem_cons_of_mem _ hj)⟩

/-! ## What is read -/

/-- The argument that is read has the size that the opcode asks for, whatever is left of the code.
-/
theorem length_arg_readFirst (pc : Nat) (b : UInt8) (rest : List UInt8) :
    (readFirst pc b rest).arg.length = Opcode.immediateSize ⟨b⟩ := by
  have hnext := readFirst_next pc b rest
  have hpc : (readFirst pc b rest).pc = pc := rfl
  unfold next at hnext
  omega

/-- Instructions that are read are laid out one behind the other. -/
theorem laid_readFrom (pc : Nat) (code : List UInt8) : Laid pc (readFrom pc code) := by
  refine ⟨fun i => pc_of_head?_readFrom, readFrom_isChain pc code, ?_⟩
  induction pc, code using readFrom.induct with
  | case1 pc => rw [readFrom_nil]; exact fun i hi => absurd hi List.not_mem_nil
  | case2 pc b rest op n ih =>
    rw [readFrom_cons, readFirst_next]
    intro i hi
    rcases List.mem_cons.1 hi with rfl | hi
    · exact length_arg_readFirst pc b rest
    · exact ih i hi

/-! ## Assembling what is read -/

/-- An immediate that ends within the code is the bytes that stand there. -/
theorem arg_readFirst_of_le {b : UInt8} {rest : List UInt8}
    (h : Opcode.immediateSize ⟨b⟩ ≤ rest.length) :
    (readFirst pc b rest).arg = rest.take (Opcode.immediateSize ⟨b⟩) := by
  unfold readFirst
  rw [Nat.sub_eq_zero_of_le h, List.replicate_zero, List.append_nil]

/-- An immediate that the code's end cuts off is the rest of the code, filled up with zeros. -/
theorem arg_readFirst_of_ge {b : UInt8} {rest : List UInt8}
    (h : rest.length ≤ Opcode.immediateSize ⟨b⟩) :
    (readFirst pc b rest).arg =
      rest ++ List.replicate (Opcode.immediateSize ⟨b⟩ - rest.length) 0 := by
  unfold readFirst
  rw [List.take_of_length_le h]

/-- What is read from code is assembled to the code and zeros behind it, which end the immediate of
the last instruction. -/
theorem exists_assemble_readFrom (pc : Nat) (code : List UInt8) :
    ∃ k, assemble (readFrom pc code) = code ++ List.replicate k 0 ∧
      (k = 0 ∨ ∃ i, (readFrom pc code).getLast? = some i ∧ List.replicate k 0 <:+ i.arg) := by
  induction pc, code using readFrom.induct with
  | case1 pc => exact ⟨0, by rw [readFrom_nil]; rfl, .inl rfl⟩
  | case2 pc b rest op n ih =>
    rw [readFrom_cons, readFirst_next, assemble_cons]
    change ∃ k, b :: _ = _ ∧ _
    rcases Nat.le_total rest.length n with hcut | hfits
    · -- the code ends with this instruction
      have hdrop : rest.drop n = [] := List.drop_eq_nil_of_le hcut
      refine ⟨n - rest.length, ?_, .inr ⟨readFirst pc b rest, ?_, ?_⟩⟩
      · rw [hdrop, readFrom_nil, arg_readFirst_of_ge hcut, List.cons_append]
        exact congrArg (b :: ·) (List.append_nil _)
      · rw [hdrop, readFrom_nil, List.getLast?_singleton]
      · rw [arg_readFirst_of_ge hcut]
        exact List.suffix_append _ _
    · obtain ⟨k, hassemble, hzeros⟩ := ih
      refine ⟨k, ?_, hzeros.imp_right ?_⟩
      · rw [hassemble, arg_readFirst_of_le hfits, ← List.append_assoc, List.take_append_drop,
          List.cons_append]
      · rintro ⟨i, hi, hsuffix⟩
        refine ⟨i, ?_, hsuffix⟩
        rw [List.getLast?_cons, hi, Option.getD_some]

/-! ## Reading what is assembled -/

/-- An instruction is read from its own bytes, whatever follows them. -/
theorem readFirst_bytes (hsize : i.arg.length = i.op.immediateSize) (rest : List UInt8) :
    readFirst i.pc i.op.byte (i.arg ++ rest) = i := by
  have harg : (readFirst i.pc i.op.byte (i.arg ++ rest)).arg = i.arg := by
    rw [arg_readFirst_of_le (by rw [← hsize, List.length_append]; omega), ← hsize,
      List.take_left]
  calc readFirst i.pc i.op.byte (i.arg ++ rest)
      = ⟨i.pc, i.op, (readFirst i.pc i.op.byte (i.arg ++ rest)).arg⟩ := rfl
    _ = i := by rw [harg]

/-- Instructions that are laid out are read back from their bytes. -/
theorem readFrom_assemble (h : Laid pc is) : readFrom pc (assemble is) = is := by
  induction is generalizing pc with
  | nil => exact readFrom_nil pc
  | cons i is ih =>
    have hsize := h.sizes i List.mem_cons_self
    obtain rfl : i.pc = pc := h.first i rfl
    rw [assemble_cons, readFrom_cons, readFirst_bytes hsize, ← hsize, List.drop_left, ih h.tail]

/-- Reading code and assembling instructions undo each other. The instructions read from code stand
in it without gaps from offset zero on, the last of them begins within the code, and they are
assembled to the code again, followed by no more than the zeros that fill up the last immediate.
Instructions that stand without gaps from offset zero on are read from the code that they are
assembled to. -/
theorem read_assemble_inverse :
    (∀ code, Laid 0 (read code) ∧
      (∀ i, (read code).getLast? = some i → i.pc < code.length) ∧
      ∃ k, assemble (read code) = code ++ List.replicate k 0 ∧
        (k = 0 ∨ ∃ i, (read code).getLast? = some i ∧ List.replicate k 0 <:+ i.arg)) ∧
    ∀ is, Laid 0 is → read (assemble is) = is := by
  refine ⟨fun code => ⟨laid_readFrom 0 code, fun i hi => ?_, exists_assemble_readFrom 0 code⟩,
    fun is => readFrom_assemble⟩
  have hlt := pc_lt_of_mem_readFrom (List.mem_of_getLast? hi)
  rwa [Nat.zero_add] at hlt

/-- A push of one byte, and a push of two bytes of which code may have left out the second. -/
def twoPushes : List Instruction := [⟨0, ⟨0x60⟩, [0x0a]⟩, ⟨2, ⟨0x61⟩, [0x01, 0x00]⟩]

/-- Both the code that writes the last zero and the code that leaves it out are read as the same
instructions, which are assembled to the former. -/
theorem read_assemble_inverse_twoPushes :
    Laid 0 twoPushes ∧ assemble twoPushes = [0x60, 0x0a, 0x61, 0x01] ++ List.replicate 1 0 ∧
      read (assemble twoPushes) = twoPushes ∧ read [0x60, 0x0a, 0x61, 0x01] = twoPushes := by
  have hlaid : Laid 0 twoPushes :=
    ⟨by rintro i ⟨⟩; rfl, List.isChain_pair.2 rfl, by decide⟩
  refine ⟨hlaid, by decide, read_assemble_inverse.2 twoPushes hlaid, ?_⟩
  simp [twoPushes, read, readFrom, Opcode.immediateSize]

end StackFlow.Instruction
