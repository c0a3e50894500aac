import StackFlow.Proofs.ControlFlow

/-!
# What a block needs and leaves

A block is said to need as many items as it goes below its entry height, and to change the height by
a fixed number. `run` is what these numbers are about: instructions executed on a stack of some
items, each of which must find what it takes off. `decode_effects_by_run` says that a block runs on
`h` items if and only if it needs at most `h`, and then leaves `h` and its change.

The heights that the decoder keeps are relative to the entry. `Height.run_along` carries a run along
with them: the stack holds the entry and the height, and no instruction has lacked an item as long
as the entry covers the lowest height so far. The count ends at an opcode that is not defined where
the run goes on, which is the same for a block, since such an opcode can only be its last.

Needs and changes are words. They are exact for code of any length that a need can be counted for:
an instruction lowers the height by six at most, and reaches no more than seventeen items deep
(`Height.along_bounds`).
-/

namespace StackFlow

/-! ## Runs of instructions -/

namespace Instruction

/-- Executes an instruction on a stack of `h` items: it must find the items that it takes off, and
then puts its own on. An opcode that is not defined does nothing. -/
def execute (i : Instruction) (h : Nat) : Option Nat :=
  match i.op.info? with
  | none => some h
  | some e => if e.pops ≤ h then some (h - e.pops + e.pushes) else none

/-- The number of items that instructions leave on a stack of `h` items, unless one of them lacks an
item. -/
def run (h : Nat) : List Instruction → Option Nat
  | [] => some h
  | i :: is => (i.execute h).bind fun h' => run h' is

/-- An undefined instruction leaves the height as it is. -/
theorem run_cons_of_undefined {i : Instruction} (hi : i.op.info? = none) (h : Nat)
    (is : List Instruction) : run h (i :: is) = run h is := by
  rw [run, execute, hi]
  rfl

/-- An instruction that finds the items it pops is executed. -/
theorem run_cons_of_le {i : Instruction} {e : OpcodeInfo} (hi : i.op.info? = some e) {h : Nat}
    (hle : e.pops ≤ h) (is : List Instruction) :
    run h (i :: is) = run (h - e.pops + e.pushes) is := by
  rw [run, execute, hi]
  dsimp only
  rw [if_pos hle]
  rfl

/-- An instruction that does not find the items it pops stops the run. -/
theorem run_cons_of_lt {i : Instruction} {e : OpcodeInfo} (hi : i.op.info? = some e) {h : Nat}
    (hlt : h < e.pops) (is : List Instruction) : run h (i :: is) = none := by
  rw [run, execute, hi]
  dsimp only
  rw [if_neg (Nat.not_le.2 hlt)]
  rfl

end Instruction

namespace CodeBlock.Height

variable {ht : Height} {i : Instruction} {e : OpcodeInfo}

/-! ## The heights along a block -/

/-- The count of heights ends at an undefined instruction. -/
theorem along_cons_of_undefined (hi : i.op.info? = none) (is : List Instruction) :
    ht.along (i :: is) = ht := by
  rw [along, hi]

/-- A defined instruction moves the height, and the least height is taken before its pushes. -/
theorem along_cons (hi : i.op.info? = some e) (is : List Instruction) :
    ht.along (i :: is) =
      (Height.mk (ht.now - e.pops + e.pushes) (min ht.low (ht.now - e.pops))).along is := by
  rw [along, hi]

/-- The lowest height only falls. -/
theorem low_along_le (ht : Height) (is : List Instruction) : (ht.along is).low ≤ ht.low := by
  induction is generalizing ht with
  | nil => exact Int.le_refl _
  | cons i is ih =>
    cases hi : i.op.info? with
    | none => exact Int.le_of_eq (by rw [along_cons_of_undefined hi])
    | some e =>
      rw [along_cons hi]
      exact Int.le_trans (ih _) (Int.min_le_left _ _)

/-- The height is never below the lowest. -/
theorem low_along_le_now (h : ht.low ≤ ht.now) (is : List Instruction) :
    (ht.along is).low ≤ (ht.along is).now := by
  induction is generalizing ht with
  | nil => exact h
  | cons i is ih =>
    cases hi : i.op.info? with
    | none => rw [along_cons_of_undefined hi]; exact h
    | some e =>
      rw [along_cons hi]
      refine ih ?_
      dsimp only
      omega

/-- Instructions of which only the last may be undefined run from an entry of `entry` items, at a
height that the entry covers so far, if and only if the entry covers the lowest height of all. They
then leave the entry and the height behind them. -/
theorem run_along (ht : Height) (entry : Int) {is : List Instruction} {h : Nat}
    (hdefined : ∀ i ∈ is.dropLast, i.op.info? ≠ none) (hnow : (h : Int) = entry + ht.now)
    (hlow : 0 ≤ entry + ht.low) :
    (0 ≤ entry + (ht.along is).low ↔ (Instruction.run h is).isSome = true) ∧
      ∀ h', Instruction.run h is = some h' → (h' : Int) = entry + (ht.along is).now := by
  induction is generalizing ht h with
  | nil =>
    refine ⟨iff_of_true hlow rfl, fun h' hrun => ?_⟩
    obtain rfl : h = h' := Option.some.inj hrun
    exact hnow
  | cons i is ih =>
    have hrest : ∀ j ∈ is.dropLast, j.op.info? ≠ none := by
      intro j hj
      refine hdefined j ?_
      have hne : is ≠ [] := by
        rintro rfl
        exact absurd hj List.not_mem_nil
      rw [List.dropLast_cons_of_ne_nil hne]
      exact List.mem_cons_of_mem i hj
    cases hi : i.op.info? with
    | none =>
      -- the count ends here, and so do the instructions
      obtain rfl : is = [] := by
        by_contra hne
        refine hdefined i ?_ hi
        rw [List.dropLast_cons_of_ne_nil hne]
        exact List.mem_cons_self
      rw [along_cons_of_undefined hi, Instruction.run_cons_of_undefined hi]
      exact ih ht hrest hnow hlow
    | some e =>
      rw [along_cons hi]
      rcases Nat.lt_or_ge h e.pops with hlt | hle
      · -- the instruction lacks an item, and no later one raises the lowest height again
        have hfall := low_along_le
          ⟨ht.now - e.pops + e.pushes, min ht.low (ht.now - e.pops)⟩ is
        dsimp only at hfall
        rw [Instruction.run_cons_of_lt hi hlt]
        exact ⟨iff_of_false (by omega) (by decide), by nofun⟩
      · rw [Instruction.run_cons_of_le hi hle]
        refine ih _ hrest ?_ ?_
        · dsimp only
          omega
        · dsimp only
          omega

end CodeBlock.Height

/-! ## How deep instructions reach -/

/-- An opcode takes at most seventeen items off the stack, at most six more than it puts on, and
puts on at most one more than it takes off. -/
theorem Opcode.info?_bounds {op : Opcode} {e : OpcodeInfo} (h : op.info? = some e) :
    e.pops ≤ 17 ∧ e.pops ≤ e.pushes + 6 ∧ e.pushes ≤ e.pops + 1 := by
  have htable : ∀ row ∈ table, row.2.2.1 ≤ 17 ∧ row.2.2.1 ≤ row.2.2.2 + 6 ∧
      row.2.2.2 ≤ row.2.2.1 + 1 := by decide
  rcases info?_cases h with ⟨k, hk, rfl⟩ | ⟨k, hk, rfl⟩ | ⟨k, hk, rfl⟩ | ⟨k, hk, rfl⟩ |
    ⟨row, hrow, -, rfl⟩
  · dsimp only
    omega
  · dsimp only
    omega
  · dsimp only
    omega
  · dsimp only
    omega
  · exact htable row hrow

/-- What `is.length` instructions can do to the height: each lowers it by six at most and raises it
by one at most, and the last of them may reach eleven items deeper than it leaves the height. -/
theorem CodeBlock.Height.along_bounds (ht : Height) (is : List Instruction) :
    ht.now - 6 * is.length ≤ (ht.along is).now ∧ (ht.along is).now ≤ ht.now + is.length ∧
      min ht.low (ht.now - 6 * is.length - 11) ≤ (ht.along is).low := by
  induction is generalizing ht with
  | nil => exact ⟨by simp [along], by simp [along], Int.min_le_left _ _⟩
  | cons i is ih =>
    rw [List.length_cons]
    cases hi : i.op.info? with
    | none =>
      rw [along_cons_of_undefined hi]
      omega
    | some e =>
      have hrest := ih ⟨ht.now - e.pops + e.pushes, min ht.low (ht.now - e.pops)⟩
      have hbounds := Opcode.info?_bounds hi
      rw [along_cons hi]
      dsimp only at hrest
      omega

/-- Code has no more instructions than bytes. -/
theorem Instruction.length_readFrom_le (pc : Nat) (code : List UInt8) :
    (readFrom pc code).length ≤ code.length := by
  induction hn : code.length using Nat.strong_induction_on generalizing pc code with
  | h n ih =>
    cases code with
    | nil => rw [readFrom_nil]; exact Nat.zero_le _
    | cons b rest =>
      rw [List.length_cons] at hn
      have hrest := ih _ (by rw [List.length_drop]; omega) (readFirst pc b rest).next
        (rest.drop (Opcode.immediateSize ⟨b⟩)) rfl
      rw [List.length_drop] at hrest
      rw [readFrom_cons, List.length_cons]
      omega

namespace CodeBlock

variable {code : List UInt8} {b : CodeBlock}

/-- A block has no more instructions than the code has bytes. -/
theorem length_instrs_le (hb : b ∈ ofCode code) : b.instrs.length ≤ code.length := by
  have hsub : b.instrs.length ≤ ((ofCode code).flatMap instrs).length := by
    rw [List.flatMap_def]
    exact (List.sublist_flatten_of_mem (List.mem_map_of_mem hb)).length_le
  rw [flatMap_instrs_ofCode] at hsub
  exact hsub.trans (Instruction.length_readFrom_le 0 code)

/-- Only the last opcode of a block may be undefined. -/
theorem Straight.defined (h : b.Straight) : ∀ i ∈ b.instrs.dropLast, i.op.info? ≠ none := by
  intro i hi hnone
  have hend := h.no_end i hi
  rw [Opcode.endsBlock, hnone] at hend
  simp at hend

/-- The height behind a block, and its lowest, above the height on entry. -/
def height (b : CodeBlock) : Height := (Height.mk 0 0).along b.instrs

/-- The effect of a block in terms of its heights. -/
theorem effect_eq (b : CodeBlock) :
    b.effect = ⟨Int64.ofInt (-b.height.low), Int64.ofInt b.height.now⟩ := rfl

/-- The words of a block's effect are exact unless the code is longer than a need can be counted
for. -/
theorem toInt_effect (hb : b ∈ ofCode code)
    (hlength : 6 * (code.length : Int) + 11 ≤ Int64.maxValue.toInt) :
    b.effect.need.toInt = -b.height.low ∧ b.effect.stack.toInt = b.height.now := by
  have hle := length_instrs_le hb
  have hmax := Int64.toInt_maxValue
  have hlow : b.height.low ≤ 0 := Height.low_along_le ⟨0, 0⟩ b.instrs
  obtain ⟨hdown, hup, hdeep⟩ := Height.along_bounds ⟨0, 0⟩ b.instrs
  change _ ≤ b.height.now at hdown
  change b.height.now ≤ _ at hup
  change _ ≤ b.height.low at hdeep
  dsimp only at hdown hup hdeep
  rw [effect_eq]
  exact ⟨Int64.toInt_ofInt_of_le (by omega) (by omega),
    Int64.toInt_ofInt_of_le (by omega) (by omega)⟩

end CodeBlock

/-- Code that is not empty has a program, each block of which needs and changes a number of items.
The block runs on `h` items if and only if it needs no more, and then leaves `h` and its change, so
that neither the need nor the sum of the two is negative. The effect of the block has these numbers
as words. They are exact unless the code is so long that a block of that many instructions could
reach deeper than a word can say. -/
theorem Program.decode_effects_by_run (code : List UInt8) (hcode : code ≠ []) :
    ∃ p, Program.decode code = .ok p ∧
      ∀ b ∈ p.blocks, ∃ need change : Int,
        b.effect = ⟨Int64.ofInt need, Int64.ofInt change⟩ ∧
        (6 * (code.length : Int) + 11 ≤ Int64.maxValue.toInt →
          b.effect.need.toInt = need ∧ b.effect.stack.toInt = change) ∧
        0 ≤ need ∧ 0 ≤ need + change ∧
        ∀ h : Nat, (need ≤ h ↔ (Instruction.run h b.instrs).isSome = true) ∧
          ∀ h', Instruction.run h b.instrs = some h' → (h' : Int) = h + change := by
  obtain ⟨p, hdecode, hp⟩ := Program.decode_eq_ok hcode
  refine ⟨p, hdecode, fun b hb => ?_⟩
  rw [hp.blocks] at hb
  have hlow : b.height.low ≤ 0 := CodeBlock.Height.low_along_le ⟨0, 0⟩ b.instrs
  have hnow : b.height.low ≤ b.height.now :=
    CodeBlock.Height.low_along_le_now (Int.le_refl 0) b.instrs
  refine ⟨-b.height.low, b.height.now, b.effect_eq, CodeBlock.toInt_effect hb, by omega, by omega,
    fun h => ?_⟩
  obtain ⟨hruns, hleaves⟩ := CodeBlock.Height.run_along ⟨0, 0⟩ h
    (CodeBlock.straight_of_mem_ofCode hb).defined (h := h) (by simp) (by simp)
  refine ⟨?_, hleaves⟩
  rw [← hruns]
  change _ ↔ 0 ≤ (h : Int) + b.height.low
  omega

/-- An exchange, a copy and a call, which reach deep and put items back, before an opcode that is
not defined. -/
def deepCall : List UInt8 := [0x90, 0x81, 0xf1, 0x0c]

/-- The code is one block. -/
theorem ofCode_deepCall :
    CodeBlock.ofCode deepCall =
      [⟨⟨0, ⟨0x90⟩, []⟩, [⟨1, ⟨0x81⟩, []⟩, ⟨2, ⟨0xf1⟩, []⟩, ⟨3, ⟨0x0c⟩, []⟩]⟩] := by
  have hread : Instruction.read deepCall =
      [⟨0, ⟨0x90⟩, []⟩, ⟨1, ⟨0x81⟩, []⟩, ⟨2, ⟨0xf1⟩, []⟩, ⟨3, ⟨0x0c⟩, []⟩] := by
    simp [deepCall, Instruction.read, Instruction.readFrom, Opcode.immediateSize]
  rw [CodeBlock.ofCode, hread]
  rfl

/-- The block of the code needs six items, with five it does not run, and it leaves five less. -/
theorem Program.decode_effects_by_run_deepCall :
    deepCall ≠ [] ∧ 6 * (deepCall.length : Int) + 11 ≤ Int64.maxValue.toInt ∧
      ∃ p, Program.decode deepCall = .ok p ∧ ∃ b ∈ p.blocks, b.effect = ⟨6, -5⟩ ∧
        (Instruction.run 6 b.instrs).isSome = true ∧ ¬ (Instruction.run 5 b.instrs).isSome = true ∧
        ∀ h', Instruction.run 6 b.instrs = some h' → (h' : Int) = 6 + -5 := by
  have hne : deepCall ≠ [] := by decide
  have hlength : 6 * (deepCall.length : Int) + 11 ≤ Int64.maxValue.toInt := by decide
  obtain ⟨p, hdecode, hblocks⟩ := Program.decode_effects_by_run deepCall hne
  have hp := Program.isDecoded_of_decode hdecode
  have hb := List.mem_singleton_self (CodeBlock.mk ⟨0, ⟨0x90⟩, []⟩
    [⟨1, ⟨0x81⟩, []⟩, ⟨2, ⟨0xf1⟩, []⟩, ⟨3, ⟨0x0c⟩, []⟩])
  rw [← ofCode_deepCall, ← hp.blocks] at hb
  obtain ⟨need, change, -, hexact, -, -, hruns⟩ := hblocks _ hb
  obtain ⟨rfl, rfl⟩ := hexact hlength
  refine ⟨hne, hlength, p, hdecode, _, hb, by decide, ?_, ?_, ?_⟩
  · exact (hruns 6).1.1 (by decide)
  · rw [← (hruns 5).1]
    decide
  · intro h' hrun
    rw [(hruns 6).2 h' hrun]
    decide

end StackFlow
