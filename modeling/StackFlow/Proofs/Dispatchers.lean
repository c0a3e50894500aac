import StackFlow.Proofs.ProgramEdges

/-!
# Dispatchers

A dispatcher tests the selector of a call against one constant after the other. A `SelectorTest` is
such a test by itself: a push of four bytes, at most one copy of a stack word, a comparison, a push
and a conditional jump. The decoder finds just the tests among the instructions of the code whose
jump leads to a jump destination, in the order of their offsets (`exists_tests`), and so the entry
of a function is where the last test of its selector leads.

Nothing in a test but its jump ends a block and nothing behind its first instruction begins one, so
that a test lies within one block, which it ends (`IsIn.exists_block`). The edges are found block by
block and not by tests, and still there is one from that block to the entry
(`entries_by_last_test`).
-/

namespace StackFlow

/-! ## Tests of a selector -/

/-- The opcodes that copy a stack word are one range. -/
theorem Opcode.isDup_iff {op : Opcode} : op.isDup = true ↔ 0x80 ≤ op.byte ∧ op.byte ≤ 0x8f := by
  rw [isDup, Bool.and_eq_true, decide_eq_true_eq, decide_eq_true_eq]

/-- Instructions that jump if a selector is a constant. -/
structure SelectorTest where
  /-- The push of the constant. -/
  select : Instruction
  /-- A copy of the selector, unless it is right below the constant. -/
  copy? : Option Instruction
  /-- The comparison. -/
  compare : Instruction
  /-- The push of the offset to jump to. -/
  target : Instruction
  /-- The jump. -/
  jump : Instruction
  /-- A selector has four bytes. -/
  select_op : select.op = Opcode.push4
  /-- Any of sixteen stack words may be copied. -/
  copy_op : ∀ c ∈ copy?, 0x80 ≤ c.op.byte ∧ c.op.byte ≤ 0x8f
  compare_op : compare.op = Opcode.eq
  /-- The offset may have any number of bytes. -/
  target_op : 0x5f ≤ target.op.byte ∧ target.op.byte ≤ 0x7f
  jump_op : jump.op = Opcode.jumpIf

namespace SelectorTest

variable {code : List UInt8} {t u : SelectorTest} {is : List Instruction}

/-- The instructions of a test. -/
def instrs (t : SelectorTest) : List Instruction :=
  t.select :: (t.copy?.toList ++ [t.compare, t.target, t.jump])

/-- The jump is the last instruction of a test. -/
theorem instrs_eq_concat (t : SelectorTest) :
    t.instrs = (t.select :: (t.copy?.toList ++ [t.compare, t.target])) ++ [t.jump] := by
  simp [instrs]

/-- The selector that is tested, as text. -/
def selector (t : SelectorTest) : String := "0x" ++ Hex.encode t.select.arg

/-- The offset that is jumped to. -/
def offset (t : SelectorTest) : Nat := Instruction.bigEndian t.target.arg

/-- A test stands in the code: its instructions follow each other there, and it jumps to the offset
of a jump destination. -/
structure IsIn (code : List UInt8) (t : SelectorTest) : Prop where
  /-- The instructions are consecutive ones of the code. -/
  consecutive : t.instrs <:+: Instruction.read code
  /-- The instruction at the offset is a jump destination. -/
  destination : ∃ d ∈ Instruction.read code, d.op = Opcode.jumpDest ∧ d.pc = t.offset

/-- A test is in the code if its instructions stand there in a row and its target is a destination.
-/
theorem isIn_iff :
    t.IsIn code ↔
      t.instrs <:+: Instruction.read code ∧ t.offset ∈ Program.destinations code := by
  rw [Program.mem_destinations]
  exact ⟨fun h => ⟨h.consecutive, h.destination⟩, fun h => ⟨h.1, h.2⟩⟩

/-- As a block number, the offset is not changed. -/
theorem IsIn.toInt_offset (h : t.IsIn code)
    (hlength : (code.length : Int) ≤ Int64.maxValue.toInt) :
    (Int64.ofNat t.offset).toInt = t.offset := by
  have hlt := Machine.IsDestination.lt_length h.destination
  have hmax := Int64.toInt_maxValue
  exact Int64.toInt_ofNat_of_lt (by omega)

/-- The push of the selector is an instruction of the test. -/
theorem select_mem_instrs (t : SelectorTest) : t.select ∈ t.instrs := List.mem_cons_self

/-- What stands between the selector and the comparison duplicates an item. -/
theorem isDup_copy (t : SelectorTest) : ∀ c ∈ t.copy?, c.op.isDup = true :=
  fun c hc => Opcode.isDup_iff.2 (t.copy_op c hc)

/-- The instruction before the jump pushes the target. -/
theorem value?_target (t : SelectorTest) : t.target.value? = some t.offset :=
  Instruction.value?_eq_some_iff.2 ⟨t.target_op.1, t.target_op.2, rfl⟩

/-- The comparison duplicates no item. -/
theorem isDup_compare (t : SelectorTest) : t.compare.op.isDup = false := by
  rw [t.compare_op]
  rfl

/-- Instructions begin with one test at most. -/
theorem eq_of_isPrefix (ht : t.instrs <+: is) (hu : u.instrs <+: is) : t = u := by
  obtain ⟨after, rfl⟩ := ht
  obtain ⟨after', h⟩ := hu
  -- a comparison is not a copy, so that both tests have one or none has
  have hcompare := Bool.eq_false_iff.1 t.isDup_compare
  have hcompare' := Bool.eq_false_iff.1 u.isDup_compare
  have hcopy := t.isDup_copy
  have hcopy' := u.isDup_copy
  obtain ⟨select, copy?, compare, target, jump⟩ := t
  obtain ⟨select', copy?', compare', target', jump'⟩ := u
  simp only [instrs, List.cons_append, List.append_assoc, List.nil_append, List.cons.injEq] at h
  obtain ⟨rfl, h⟩ := h
  cases copy? with
  | none =>
    cases copy?' with
    | none =>
      obtain ⟨rfl, rfl, rfl, -⟩ : _ ∧ _ ∧ _ ∧ _ := by simpa using h
      rfl
    | some c' => exact absurd (hcopy' c' rfl) (List.head_eq_of_cons_eq h ▸ hcompare)
  | some c =>
    cases copy?' with
    | none => exact absurd (hcopy c rfl) (List.head_eq_of_cons_eq h ▸ hcompare')
    | some c' =>
      obtain ⟨rfl, rfl, rfl, rfl, -⟩ : _ ∧ _ ∧ _ ∧ _ ∧ _ := by simpa using h
      rfl

end SelectorTest

/-! ## The functions found -/

namespace Program

variable {code : List UInt8} {is : List Instruction}

/-- What the decoder takes for a test is one. -/
theorem exists_test_of_dispatch? {ds : List Nat} {f : String × Nat}
    (h : dispatch? ds is = some f) :
    ∃ t : SelectorTest, t.instrs <+: is ∧ t.offset ∈ ds ∧ f = (t.selector, t.offset) := by
  cases is with
  | nil => exact absurd h (by nofun)
  | cons i rest =>
    have hi : i.op = Opcode.push4 := by
      by_contra hi
      simp [dispatch?, hi] at h
    simp only [dispatch?, hi, ne_eq, not_true_eq_false, if_false] at h
    split at h
    next compare target jump after htail =>
      split_ifs at h with hops
      split at h
      next v hv =>
        split_ifs at h with hdest
        obtain ⟨hlow, hhigh, rfl⟩ := Instruction.value?_eq_some_iff.1 hv
        -- the comparison stands right behind the constant or behind a copy
        obtain ⟨copy?, hcopy, rfl⟩ : ∃ copy? : Option Instruction,
            (∀ c ∈ copy?, c.op.isDup = true) ∧
              rest = copy?.toList ++ compare :: target :: jump :: after := by
          cases rest with
          | nil => exact absurd htail (by nofun)
          | cons d more =>
            by_cases hd : d.op.isDup = true
            · exact ⟨some d, by simpa using hd, by simpa [hd] using htail⟩
            · exact ⟨none, by simp, by simpa [hd] using htail⟩
        let t : SelectorTest := {
          select := i, copy?, compare, target, jump
          select_op := hi
          copy_op := fun c hc => Opcode.isDup_iff.1 (hcopy c hc)
          compare_op := hops.1
          target_op := ⟨hlow, hhigh⟩
          jump_op := hops.2 }
        exact ⟨t, ⟨after, by simp [t, SelectorTest.instrs]⟩, hdest.2, (Option.some.inj h).symm⟩
      next => cases h
    next => cases h

/-- The decoder takes a test for one. -/
theorem dispatch?_instrs_append {ds : List Nat} {t : SelectorTest} (hdest : t.offset ∈ ds)
    (hsize : t.offset < UInt64.size) (after : List Instruction) :
    dispatch? ds (t.instrs ++ after) = some (t.selector, t.offset) := by
  have heq : Opcode.eq.isDup = false := rfl
  cases hcopy : t.copy? with
  | none =>
    simp [SelectorTest.instrs, hcopy, dispatch?, t.select_op, heq, t.compare_op, t.jump_op,
      t.value?_target, hsize, hdest, SelectorTest.selector]
  | some c =>
    simp [SelectorTest.instrs, hcopy, dispatch?, t.select_op, t.isDup_copy c hcopy, t.compare_op,
      t.jump_op, t.value?_target, hsize, hdest, SelectorTest.selector]

/-- The decoder finds a function just where instructions begin with a test that leads to a jump
destination. -/
theorem dispatch?_eq_some_iff (hlength : (code.length : Int) ≤ Int64.maxValue.toInt)
    {f : String × Nat} :
    dispatch? (destinations code) is = some f ↔
      ∃ t : SelectorTest, t.instrs <+: is ∧ t.offset ∈ destinations code ∧
        f = (t.selector, t.offset) := by
  refine ⟨exists_test_of_dispatch?, ?_⟩
  rintro ⟨t, ⟨after, rfl⟩, hdest, rfl⟩
  refine dispatch?_instrs_append hdest ?_ after
  -- the destination is an offset of the code, so that the bound on words loses nothing
  exact (mem_destinations.1 hdest).lt_length.trans (CodeBlock.length_lt_size hlength)

/-- The functions found among instructions are those of the tests there that lead to a jump
destination, in the order of their offsets. -/
theorem exists_tests (hlength : (code.length : Int) ≤ Int64.maxValue.toInt)
    (his : is.Pairwise (fun i j => i.pc < j.pc)) :
    ∃ ts : List SelectorTest,
      functions (destinations code) is = ts.map (fun t => (t.selector, t.offset)) ∧
      ts.Pairwise (fun t u => t.select.pc < u.select.pc) ∧
      ∀ t, t ∈ ts ↔ t.instrs <:+: is ∧ t.offset ∈ destinations code := by
  induction is with
  | nil => exact ⟨[], rfl, .nil, fun t => by simp [SelectorTest.instrs]⟩
  | cons i is ih =>
    obtain ⟨hi, his⟩ := List.pairwise_cons.1 his
    obtain ⟨ts, hfunctions, hascend, hmem⟩ := ih his
    cases hf : dispatch? (destinations code) (i :: is) with
    | none =>
      refine ⟨ts, by rw [functions, hf, hfunctions]; rfl, hascend, fun t => ?_⟩
      rw [hmem, List.infix_cons_iff, or_and_right, or_iff_right]
      rintro ⟨hfirst, hdest⟩
      have hsome := (dispatch?_eq_some_iff hlength).2 ⟨t, hfirst, hdest, rfl⟩
      exact absurd (hf.symm.trans hsome) (by nofun)
    | some f =>
      obtain ⟨t, hfirst, hdest, rfl⟩ := (dispatch?_eq_some_iff hlength).1 hf
      refine ⟨t :: ts, by rw [functions, hf, hfunctions]; rfl, ?_, fun u => ?_⟩
      · refine List.pairwise_cons.2 ⟨fun u hu => ?_, hascend⟩
        rw [(List.cons_prefix_cons.1 hfirst).1]
        exact hi _ (((hmem u).1 hu).1.subset u.select_mem_instrs)
      · rw [List.mem_cons, hmem, List.infix_cons_iff, or_and_right]
        refine or_congr_left ⟨?_, fun h => SelectorTest.eq_of_isPrefix h.1 hfirst⟩
        rintro rfl
        exact ⟨hfirst, hdest⟩

end Program

/-- Of items in ascending order, the last with a property is the greatest with it. -/
theorem find?_reverse_eq_some_iff {α : Type} {l : List α} {key : α → Nat}
    (h : l.Pairwise (fun a b => key a < key b)) {q : α → Bool} {a : α} :
    l.reverse.find? q = some a ↔ a ∈ l ∧ q a = true ∧ ∀ b ∈ l, q b = true → key b ≤ key a := by
  have hdescend : l.reverse.Pairwise (fun a b => key b < key a) := List.pairwise_reverse.2 h
  rw [List.find?_eq_some_iff_append]
  constructor
  · rintro ⟨ha, before, after, hl, hnone⟩
    have hmem : ∀ b, b ∈ l ↔ b ∈ before ++ a :: after := fun b => by rw [← hl, List.mem_reverse]
    rw [hl] at hdescend
    refine ⟨(hmem a).2 (by simp), ha, fun b hb hqb => ?_⟩
    rcases List.mem_append.1 ((hmem b).1 hb) with hb | hb
    · simpa [hqb] using hnone b hb
    · rcases List.mem_cons.1 hb with rfl | hb
      · exact Nat.le_refl _
      · have hlater := (List.pairwise_append.1 hdescend).2.1
        exact Nat.le_of_lt ((List.pairwise_cons.1 hlater).1 b hb)
  · rintro ⟨ha, hqa, hall⟩
    obtain ⟨before, after, hl⟩ := List.append_of_mem (List.mem_reverse.2 ha)
    refine ⟨hqa, before, after, hl, fun b hb => ?_⟩
    by_contra hqb
    rw [hl] at hdescend
    have hmem : b ∈ l := by
      rw [← List.mem_reverse, hl]
      exact List.mem_append_left _ hb
    have hle := hall b hmem (by simpa using hqb)
    have hlt := (List.pairwise_append.1 hdescend).2.2 b hb a List.mem_cons_self
    omega

namespace Program

variable {code : List UInt8} {p : Program}

/-- The entry of a function is where the last test of its selector leads. -/
theorem IsDecoded.get?_entries_iff (hp : IsDecoded code p)
    (hlength : (code.length : Int) ≤ Int64.maxValue.toInt) {s : String} {e : BlockId} :
    p.entries.get? s = some e ↔
      ∃ t : SelectorTest, t.IsIn code ∧ t.selector = s ∧ e.toInt = t.offset ∧
        ∀ u : SelectorTest, u.IsIn code → u.selector = s → u.select.pc ≤ t.select.pc := by
  have hread : (Instruction.read code).Pairwise (fun i j => i.pc < j.pc) :=
    Instruction.pairwise_pc_readFrom 0 code
  obtain ⟨ts, hfunctions, hascend, hmem⟩ := exists_tests hlength hread
  rw [hp.entries, get?_foldl_insert, SortedMap.get?_empty, Option.or_none, hfunctions,
    ← List.map_reverse, List.find?_map, Option.map_map, Option.map_eq_some_iff]
  refine exists_congr (fun t => ?_)
  simp only [find?_reverse_eq_some_iff hascend, hmem, ← SelectorTest.isIn_iff, Function.comp_apply,
    decide_eq_true_eq, and_assoc]
  refine and_congr_right (fun ht => and_congr_right (fun _ => ?_))
  rw [and_comm, ← ht.toInt_offset hlength, Int64.toInt_inj, eq_comm]

end Program

/-! ## The block of a test -/

namespace SelectorTest

variable {code : List UInt8} {t : SelectorTest} {b : CodeBlock}

/-- Control can only enter a test at its first instruction and only leave it at its jump. -/
theorem isRun (t : SelectorTest) : IsRun t.instrs where
  ne_nil := List.cons_ne_nil _ _
  no_jumpDest i hi := by
    have hi : i ∈ t.copy? ∨ i = t.compare ∨ i = t.target ∨ i = t.jump := by
      simpa [instrs] using hi
    intro hop
    rcases hi with hi | rfl | rfl | rfl
    · exact absurd (t.copy_op i hi).1 (by rw [hop]; decide)
    · exact absurd (t.compare_op.symm.trans hop) (by decide)
    · exact absurd t.target_op.1 (by rw [hop]; decide)
    · exact absurd (t.jump_op.symm.trans hop) (by decide)
  no_end i hi := by
    have hi : i = t.select ∨ i ∈ t.copy? ∨ i = t.compare ∨ i = t.target := by
      rw [instrs_eq_concat, List.dropLast_concat] at hi
      simpa using hi
    rw [← Opcode.endsBlock_iff, Bool.not_eq_true]
    rcases hi with rfl | hi | rfl | rfl
    · rw [t.select_op]
      decide
    · obtain ⟨hlow, hhigh⟩ := t.copy_op i hi
      exact Opcode.endsBlock_eq_false_of_range (UInt8.le_trans (by decide) hlow) hhigh
    · rw [t.compare_op]
      decide
    · exact Opcode.endsBlock_eq_false_of_isPush (Opcode.isPush_iff.2 t.target_op)

/-- A test stands at the end of a block. -/
theorem IsIn.exists_block (ht : t.IsIn code) :
    ∃ b ∈ CodeBlock.ofCode code, t.instrs <:+ b.instrs := by
  obtain ⟨before, after, hread⟩ := ht.consecutive
  have hflatten := (CodeBlock.isSplit_ofCode code).flatten_eq.trans hread.symm
  obtain ⟨b, hb, front, back, hinstrs⟩ := CodeBlock.exists_mem_of_isRun
    (CodeBlock.isChain_split none (Instruction.read code)) t.isRun hflatten
  refine ⟨b, hb, front, ?_⟩
  -- behind the jump there is nothing left of the block
  cases back with
  | nil => rw [hinstrs, List.append_nil]
  | cons i back =>
    have hjump : t.jump ∈ b.instrs.dropLast := by
      rw [hinstrs, List.dropLast_append_of_ne_nil (List.cons_ne_nil _ _)]
      simp [instrs]
    refine absurd ?_ ((CodeBlock.straight_of_mem_ofCode hb).isRun.no_end _ hjump)
    rw [t.jump_op, ← Opcode.endsBlock_iff]
    decide

/-- The block that a test ends jumps where the test leads. -/
theorem IsIn.jumpsTo (ht : t.IsIn code) (hb : t.instrs <:+ b.instrs) :
    b.JumpsTo code t.offset := by
  obtain ⟨front, hinstrs⟩ := hb
  have hlast : t.jump = b.last := by
    have hgetLast := b.last_eq_getLast
    rw [← hinstrs, instrs_eq_concat, ← List.append_assoc, List.getLast?_concat] at hgetLast
    exact Option.some.inj hgetLast
  constructor
  case jump => exact .inr (hlast ▸ t.jump_op)
  case pushed =>
    refine ⟨front ++ t.select :: t.copy?.toList ++ [t.compare], t.target, ?_, t.target_op.1,
      t.target_op.2, rfl⟩
    rw [← hinstrs, ← hlast]
    simp [instrs]
  case destination => exact ht.destination

/-- A test leads to a block that begins with a jump destination. -/
theorem IsIn.exists_entry (ht : t.IsIn code) :
    ∃ b ∈ CodeBlock.ofCode code, b.first.pc = t.offset ∧ b.first.op = Opcode.jumpDest := by
  obtain ⟨d, hd, hop, hpc⟩ := ht.destination
  obtain ⟨b, hb, hfirst⟩ := Machine.IsDestination.exists_block ⟨d, hd, hop, rfl⟩
  have hmem := CodeBlock.mem_read_of_mem_instrs hb List.mem_cons_self
  refine ⟨b, hb, hfirst.trans hpc, ?_⟩
  rw [Instruction.eq_of_pc_eq hmem hd hfirst, hop]

end SelectorTest

/-- Code that is not empty has a program. The entry of a function is where the last test of its
selector leads. Every test is the end of a block, from which there is an edge to the block where the
test leads, and this begins with a jump destination. -/
theorem Program.entries_by_last_test (code : List UInt8) (hcode : code ≠ [])
    (hlength : (code.length : Int) ≤ Int64.maxValue.toInt) :
    ∃ p, Program.decode code = .ok p ∧
      (∀ s e, p.entries.get? s = some e ↔
        ∃ t : SelectorTest, t.IsIn code ∧ t.selector = s ∧ e.toInt = t.offset ∧
          ∀ u : SelectorTest, u.IsIn code → u.selector = s → u.select.pc ≤ t.select.pc) ∧
      ∀ t : SelectorTest, t.IsIn code →
        ∃ test ∈ p.blocks, ∃ entry ∈ p.blocks, t.instrs <:+ test.instrs ∧
          entry.id.toInt = t.offset ∧ entry.first.op = Opcode.jumpDest ∧
          Edge.mk test.id entry.id ∈ p.edges := by
  obtain ⟨p, hdecode, hp⟩ := Program.decode_eq_ok hcode
  refine ⟨p, hdecode, fun s e => hp.get?_entries_iff hlength, fun t ht => ?_⟩
  obtain ⟨test, htest, hsuffix⟩ := ht.exists_block
  obtain ⟨entry, hentry, hpc, hop⟩ := ht.exists_entry
  have hjumps := ht.jumpsTo hsuffix
  rw [← hpc] at hjumps
  rw [← hp.blocks] at htest hentry
  refine ⟨test, htest, entry, hentry, hsuffix, ?_, hop, ?_⟩
  · rw [CodeBlock.toInt_id hlength (hp.blocks ▸ hentry), hpc]
  · exact (hp.edge_iff hlength htest hentry).2 (.inr hjumps)

/-- One selector is tested twice, the first time with a copy. -/
def testedTwice : List UInt8 :=
  [0x63, 0, 0, 0, 1, 0x80, 0x14, 0x60, 0x13, 0x57, 0x63, 0, 0, 0, 1, 0x14, 0x60, 0x14, 0x57, 0x5b,
    0x5b]

/-- The instructions of the code. -/
theorem read_testedTwice :
    Instruction.read testedTwice =
      [⟨0, ⟨0x63⟩, [0, 0, 0, 1]⟩, ⟨5, ⟨0x80⟩, []⟩, ⟨6, ⟨0x14⟩, []⟩, ⟨7, ⟨0x60⟩, [0x13]⟩,
        ⟨9, ⟨0x57⟩, []⟩, ⟨10, ⟨0x63⟩, [0, 0, 0, 1]⟩, ⟨15, ⟨0x14⟩, []⟩, ⟨16, ⟨0x60⟩, [0x14]⟩,
        ⟨18, ⟨0x57⟩, []⟩, ⟨19, ⟨0x5b⟩, []⟩, ⟨20, ⟨0x5b⟩, []⟩] := by
  simp [testedTwice, Instruction.read, Instruction.readFrom, Opcode.immediateSize]

def testedTwice.first : SelectorTest where
  select := ⟨0, ⟨0x63⟩, [0, 0, 0, 1]⟩
  copy? := some ⟨5, ⟨0x80⟩, []⟩
  compare := ⟨6, ⟨0x14⟩, []⟩
  target := ⟨7, ⟨0x60⟩, [0x13]⟩
  jump := ⟨9, ⟨0x57⟩, []⟩
  select_op := rfl
  copy_op := by simp
  compare_op := rfl
  target_op := by decide
  jump_op := rfl

def testedTwice.second : SelectorTest where
  select := ⟨10, ⟨0x63⟩, [0, 0, 0, 1]⟩
  copy? := none
  compare := ⟨15, ⟨0x14⟩, []⟩
  target := ⟨16, ⟨0x60⟩, [0x14]⟩
  jump := ⟨18, ⟨0x57⟩, []⟩
  select_op := rfl
  copy_op := by simp
  compare_op := rfl
  target_op := by decide
  jump_op := rfl

/-- The second test decides, and the jump of the first is an edge as well. -/
theorem Program.entries_by_last_test_testedTwice :
    testedTwice ≠ [] ∧ (testedTwice.length : Int) ≤ Int64.maxValue.toInt ∧
      testedTwice.first.IsIn testedTwice ∧ testedTwice.second.IsIn testedTwice ∧
      ∃ p, Program.decode testedTwice = .ok p ∧ p.entries.get? "0x00000001" = some 20 ∧
        ∃ test ∈ p.blocks, ∃ entry ∈ p.blocks, testedTwice.first.instrs <:+ test.instrs ∧
          entry.id = 19 ∧ Edge.mk test.id entry.id ∈ p.edges := by
  have hne : testedTwice ≠ [] := by decide
  have hlength : (testedTwice.length : Int) ≤ Int64.maxValue.toInt := by decide
  have hfirst : testedTwice.first.IsIn testedTwice := by
    constructor
    case consecutive => rw [read_testedTwice]; decide
    case destination => rw [read_testedTwice]; decide
  have hsecond : testedTwice.second.IsIn testedTwice := by
    constructor
    case consecutive => rw [read_testedTwice]; decide
    case destination => rw [read_testedTwice]; decide
  obtain ⟨p, hdecode, hentries, hedges⟩ := Program.entries_by_last_test testedTwice hne hlength
  refine ⟨hne, hlength, hfirst, hsecond, p, hdecode, ?_, ?_⟩
  · refine (hentries _ _).2 ⟨testedTwice.second, hsecond, by decide, by decide, ?_⟩
    intro u hu _
    -- the constant of a test can only be at the offset of either push of four bytes
    have hmem := hu.consecutive.subset u.select_mem_instrs
    have hpush : ∀ i ∈ Instruction.read testedTwice, i.op = Opcode.push4 → i.pc ≤ 10 := by
      rw [read_testedTwice]
      decide
    exact hpush u.select hmem u.select_op
  · obtain ⟨test, htest, entry, hentry, hsuffix, hid, -, hedge⟩ := hedges testedTwice.first hfirst
    exact ⟨test, htest, entry, hentry, hsuffix, Int64.toInt_inj.1 hid, hedge⟩

end StackFlow
