import Mathlib.Data.List.Sort
import StackFlow.Proofs.BlockSplit
import StackFlow.Proofs.DocumentGraphs
import StackFlow.Proofs.ProgramGraph

/-!
# The edges of a program

Control leaves a block in two ways. It falls through to the block behind, unless the last
instruction halts (`Opcode.FallsThrough`), or it jumps to the constant that is pushed right before
the last instruction, if there is a jump destination at that offset (`CodeBlock.JumpsTo`). The edges
of a program are all of these and no others (`IsDecoded.edge_iff`), and the unresolved blocks are
those with a jump that leads nowhere (`IsDecoded.unresolved_iff`).

A byte in an immediate is not an instruction and so never a destination. A constant that does not
fit a word is no offset of the code, which is why the decoder may pass it over (`jumpsTo_iff`).
-/

namespace StackFlow

/-! ## Ways out of a block -/

namespace Opcode

/-- Execution may go on behind a conditional jump and behind what does not end a block. -/
def FallsThrough (op : Opcode) : Prop := op = jumpIf ∨ ¬ op.Ends

/-- The test for instructions that fall through says what it should. -/
theorem halts_eq_false_iff {op : Opcode} : op.halts = false ↔ op.FallsThrough := by
  rw [halts, FallsThrough, ← endsBlock_iff, Bool.and_eq_false_iff, bne_eq_false_iff_eq, or_comm,
    Bool.not_eq_true]

end Opcode

/-- The value of an instruction is what a push takes from its argument. -/
theorem Instruction.value?_eq_some_iff {i : Instruction} {t : Nat} :
    i.value? = some t ↔ 0x5f ≤ i.op.byte ∧ i.op.byte ≤ 0x7f ∧ bigEndian i.arg = t := by
  unfold value?
  rw [← and_assoc, ← Opcode.isPush_iff]
  by_cases h : i.op.isPush = true <;> simp [h]

namespace CodeBlock

/-- A block jumps to an offset: its last instruction is a jump, right before it the offset is
pushed, and there is a jump destination. -/
structure JumpsTo (code : List UInt8) (b : CodeBlock) (t : Nat) : Prop where
  /-- The last instruction is a jump. -/
  jump : b.last.op = Opcode.jump ∨ b.last.op = Opcode.jumpIf
  /-- The instruction before it pushes the offset. -/
  pushed : ∃ before push, b.instrs = before ++ [push, b.last] ∧
    0x5f ≤ push.op.byte ∧ push.op.byte ≤ 0x7f ∧ Instruction.bigEndian push.arg = t
  /-- An instruction at the offset is a jump destination. -/
  destination : ∃ d ∈ Instruction.read code, d.op = Opcode.jumpDest ∧ d.pc = t

variable {code : List UInt8} {a b : CodeBlock} {t : Nat}

/-- What stands right before the last instruction. -/
theorem getLast?_dropLast_iff {i : Instruction} :
    b.instrs.dropLast.getLast? = some i ↔ ∃ before, b.instrs = before ++ [i, b.last] := by
  constructor
  · intro h
    refine ⟨b.instrs.dropLast.dropLast, ?_⟩
    calc
      b.instrs = b.instrs.dropLast ++ [b.last] := b.instrs_eq_concat
      _ = b.instrs.dropLast.dropLast ++ [i] ++ [b.last] := by
        rw [List.dropLast_append_getLast? i h]
      _ = b.instrs.dropLast.dropLast ++ [i, b.last] := List.append_assoc ..
  · rintro ⟨before, h⟩
    rw [h, List.append_cons, List.dropLast_concat, List.getLast?_concat]

/-- Code whose length is a block number has fewer bytes than there are words. -/
theorem length_lt_size (hlength : (code.length : Int) ≤ Int64.maxValue.toInt) :
    code.length < UInt64.size := by
  have hmax := Int64.toInt_maxValue
  have hsize : UInt64.size = 18446744073709551616 := rfl
  omega

/-- The decoder finds the offset that a block jumps to. An offset of the code fits a word. -/
theorem jumpsTo_iff (hlength : (code.length : Int) ≤ Int64.maxValue.toInt) :
    b.JumpsTo code t ↔
      (b.last.op = Opcode.jump ∨ b.last.op = Opcode.jumpIf) ∧
        t ∈ Program.destinations code ∧ b.pushedTarget? = some t := by
  constructor
  · rintro ⟨hjump, ⟨before, push, hinstrs, hpush⟩, hdest⟩
    refine ⟨hjump, Program.mem_destinations.2 hdest, pushedTarget?_eq_some_iff.2 ?_⟩
    refine ⟨push, getLast?_dropLast_iff.2 ⟨before, hinstrs⟩,
      Instruction.value?_eq_some_iff.2 hpush, ?_⟩
    -- the destination is an offset of the code, so that the bound on words loses nothing
    exact (Machine.IsDestination.lt_length hdest).trans (length_lt_size hlength)
  · rintro ⟨hjump, hdest, htarget⟩
    obtain ⟨push, hbefore, hvalue, -⟩ := pushedTarget?_eq_some_iff.1 htarget
    obtain ⟨before, hinstrs⟩ := getLast?_dropLast_iff.1 hbefore
    exact ⟨hjump, ⟨before, push, hinstrs, Instruction.value?_eq_some_iff.1 hvalue⟩,
      Program.mem_destinations.1 hdest⟩

/-- Blocks of one code with the same number are the same. -/
theorem eq_of_id_eq (hlength : (code.length : Int) ≤ Int64.maxValue.toInt) (ha : a ∈ ofCode code)
    (hb : b ∈ ofCode code) (h : a.id = b.id) : a = b := by
  have hnodup : ((ofCode code).map id).Nodup :=
    (pairwise_id_ofCode hlength).imp (fun hlt => Int64.ne_of_lt hlt)
  exact List.inj_on_of_nodup_map hnodup ha hb h

end CodeBlock

/-! ## The edges and the unresolved blocks -/

namespace Program

variable {code : List UInt8} {p : Program} {a b : CodeBlock}

/-- The edges are the ways out of the blocks. -/
theorem IsDecoded.edge_iff (hp : IsDecoded code p)
    (hlength : (code.length : Int) ≤ Int64.maxValue.toInt) (ha : a ∈ p.blocks) (hb : b ∈ p.blocks) :
    Edge.mk a.id b.id ∈ p.edges ↔
      (a.last.op.FallsThrough ∧ ∃ before after, p.blocks = before ++ a :: b :: after) ∨
        a.JumpsTo code b.first.pc := by
  have hinj : ∀ c ∈ p.blocks, ∀ d ∈ p.blocks, c.id = d.id → c = d := by
    rw [hp.blocks]
    exact fun c hc d hd => CodeBlock.eq_of_id_eq hlength hc hd
  rw [hp.mem_edges_iff]
  constructor
  · -- the ends of the edge are numbers only, and each belongs to one block
    rintro ⟨before, a', after, hblocks, hexit⟩
    have ha' : a' ∈ p.blocks := by rw [hblocks]; exact List.mem_append_right _ List.mem_cons_self
    rcases hexit with he | ⟨hhalts, c, hc, he⟩
    · obtain ⟨hjump, t, ht, htarget, he⟩ := mem_edges_jumpExit.1 he
      obtain ⟨hsource, hid⟩ := Edge.mk.inj he
      obtain rfl : a = a' := hinj a ha a' ha' hsource
      -- a destination is the first instruction of a block, which is `b`
      obtain ⟨c, hc, rfl⟩ := (mem_destinations.1 ht).exists_block
      obtain rfl : b = c := hinj b hb c (hp.blocks ▸ hc) hid
      exact .inr ((CodeBlock.jumpsTo_iff hlength).2 ⟨hjump, ht, htarget⟩)
    · obtain ⟨hsource, hid⟩ := Edge.mk.inj he
      obtain rfl : a = a' := hinj a ha a' ha' hsource
      obtain ⟨cs, rfl⟩ := List.head?_eq_some_iff.1 hc
      have hc : c ∈ p.blocks := by rw [hblocks]; simp
      obtain rfl : b = c := hinj b hb c hc hid
      exact .inl ⟨Opcode.halts_eq_false_iff.1 hhalts, before, cs, hblocks⟩
  · rintro (⟨hfalls, before, after, hblocks⟩ | hjumps)
    · exact ⟨before, a, b :: after, hblocks, .inr ⟨Opcode.halts_eq_false_iff.2 hfalls, b, rfl, rfl⟩⟩
    · obtain ⟨before, after, hblocks⟩ := List.append_of_mem ha
      obtain ⟨hjump, ht, htarget⟩ := (CodeBlock.jumpsTo_iff hlength).1 hjumps
      exact ⟨before, a, after, hblocks, .inl (mem_edges_jumpExit.2 ⟨hjump, _, ht, htarget, rfl⟩)⟩

/-- The unresolved blocks are those whose jump leads nowhere. -/
theorem IsDecoded.unresolved_iff (hp : IsDecoded code p)
    (hlength : (code.length : Int) ≤ Int64.maxValue.toInt) (ha : a ∈ p.blocks) :
    a.id ∈ p.unresolved ↔
      (a.last.op = Opcode.jump ∨ a.last.op = Opcode.jumpIf) ∧ ∀ t, ¬ a.JumpsTo code t := by
  have hresolved : (jumpExit (destinations code) a).unresolved = true ↔
      (a.last.op = Opcode.jump ∨ a.last.op = Opcode.jumpIf) ∧ ∀ t, ¬ a.JumpsTo code t := by
    rw [unresolved_jumpExit]
    refine and_congr_right (fun hjump => forall_congr' (fun t => ?_))
    rw [CodeBlock.jumpsTo_iff hlength, not_and, not_and]
    exact (imp_iff_right hjump).symm
  rw [hp.mem_unresolved_iff, ← hresolved]
  constructor
  · rintro ⟨b, hb, hid, h⟩
    rw [hp.blocks] at ha hb
    rwa [CodeBlock.eq_of_id_eq hlength hb ha hid] at h
  · exact fun h => ⟨a, ha, rfl, h⟩

/-- Every edge leaves a block. -/
theorem IsDecoded.isBlock_source (hp : IsDecoded code p) {e : Edge} (he : e ∈ p.edges) :
    p.IsBlock e.source := by
  obtain ⟨before, b, after, hblocks, hexit⟩ := hp.mem_edges_iff.1 he
  have hsource : e.source = b.id := by
    rcases hexit with he | ⟨-, c, -, rfl⟩
    · obtain ⟨-, t, -, -, rfl⟩ := mem_edges_jumpExit.1 he
      rfl
    · rfl
  rw [hsource, IsBlock, hblocks]
  exact List.mem_map_of_mem (List.mem_append_right _ List.mem_cons_self)

end Program

/-! ## The nodes of the graph -/

/-- Blocks of code that are registered in turn have their own contents. -/
theorem Graph.contents?_foldlM_addBlock {bs : List CodeBlock} {g g' : Graph}
    (h : bs.foldlM (fun g b => g.addBlock b.toBlock) g = .ok g') :
    ∀ b ∈ bs, g'.contents? b.id = some (b.effect, b.instrs.map Instruction.text) := by
  refine foldlM_addBlock_induction (motive := fun cs g' => ∀ b ∈ cs,
    g'.contents? b.id = some (b.effect, b.instrs.map Instruction.text)) [] (by nofun) ?_ h
  intro cs c g₁ g₂ hcs hadded b hb
  rw [contents?_addBlock hadded]
  rcases List.mem_append.1 hb with hb | hb
  · exact .inl (hcs b hb)
  · obtain rfl := List.mem_singleton.1 hb
    exact .inr ⟨rfl, rfl⟩

namespace Program

variable {code : List UInt8} {p : Program} {g : Graph}

/-- Each block is registered with its effect and its instructions. -/
theorem contents?_graph (h : p.graph = .ok g) :
    ∀ b ∈ p.blocks, g.contents? b.id = some (b.effect, b.instrs.map Instruction.text) := by
  obtain ⟨g₁, hblocks, rfl⟩ := exists_foldlM_of_graph h
  intro b hb
  rw [Graph.contents?_foldl_addEdge]
  exact Graph.contents?_foldlM_addBlock hblocks b hb

/-- The edges add no node, since they lead from blocks to blocks. -/
theorem IsDecoded.mem_nodes_iff (hp : IsDecoded code p) (h : p.graph = .ok g) {n : BlockId} :
    n ∈ g.nodes ↔ p.IsBlock n := by
  rw [Graph.mem_nodes_iff, (coherent_graph h).hasNode_iff,
    (isGraphOf_of_graph h).registers.isSome_block?_iff]
  refine or_iff_right_of_imp ?_
  rintro ⟨e, he, rfl | rfl⟩
  · exact hp.isBlock_source he
  · exact hp.isBlock_target he

/-- The nodes of a program's graph are its blocks. -/
theorem IsDecoded.nodes_eq (hp : IsDecoded code p)
    (hlength : (code.length : Int) ≤ Int64.maxValue.toInt) (h : p.graph = .ok g) :
    g.nodes = p.blocks.map CodeBlock.id := by
  have hascend : (p.blocks.map CodeBlock.id).Pairwise (· < ·) := by
    rw [hp.blocks]
    exact CodeBlock.pairwise_id_ofCode hlength
  -- both lists ascend, and so the same numbers stand in the same places
  exact (SortedMap.pairwise_lt_keys g.succs).eq_of_mem_iff hascend (fun n => hp.mem_nodes_iff h)

/-- Code that is not empty has a program with exact edges: a pair of blocks is one if the first
falls through to the second, which stands right behind it, or jumps to it. A block is unresolved if
it ends with a jump that leads nowhere. Edges and unresolved blocks have numbers of blocks only, and
the graph has just these as its nodes, with the contents of each block registered. -/
theorem decode_edges_exact (code : List UInt8) (hcode : code ≠ [])
    (hlength : (code.length : Int) ≤ Int64.maxValue.toInt) :
    ∃ p, decode code = .ok p ∧
      (∀ b ∈ p.blocks, b.id.toInt = b.first.pc) ∧
      (∀ a ∈ p.blocks, ∀ b ∈ p.blocks,
        (Edge.mk a.id b.id ∈ p.edges ↔
          (a.last.op.FallsThrough ∧ ∃ before after, p.blocks = before ++ a :: b :: after) ∨
            a.JumpsTo code b.first.pc)) ∧
      (∀ a ∈ p.blocks,
        (a.id ∈ p.unresolved ↔
          (a.last.op = Opcode.jump ∨ a.last.op = Opcode.jumpIf) ∧ ∀ t, ¬ a.JumpsTo code t)) ∧
      (∀ e ∈ p.edges, p.IsBlock e.source ∧ p.IsBlock e.target) ∧
      (∀ n ∈ p.unresolved, p.IsBlock n) ∧
      ∃ g, p.graph = .ok g ∧ g.nodes = p.blocks.map CodeBlock.id ∧
        ∀ b ∈ p.blocks, g.contents? b.id = some (b.effect, b.instrs.map Instruction.text) := by
  obtain ⟨p, hdecode, hp⟩ := decode_eq_ok hcode
  obtain ⟨g, hg⟩ := hp.exists_graph (CodeBlock.length_lt_size hlength).le
  refine ⟨p, hdecode, fun b hb => ?_, fun a ha b hb => hp.edge_iff hlength ha hb,
    fun a ha => hp.unresolved_iff hlength ha,
    fun e he => ⟨hp.isBlock_source he, hp.isBlock_target he⟩, fun n hn => ?_,
    g, hg, hp.nodes_eq hlength hg, contents?_graph hg⟩
  · rw [hp.blocks] at hb
    exact CodeBlock.toInt_id hlength hb
  · obtain ⟨b, hb, rfl, -⟩ := hp.mem_unresolved_iff.1 hn
    exact List.mem_map_of_mem hb

end Program

/-- A jump over a jump that leads into an immediate, to a jump right behind its destination. -/
def strayJumps : List UInt8 :=
  [0x61, 0x00, 0x09, 0x57, 0x60, 0x5b, 0x60, 0x05, 0x56, 0x5b, 0x56]

/-- The instructions of the code. -/
theorem read_strayJumps :
    Instruction.read strayJumps =
      [⟨0, ⟨0x61⟩, [0x00, 0x09]⟩, ⟨3, ⟨0x57⟩, []⟩, ⟨4, ⟨0x60⟩, [0x5b]⟩, ⟨6, ⟨0x60⟩, [0x05]⟩,
        ⟨8, ⟨0x56⟩, []⟩, ⟨9, ⟨0x5b⟩, []⟩, ⟨10, ⟨0x56⟩, []⟩] := by
  simp [strayJumps, Instruction.read, Instruction.readFrom, Opcode.immediateSize]

/-- The first block jumps to the last. The second pushes the offset of a byte that looks like a jump
destination, and the last pushes nothing. -/
theorem Program.decode_edges_exact_strayJumps :
    strayJumps ≠ [] ∧ (strayJumps.length : Int) ≤ Int64.maxValue.toInt ∧
      ∃ p, Program.decode strayJumps = .ok p ∧ p.blocks.map CodeBlock.id = [0, 4, 9] ∧
        p.edges = [⟨0, 9⟩, ⟨0, 4⟩] ∧ p.unresolved = [4, 9] ∧
        (∀ a ∈ p.blocks, ∀ b ∈ p.blocks, a.id = 0 → b.id = 9 →
          (a.last.op.FallsThrough ∧ ∃ before after, p.blocks = before ++ a :: b :: after) ∨
            a.JumpsTo strayJumps b.first.pc) ∧
        (∀ a ∈ p.blocks, a.id = 4 → ∀ t, ¬ a.JumpsTo strayJumps t) ∧
        ∃ g, p.graph = .ok g ∧ g.nodes = [0, 4, 9] := by
  have hne : strayJumps ≠ [] := by decide
  have hlength : (strayJumps.length : Int) ≤ Int64.maxValue.toInt := by decide
  obtain ⟨p, hdecode, -, hedge, hunresolved, -, -, g, hg, hnodes, -⟩ :=
    Program.decode_edges_exact strayJumps hne hlength
  have hp := Program.isDecoded_of_decode hdecode
  have hblocks : p.blocks.map CodeBlock.id = [0, 4, 9] := by
    rw [hp.blocks, CodeBlock.ofCode, read_strayJumps]
    decide
  have hedges : p.edges = [⟨0, 9⟩, ⟨0, 4⟩] := by
    rw [hp.edges, hp.blocks, Program.destinations, CodeBlock.ofCode, read_strayJumps]
    decide
  have hjumps : p.unresolved = [4, 9] := by
    rw [hp.unresolved, hp.blocks, Program.destinations, CodeBlock.ofCode, read_strayJumps]
    decide
  refine ⟨hne, hlength, p, hdecode, hblocks, hedges, hjumps, fun a ha b hb hzero hnine => ?_,
    fun a ha hfour => ?_, g, hg, hnodes.trans hblocks⟩
  · refine (hedge a ha b hb).1 ?_
    rw [hzero, hnine, hedges]
    exact List.mem_cons_self
  · refine ((hunresolved a ha).1 ?_).2
    rw [hfour, hjumps]
    exact List.mem_cons_self

end StackFlow
