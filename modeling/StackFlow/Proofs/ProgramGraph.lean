import StackFlow.Proofs.Coherence
import StackFlow.Proofs.ControlFlow

/-!
# The graph of a program

The graph of decoded bytecode has the edges of the program and registers just its blocks
(`IsGraphOf`). It exists because the offsets of blocks ascend, so that no two blocks have the same
number, as long as the code is not longer than there are numbers (`exists_graph`).

The decoder draws edges to the block behind and to jump destinations, and finds the entries of
functions among the jump destinations. Each of these is the first instruction of a block, and so
whatever an entry reaches is registered (`IsDecoded.isBlock_of_reach`).
-/

namespace StackFlow

/-! ## Registering blocks -/

namespace Graph

/-- The graph registers blocks under just these numbers, and none of them is in a function yet. -/
structure Registers (g : Graph) (ids : List BlockId) : Prop where
  /-- A number is registered if it is one of these. -/
  isSome_block?_iff : ∀ n, (g.block? n).isSome = true ↔ n ∈ ids
  /-- No function is noted. -/
  funcs_eq_empty : ∀ n b, g.block? n = some b → b.funcs = .empty

variable {g g' : Graph} {ids : List BlockId}

/-- The empty graph has no blocks. -/
theorem registers_empty : empty.Registers [] :=
  ⟨fun _ => iff_of_false Bool.false_ne_true List.not_mem_nil, fun _ _ h => absurd h (by nofun)⟩

/-- Registering a block without functions adds its number. -/
theorem Registers.addBlock (h : g.Registers ids) {b : Block} (hfuncs : b.funcs = .empty)
    (hb : g.addBlock b = .ok g') : g'.Registers (ids ++ [b.id]) := by
  constructor
  case isSome_block?_iff =>
    intro n
    rw [isSome_block?_addBlock hb, h.isSome_block?_iff, List.mem_append, List.mem_singleton]
  case funcs_eq_empty =>
    intro n c hc
    rcases funcs_of_block?_addBlock hb hc with hc | hc
    · exact h.funcs_eq_empty n c hc
    · exact hc.trans hfuncs

/-- An edge registers nothing. -/
theorem Registers.addEdge (h : g.Registers ids) (s t : BlockId) :
    (g.addEdge s t).Registers ids := by
  constructor
  case isSome_block?_iff =>
    intro n
    rw [block?_addEdge, Option.isSome_map, h.isSome_block?_iff]
  case funcs_eq_empty =>
    intro n b hb
    rw [block?_addEdge] at hb
    obtain ⟨c, hc, rfl⟩ := Option.map_eq_some_iff.1 hb
    exact h.funcs_eq_empty n c hc

/-- Adding edges in turn registers no blocks. -/
theorem Registers.foldl_addEdge (h : g.Registers ids) (es : List Edge) :
    (es.foldl (fun g e => g.addEdge e.source e.target) g).Registers ids := by
  induction es generalizing g with
  | nil => exact h
  | cons e es ih => exact ih (h.addEdge e.source e.target)

/-- What holds before blocks are registered in turn, and is kept by each registration that is not
refused, holds behind them. -/
theorem foldlM_addBlock_induction {motive : List CodeBlock → Graph → Prop} {bs : List CodeBlock}
    (done : List CodeBlock) (hdone : motive done g)
    (hstep : ∀ cs b g₁ g₂, motive cs g₁ → g₁.addBlock b.toBlock = .ok g₂ → motive (cs ++ [b]) g₂)
    (h : bs.foldlM (fun g b => g.addBlock b.toBlock) g = .ok g') : motive (done ++ bs) g' := by
  induction bs generalizing done g with
  | nil =>
    obtain rfl : g = g' := Except.ok.inj h
    rwa [List.append_nil]
  | cons b bs ih =>
    rw [List.foldlM_cons] at h
    cases hb : g.addBlock b.toBlock with
    | error e => rw [hb] at h; exact absurd h (by nofun)
    | ok g₁ =>
      rw [hb] at h
      rw [← List.singleton_append, ← List.append_assoc]
      exact ih (done ++ [b]) (hstep done b g g₁ hdone hb) h

/-- Registering the blocks of code in turn registers just these and adds no edge. -/
theorem foldlM_addBlock_spec {bs : List CodeBlock} (hg : g.Built) (hr : g.Registers ids)
    (h : bs.foldlM (fun g b => g.addBlock b.toBlock) g = .ok g') :
    g'.Built ∧ g'.Registers (ids ++ bs.map CodeBlock.id) ∧ ∀ u v, g'.Adj u v ↔ g.Adj u v := by
  refine foldlM_addBlock_induction (motive := fun cs g' => g'.Built ∧
    g'.Registers (ids ++ cs.map CodeBlock.id) ∧ ∀ u v, g'.Adj u v ↔ g.Adj u v) [] ?_ ?_ h
  · rw [List.map_nil, List.append_nil]
    exact ⟨hg, hr, fun _ _ => Iff.rfl⟩
  · rintro cs b g₁ g₂ ⟨hbuilt, hreg, hadj⟩ hb
    refine ⟨hbuilt.addBlock hb, ?_, fun u v => (adj_addBlock hb).trans (hadj u v)⟩
    rw [List.map_append, ← List.append_assoc]
    exact hreg.addBlock rfl hb

/-- Registering the blocks of code leaves the edges as they are. -/
theorem Coherent.foldlM_addBlock {es : List Edge} {bs : List CodeBlock} (hg : g.Coherent es)
    (h : bs.foldlM (fun g b => g.addBlock b.toBlock) g = .ok g') : g'.Coherent es :=
  foldlM_addBlock_induction (motive := fun _ g => g.Coherent es) [] hg
    (fun _ _ _ _ hg₁ hb => hg₁.addBlock rfl rfl hb) h

/-- Blocks of code with different numbers can all be registered. -/
theorem exists_foldlM_addBlock {bs : List CodeBlock} (hnew : ∀ b ∈ bs, g.block? b.id = none)
    (hids : bs.Pairwise (fun b c => b.id ≠ c.id)) :
    ∃ g', bs.foldlM (fun g b => g.addBlock b.toBlock) g = .ok g' := by
  induction bs generalizing g with
  | nil => exact ⟨g, rfl⟩
  | cons b bs ih =>
    obtain ⟨hb, hbs⟩ := List.pairwise_cons.1 hids
    have hb₁ := addBlock_of_new (b := b.toBlock) (hnew b List.mem_cons_self)
    rw [List.foldlM_cons, hb₁]
    -- the blocks behind are still new, since none has the number just registered
    refine ih (fun c hc => ?_) hbs
    rw [← Option.not_isSome_iff_eq_none, isSome_block?_addBlock hb₁,
      hnew c (List.mem_cons_of_mem _ hc)]
    rintro (h | h)
    · exact absurd h (by decide)
    · exact hb c hc h.symm

end Graph

/-! ## The blocks, edges and entries of a program -/

/-- Offsets that fit a word are different block numbers. -/
theorem BlockId.ofNat_inj {m n : Nat} (hm : m < UInt64.size) (hn : n < UInt64.size)
    (h : (Int64.ofNat m : BlockId) = Int64.ofNat n) : m = n := by
  have hbits : BitVec.ofNat 64 m = BitVec.ofNat 64 n := congrArg Int64.toBitVec h
  have hnat := congrArg BitVec.toNat hbits
  rwa [BitVec.toNat_ofNat, BitVec.toNat_ofNat, Nat.mod_eq_of_lt hm, Nat.mod_eq_of_lt hn] at hnat

namespace Program

/-- A number is that of a block of the program. -/
def IsBlock (p : Program) (n : BlockId) : Prop := n ∈ p.blocks.map CodeBlock.id

/-- A walk along edges of the program leads from `m` to `n`. -/
def Reach (p : Program) (m n : BlockId) : Prop :=
  Relation.ReflTransGen (fun u v => Edge.mk u v ∈ p.edges) m n

variable {code : List UInt8} {p : Program} {ds : List Nat}

/-- The destinations that are listed are those of the machine. -/
theorem mem_destinations {t : Nat} : t ∈ destinations code ↔ Machine.IsDestination code t := by
  unfold destinations Machine.IsDestination
  simp only [List.mem_map, List.mem_filter, beq_iff_eq, and_assoc]

/-- Every jump destination is a block. -/
theorem IsDecoded.isBlock_of_mem_destinations (hp : IsDecoded code p) {t : Nat}
    (ht : t ∈ destinations code) : p.IsBlock (Int64.ofNat t) := by
  obtain ⟨c, hc, rfl⟩ := (mem_destinations.1 ht).exists_block
  rw [IsBlock, hp.blocks]
  exact List.mem_map.2 ⟨c, hc, rfl⟩

/-- Every edge leads to a block. -/
theorem IsDecoded.isBlock_target (hp : IsDecoded code p) {e : Edge} (he : e ∈ p.edges) :
    p.IsBlock e.target := by
  obtain ⟨before, b, after, hblocks, he | ⟨-, c, hc, rfl⟩⟩ := hp.mem_edges_iff.1 he
  · obtain ⟨-, t, ht, -, rfl⟩ := mem_edges_jumpExit.1 he
    exact hp.isBlock_of_mem_destinations ht
  · -- what stands behind a block of the program is a block of the program
    have hmem : c ∈ p.blocks := by
      rw [hblocks]
      exact List.mem_append_right _ (List.mem_cons_of_mem _ (List.mem_of_mem_head? hc))
    exact List.mem_map.2 ⟨c, hmem, rfl⟩

/-- A dispatcher's test leads to a jump destination. -/
theorem mem_of_dispatch? {is : List Instruction} {s : String} {t : Nat}
    (h : dispatch? ds is = some (s, t)) : t ∈ ds := by
  unfold dispatch? at h
  grind

/-- The entry of a function is a destination. -/
theorem mem_of_mem_functions {is : List Instruction} {f : String × Nat}
    (h : f ∈ functions ds is) : f.2 ∈ ds := by
  induction is with
  | nil => exact absurd h List.not_mem_nil
  | cons i is ih =>
    rcases List.mem_append.1 h with h | h
    · exact mem_of_dispatch? (Option.mem_toList.1 h)
    · exact ih h

/-- After entries are set in turn, a selector has that of the last function in the list with its
name, or else the one that it had. -/
theorem get?_foldl_insert (fs : List (String × Nat)) (m : SortedMap String BlockId) (s : String) :
    (fs.foldl (fun m f => m.insert f.1 (Int64.ofNat f.2)) m).get? s =
      ((fs.reverse.find? (fun f => f.1 = s)).map (fun f => Int64.ofNat f.2)).or (m.get? s) := by
  induction fs generalizing m with
  | nil => rfl
  | cons f fs ih =>
    rw [List.foldl_cons, ih, List.reverse_cons, List.find?_append, SortedMap.get?_insert]
    cases fs.reverse.find? (fun f => f.1 = s) with
    | some f' => simp
    | none =>
      by_cases hs : f.1 = s
      · simp [hs]
      · simp [hs, Ne.symm hs]

/-- The entry of every function is a block. -/
theorem IsDecoded.isBlock_entry (hp : IsDecoded code p) {s : String} {e : BlockId}
    (he : p.entries.get? s = some e) : p.IsBlock e := by
  rw [hp.entries, get?_foldl_insert, SortedMap.get?_empty, Option.or_none] at he
  obtain ⟨f, hf, rfl⟩ := Option.map_eq_some_iff.1 he
  have hmem := List.mem_reverse.1 (List.mem_of_find?_eq_some hf)
  exact hp.isBlock_of_mem_destinations (mem_of_mem_functions hmem)

/-- What a block reaches is a block. -/
theorem IsDecoded.isBlock_of_reach (hp : IsDecoded code p) {m n : BlockId} (hm : p.IsBlock m)
    (h : p.Reach m n) : p.IsBlock n := by
  cases h with
  | refl => exact hm
  | tail _ he => exact hp.isBlock_target he

/-! ## The graph -/

/-- The graph has the edges of the program and registers just its blocks. -/
structure IsGraphOf (p : Program) (g : Graph) : Prop where
  /-- The graph is built by its operations. -/
  built : g.Built
  /-- The edges are those of the program. -/
  adj_iff : ∀ u v, g.Adj u v ↔ Edge.mk u v ∈ p.edges
  /-- The blocks are those of the program. -/
  registers : g.Registers (p.blocks.map CodeBlock.id)

/-- The blocks of a program are registered before its edges are added. -/
theorem exists_foldlM_of_graph {g : Graph} (h : p.graph = .ok g) :
    ∃ g₁, p.blocks.foldlM (fun g b => g.addBlock b.toBlock) Graph.empty = .ok g₁ ∧
      g = p.edges.foldl (fun g e => g.addEdge e.source e.target) g₁ := by
  unfold graph at h
  cases hblocks : p.blocks.foldlM (fun g b => g.addBlock b.toBlock) Graph.empty with
  | error e => rw [hblocks] at h; exact absurd h (by nofun)
  | ok g₁ =>
    rw [hblocks] at h
    exact ⟨g₁, rfl, (Except.ok.inj h).symm⟩

/-- The graph of a program has its blocks and edges. -/
theorem isGraphOf_of_graph {g : Graph} (h : p.graph = .ok g) : p.IsGraphOf g := by
  obtain ⟨g₁, hblocks, rfl⟩ := exists_foldlM_of_graph h
  obtain ⟨hbuilt, hreg, hadj⟩ :=
    Graph.foldlM_addBlock_spec .empty Graph.registers_empty hblocks
  -- there are no edges before those of the program are added, which register nothing
  refine ⟨hbuilt.foldl_addEdge _, fun u v => ?_, hreg.foldl_addEdge _⟩
  rw [Graph.adj_foldl_addEdge, hadj]
  exact or_iff_right List.not_mem_nil

/-- The graph of a program keeps the edges of the program in order. -/
theorem coherent_graph {g : Graph} (h : p.graph = .ok g) : g.Coherent p.edges := by
  obtain ⟨g₁, hblocks, rfl⟩ := exists_foldlM_of_graph h
  exact (Graph.coherent_empty.foldlM_addBlock hblocks).foldl_addEdge p.edges

/-- Along the graph a block reaches what it reaches in the program. -/
theorem IsGraphOf.reach_iff {g : Graph} (hg : p.IsGraphOf g) {m n : BlockId} :
    g.Reach m n ↔ p.Reach m n := by
  have hadj : g.Adj = fun u v => Edge.mk u v ∈ p.edges :=
    funext₂ (fun u v => propext (hg.adj_iff u v))
  unfold Graph.Reach Reach
  rw [hadj]

/-- Code that is not longer than there are block numbers has a graph. -/
theorem IsDecoded.exists_graph (hp : IsDecoded code p) (hlength : code.length ≤ UInt64.size) :
    ∃ g, p.graph = .ok g := by
  have hlt : ∀ b ∈ CodeBlock.ofCode code, b.first.pc < UInt64.size := by
    intro b hb
    have hpc := Instruction.pc_lt_of_mem_readFrom
      (CodeBlock.mem_read_of_mem_instrs hb List.mem_cons_self)
    omega
  have hids : p.blocks.Pairwise (fun b c => b.id ≠ c.id) := by
    -- offsets ascend, and each of them fits a word
    rw [hp.blocks]
    refine (CodeBlock.pairwise_pc_ofCode code).imp_of_mem (fun {b c} hb hc hpc hid => ?_)
    have heq := BlockId.ofNat_inj (hlt b hb) (hlt c hc) hid
    omega
  obtain ⟨g, hg⟩ := Graph.exists_foldlM_addBlock (g := Graph.empty) (fun _ _ => rfl) hids
  unfold graph
  rw [hg]
  exact ⟨_, rfl⟩

end Program

end StackFlow
