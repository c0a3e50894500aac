import StackFlow.GraphDocument
import StackFlow.Proofs.Coherence
import StackFlow.Proofs.FunctionMembership

/-!
# The graph of a document

`Describes bs es g m` says that a graph has the edges `es` and registers just the blocks of the
entries `bs`, and that a membership has the names given in these entries. Registering the block of
an entry adds the entry, and adding an edge adds the edge, so that a document describes the graph
that it builds (`exists_yields_of_build`). A document can be built if entries of one number have the
same contents and every edge is a pair (`exists_build`).
-/

namespace StackFlow

/-! ## Contents of blocks -/

/-- Blocks have the same contents if their effects and instructions are equal. -/
theorem Block.sameContents_iff {b c : Block} :
    b.sameContents c = true ↔ (b.effect, b.instrs) = (c.effect, c.instrs) := by
  rw [sameContents, Bool.and_eq_true, beq_iff_eq, beq_iff_eq, Prod.mk.injEq]

namespace Graph

/-- What the block registered under a number does to the stack, and its instructions. -/
def contents? (g : Graph) (n : BlockId) : Option (StackEffect × List String) :=
  (g.block? n).map (fun b => (b.effect, b.instrs))

variable {g g' : Graph} {es : List Edge} {n : BlockId} {x : StackEffect × List String}

/-- An edge does not change the contents of a block. -/
theorem contents?_addEdge (g : Graph) (s t n : BlockId) :
    (g.addEdge s t).contents? n = g.contents? n := by
  unfold contents?
  rw [block?_addEdge, Option.map_map]
  rfl

/-- Adding edges changes no contents. -/
theorem contents?_foldl_addEdge (g : Graph) (es : List Edge) (n : BlockId) :
    (es.foldl (fun g e => g.addEdge e.source e.target) g).contents? n = g.contents? n := by
  induction es generalizing g with
  | nil => rfl
  | cons e es ih => rw [List.foldl_cons, ih, contents?_addEdge]

/-- A block that is stored has its own contents, and the others keep theirs. -/
theorem contents?_store (g : Graph) (b : Block) (n : BlockId) :
    (g.store b).contents? n = if n = b.id then some (b.effect, b.instrs) else g.contents? n := by
  unfold contents?
  rw [block?_store]
  split <;> rfl

/-- A block is not refused exactly if its number is new or has the same contents. -/
theorem exists_addBlock_iff {b : Block} :
    (∃ g', g.addBlock b = .ok g') ↔ ∀ x, g.contents? b.id = some x → x = (b.effect, b.instrs) := by
  unfold contents?
  cases hb : g.block? b.id with
  | none =>
    rw [addBlock_of_new hb]
    exact iff_of_true ⟨_, rfl⟩ (by nofun)
  | some known =>
    have hcontents : (∀ x, some (known.effect, known.instrs) = some x → x = (b.effect, b.instrs)) ↔
        known.sameContents b = true := by
      rw [Block.sameContents_iff]
      exact ⟨fun h => h _ rfl, fun h x hx => (Option.some.inj hx).symm.trans h⟩
    rw [addBlock_of_known hb, Option.map_some, hcontents]
    by_cases hsame : known.sameContents b = true
    · rw [if_pos hsame]
      exact iff_of_true ⟨g, rfl⟩ hsame
    · rw [if_neg hsame]
      exact iff_of_false (by nofun) hsame

/-- A block that is not refused adds its contents. -/
theorem contents?_addBlock {b : Block} (h : g.addBlock b = .ok g') :
    g'.contents? n = some x ↔ g.contents? n = some x ∨ n = b.id ∧ (b.effect, b.instrs) = x := by
  have hagrees := exists_addBlock_iff.1 ⟨g', h⟩
  rcases addBlock_cases h with ⟨hknown, rfl⟩ | ⟨hnew, rfl⟩
  · -- the number has these contents already
    refine (or_iff_left_of_imp ?_).symm
    rintro ⟨rfl, rfl⟩
    obtain ⟨known, hb⟩ := Option.ne_none_iff_exists'.1 hknown
    have hsome : g'.contents? b.id = some (known.effect, known.instrs) := by
      rw [contents?, hb, Option.map_some]
    rw [hsome, hagrees _ hsome]
  · have hnone : g.contents? b.id = none := by
      rw [contents?, hnew, Option.map_none]
    change (g.store b).contents? n = some x ↔ _
    rw [contents?_store]
    by_cases hn : n = b.id
    · rw [if_pos hn, hn, hnone]
      simp
    · rw [if_neg hn]
      simp [hn]

end Graph

/-! ## Names of functions -/

namespace Membership

variable {m : Membership} {r : BlockId → String → Prop}

/-- Names that are added in turn are on record. -/
theorem Records.foldl_add (h : m.Records r) (n : BlockId) (names : List String) :
    (names.foldl (fun m f => m.add n f) m).Records (fun k t => r k t ∨ k = n ∧ t ∈ names) := by
  induction names generalizing m r with
  | nil => exact h.congr (by simp)
  | cons s names ih =>
    refine (ih (h.add n s)).congr (fun k t => ?_)
    rw [or_assoc, ← and_or_left, List.mem_cons]

variable {g : Graph} {es : List Edge}

/-- Noting functions in the blocks of a graph changes no contents. -/
theorem contents?_apply (m : Membership) (g : Graph) (n : BlockId) :
    (m.apply g).contents? n = g.contents? n := by
  unfold Graph.contents?
  rw [block?_apply, Option.map_map]
  rfl

/-- Names of functions do not touch what a graph keeps of its edges. -/
theorem coherent_apply (m : Membership) (h : g.Coherent es) : (m.apply g).Coherent es := by
  -- blocks change in their functions only
  have hfound : ∀ n b, (m.apply g).block? n = some b →
      ∃ c, g.block? n = some c ∧ b.id = c.id ∧ b.succs = c.succs ∧ b.preds = c.preds := by
    intro n b hb
    rw [block?_apply] at hb
    obtain ⟨c, hc, rfl⟩ := Option.map_eq_some_iff.1 hb
    exact ⟨c, hc, rfl, rfl, rfl⟩
  constructor
  case successors_eq => exact h.successors_eq
  case mem_predecessors_iff => exact h.mem_predecessors_iff
  case pairwise_predecessors => exact h.pairwise_predecessors
  case hasNode_iff =>
    intro n
    rw [block?_apply, Option.isSome_map]
    exact h.hasNode_iff n
  case id_eq =>
    intro n b hb
    obtain ⟨c, hc, hid, -, -⟩ := hfound n b hb
    rw [hid]
    exact h.id_eq n c hc
  case mem_succs_iff =>
    intro n b hb
    obtain ⟨c, hc, -, hsuccs, -⟩ := hfound n b hb
    rw [hsuccs]
    exact h.mem_succs_iff n c hc
  case mem_preds_iff =>
    intro n b hb
    obtain ⟨c, hc, -, -, hpreds⟩ := hfound n b hb
    rw [hpreds]
    exact h.mem_preds_iff n c hc

end Membership

/-! ## Building a document -/

/-- What an entry says of the contents of its block. -/
def BlockEntry.contents (b : BlockEntry) : StackEffect × List String :=
  (⟨b.need, b.stack⟩, b.instrs)

namespace GraphDocument

/-- The graph has these edges and registers the blocks of these entries, and the membership has the
names given in them. -/
structure Describes (bs : List BlockEntry) (es : List Edge) (g : Graph) (m : Membership) :
    Prop where
  /-- The graph has the edges. -/
  coherent : g.Coherent es
  /-- A registered block has the contents given in an entry. -/
  contents_iff : ∀ n x, g.contents? n = some x ↔ ∃ b ∈ bs, b.id = n ∧ b.contents = x
  /-- A block has the names given in all entries of its number. -/
  records : m.Records (fun n s => ∃ b ∈ bs, b.id = n ∧ s ∈ b.funcs)

variable {bs cs : List BlockEntry} {es : List Edge} {g g' : Graph} {m m' : Membership}

/-- No entries describe the empty graph. -/
theorem describes_empty : Describes [] [] .empty .empty where
  coherent := Graph.coherent_empty
  contents_iff _ _ := by simp [Graph.contents?, Graph.block?, Graph.empty, SortedMap.get?_empty]
  records := Membership.records_empty.congr (by simp)

/-- Registering the block of an entry and recording its names adds the entry. -/
theorem Describes.addEntry (h : Describes bs es g m) {b : BlockEntry}
    (hb : g.addBlock b.block = .ok g') :
    Describes (bs ++ [b]) es g' (b.funcs.foldl (fun m f => m.add b.id f) m) := by
  constructor
  case coherent => exact h.coherent.addBlock rfl rfl hb
  case contents_iff =>
    intro n x
    rw [Graph.contents?_addBlock hb, h.contents_iff]
    simp only [List.mem_append, List.mem_singleton, or_and_right, exists_or, exists_eq_left]
    exact or_congr_right (and_congr_left (fun _ => eq_comm))
  case records =>
    refine (h.records.foldl_add b.id b.funcs).congr (fun n s => ?_)
    simp only [List.mem_append, List.mem_singleton, or_and_right, exists_or, exists_eq_left]
    exact or_congr_right (and_congr_left (fun _ => eq_comm))

/-- What holds of the entries so far and is kept by each further one holds of all entries. -/
theorem addBlocks_induction (r : List BlockEntry → Graph → Membership → Prop)
    (hstep : ∀ bs g m b g', r bs g m → g.addBlock b.block = .ok g' →
      r (bs ++ [b]) g' (b.funcs.foldl (fun m f => m.add b.id f) m))
    (h : r bs g m) (hcs : addBlocks g m cs = .ok (g', m')) : r (bs ++ cs) g' m' := by
  induction cs generalizing g m bs with
  | nil =>
    obtain ⟨rfl, rfl⟩ := Prod.mk.inj (Except.ok.inj hcs)
    rwa [List.append_nil]
  | cons c cs ih =>
    rw [addBlocks] at hcs
    cases hc : g.addBlock c.block with
    | error e => rw [hc] at hcs; exact absurd hcs (by nofun)
    | ok g₁ =>
      rw [hc] at hcs
      have hrest := ih (hstep bs g m c g₁ h hc) hcs
      rwa [List.append_assoc] at hrest

/-- Entries can be added if those of one number have the same contents. -/
theorem Describes.exists_addBlocks (h : Describes bs es g m)
    (hagree : (bs ++ cs).Pairwise (fun b c => b.id = c.id → b.contents = c.contents)) :
    ∃ g' m', addBlocks g m cs = .ok (g', m') := by
  induction cs generalizing g m bs with
  | nil => exact ⟨g, m, rfl⟩
  | cons c cs ih =>
    have hc : ∃ g', g.addBlock c.block = .ok g' := by
      refine Graph.exists_addBlock_iff.2 (fun x hx => ?_)
      obtain ⟨b, hb, hid, rfl⟩ := (h.contents_iff c.id x).1 hx
      exact (List.pairwise_append.1 hagree).2.2 b hb c List.mem_cons_self hid
    obtain ⟨g₁, hg₁⟩ := hc
    rw [List.append_cons] at hagree
    rw [addBlocks, hg₁]
    exact ih (h.addEntry hg₁) hagree

/-- Edges that are added in turn are described by their entries. -/
theorem Describes.foldl_addEdge (h : Describes bs es g m) (more : List Edge) :
    Describes bs (es ++ more) (more.foldl (fun g e => g.addEdge e.source e.target) g) m where
  coherent := h.coherent.foldl_addEdge more
  contents_iff n x := by rw [Graph.contents?_foldl_addEdge, h.contents_iff]
  records := h.records

/-- A graph stays described when functions are noted in its blocks. -/
theorem Describes.apply (h : Describes bs es g m) : Describes bs es (m.apply g) m where
  coherent := Membership.coherent_apply m h.coherent
  contents_iff n x := by rw [Membership.contents?_apply, h.contents_iff]
  records := h.records

/-- Edges that are all pairs are added in turn. -/
theorem addEdges_map (g : Graph) (i : Nat) (es : List Edge) :
    addEdges g i (es.map (fun e => [e.source, e.target])) =
      .ok (es.foldl (fun g e => g.addEdge e.source e.target) g) := by
  induction es generalizing g i with
  | nil => rfl
  | cons e es ih => exact ih (g.addEdge e.source e.target) (i + 1)

/-- Edges that are added are all pairs. -/
theorem exists_map_of_addEdges {i : Nat} {l : List (List BlockId)} (h : addEdges g i l = .ok g') :
    ∃ es : List Edge, l = es.map (fun e => [e.source, e.target]) := by
  fun_induction addEdges g i l with
  | case1 => exact ⟨[], rfl⟩
  | case2 g i source target l ih =>
    obtain ⟨es, rfl⟩ := ih h
    exact ⟨⟨source, target⟩ :: es, rfl⟩
  | case3 => exact absurd h (by nofun)

/-- A document is built by its entries and then by its edges, which are all pairs; the names are
copied in the end. -/
theorem build_eq_ok_iff {d : GraphDocument} :
    d.build = .ok (g, m) ↔ ∃ g₁ : Graph, ∃ es : List Edge,
      addBlocks .empty .empty d.blocks = .ok (g₁, m) ∧
      d.edges = es.map (fun e => [e.source, e.target]) ∧
      g = m.apply (es.foldl (fun g e => g.addEdge e.source e.target) g₁) := by
  unfold build
  constructor
  · intro h
    cases hblocks : addBlocks .empty .empty d.blocks with
    | error e => rw [hblocks] at h; exact absurd h (by nofun)
    | ok r =>
      obtain ⟨g₁, m₁⟩ := r
      rw [hblocks] at h
      change (addEdges g₁ 0 d.edges >>= fun g => pure (m₁.apply g, m₁)) = _ at h
      cases hedges : addEdges g₁ 0 d.edges with
      | error e => rw [hedges] at h; exact absurd h (by nofun)
      | ok g₂ =>
        obtain ⟨es, hes⟩ := exists_map_of_addEdges hedges
        rw [hes, addEdges_map, Except.ok.injEq] at hedges
        rw [hes, addEdges_map] at h
        obtain ⟨rfl, rfl⟩ := Prod.mk.inj (Except.ok.inj h)
        exact ⟨g₁, es, rfl, hes, rfl⟩
  · rintro ⟨g₁, es, hblocks, hedges, rfl⟩
    rw [hblocks, hedges]
    change (addEdges g₁ 0 _ >>= fun g => pure (m.apply g, m)) = _
    rw [addEdges_map]
    rfl

/-- A graph and a membership as a document gives them: the document describes them, and the names
recorded for a block are also in the graph. -/
structure Yields (d : GraphDocument) (es : List Edge) (g : Graph) (m : Membership) : Prop extends
    Describes d.blocks es g m where
  /-- The edges of the document are those of the graph. -/
  edges_eq : d.edges = es.map (fun e => [e.source, e.target])
  /-- A registered block is in the functions recorded for it. -/
  funcs_eq : ∀ n b, g.block? n = some b → b.funcs.toList = m.names n

/-- A document that makes a graph has pairs for edges, which are the edges of the graph. -/
theorem exists_yields_of_build {d : GraphDocument} (h : d.build = .ok (g, m)) :
    ∃ es, d.Yields es g m := by
  obtain ⟨g₁, es, hblocks, hedges, rfl⟩ := build_eq_ok_iff.1 h
  have hdescribes : Describes d.blocks [] g₁ m :=
    addBlocks_induction (fun bs g m => Describes bs [] g m) (fun _ _ _ _ _ h hb => h.addEntry hb)
      describes_empty hblocks
  -- no names are in the graph until they are copied
  have hstart : Graph.empty.Registers (([] : List BlockEntry).map (·.id)) := Graph.registers_empty
  have hregisters : g₁.Registers (d.blocks.map (·.id)) := by
    refine addBlocks_induction (fun bs g _ => g.Registers (bs.map (·.id)))
      (fun bs g m b g' h hb => ?_) hstart hblocks
    rw [List.map_append]
    exact h.addBlock rfl hb
  have hnone := (hregisters.foldl_addEdge es).funcs_eq_empty
  exact ⟨es, (hdescribes.foldl_addEdge es).apply, hedges,
    fun n b hb => Membership.funcs_of_block?_apply (hnone n) hb⟩

/-- A document can be built if its entries of one number have the same contents and its edges are
pairs. -/
theorem exists_build {d : GraphDocument}
    (hagree : d.blocks.Pairwise (fun b c => b.id = c.id → b.contents = c.contents)) {es : List Edge}
    (hedges : d.edges = es.map (fun e => [e.source, e.target])) : ∃ g m, d.build = .ok (g, m) := by
  obtain ⟨g₁, m, hblocks⟩ := describes_empty.exists_addBlocks hagree
  exact ⟨_, m, build_eq_ok_iff.2 ⟨g₁, es, hblocks, hedges, rfl⟩⟩

end GraphDocument

end StackFlow
