import StackFlow.Proofs.Coherence

/-!
# Sequences of graph operations

A graph is built by operations, each of which adds an edge or registers a block; a registration may
be refused. What the graph keeps of an edge in several places agrees after every sequence of
operations (`relations_agree_after_run`), since each operation keeps it so. Adding an edge and
registering a block can be exchanged (`addBlock_addEdge`), so that only the order among the
registrations and the order among the edges matter (`run_interleaved_eq_blocks_first`).
-/

namespace StackFlow

/-- A step in building a graph. -/
inductive GraphOperation where
  /-- Add an edge. -/
  | edge (e : Edge)
  /-- Register a block. -/
  | block (b : Block)

namespace GraphOperation

/-- The edges that operations add, in order. -/
def addedEdges : List GraphOperation → List Edge
  | [] => []
  | edge e :: ops => e :: addedEdges ops
  | block _ :: ops => addedEdges ops

/-- The operations are registrations and edges, each of them in the order of its list. -/
inductive Interleaved : List Block → List Edge → List GraphOperation → Prop
  /-- Nothing is left to do. -/
  | nil : Interleaved [] [] []
  /-- The next operation is the next registration. -/
  | block {bs : List Block} {es : List Edge} {ops : List GraphOperation} (b : Block)
      (h : Interleaved bs es ops) : Interleaved (b :: bs) es (.block b :: ops)
  /-- The next operation is the next edge. -/
  | edge {bs : List Block} {es : List Edge} {ops : List GraphOperation} (e : Edge)
      (h : Interleaved bs es ops) : Interleaved bs (e :: es) (.edge e :: ops)

end GraphOperation

namespace Graph

open GraphOperation

/-- The graph after a registration, and why it was refused if it was. A refused registration leaves
the graph as it is. -/
def register (g : Graph) (b : Block) : Graph × Option GraphError :=
  match g.addBlock b with
  | .ok g' => (g', none)
  | .error e => (g, some e)

/-- The graph after a sequence of operations, and the answers to the registrations among them. -/
def run (g : Graph) : List GraphOperation → Graph × List (Option GraphError)
  | [] => (g, [])
  | .edge e :: ops => (g.addEdge e.source e.target).run ops
  | .block b :: ops =>
    let rest := (g.register b).1.run ops
    (rest.1, (g.register b).2 :: rest.2)

variable {g : Graph} {es : List Edge} {ops : List GraphOperation}

/-! ## What every sequence of operations keeps -/

/-- A registration is accepted or leaves the graph as it is. -/
theorem register_cases (g : Graph) (b : Block) :
    g.addBlock b = .ok (g.register b).1 ∨ (g.block? b.id).isSome = true ∧ (g.register b).1 = g := by
  unfold register block?
  cases hb : g.addBlock b with
  | ok g' => exact .inl rfl
  | error e =>
    refine .inr ⟨?_, rfl⟩
    -- a number that is not known is not refused
    by_contra hnone
    rw [Option.not_isSome_iff_eq_none] at hnone
    unfold addBlock at hb
    rw [hnone] at hb
    exact absurd hb (by nofun)

/-- The number of a block is known once the block was offered, whether or not it was refused. -/
theorem isSome_block?_register (g : Graph) (b : Block) (n : BlockId) :
    ((g.register b).1.block? n).isSome = true ↔ (g.block? n).isSome = true ∨ n = b.id := by
  rcases register_cases g b with hb | ⟨hknown, heq⟩
  · exact isSome_block?_addBlock hb
  · rw [heq]
    refine (or_iff_left_of_imp ?_).symm
    rintro rfl
    exact hknown

/-- Offering a block keeps a graph coherent. -/
theorem Coherent.register (h : g.Coherent es) {b : Block}
    (hnew : b = .new b.id b.effect b.instrs) : (g.register b).1.Coherent es := by
  rcases register_cases g b with hb | ⟨-, heq⟩
  · exact h.addBlock (by rw [hnew]; rfl) (by rw [hnew]; rfl) hb
  · rwa [heq]

/-- A sequence of operations keeps a graph coherent, with the edges that it adds behind the others.
-/
theorem Coherent.run (h : g.Coherent es)
    (hnew : ∀ b, .block b ∈ ops → b = .new b.id b.effect b.instrs) :
    (g.run ops).1.Coherent (es ++ addedEdges ops) := by
  induction ops generalizing g es with
  | nil => rwa [addedEdges, List.append_nil]
  | cons op ops ih =>
    have hrest : ∀ b, .block b ∈ ops → b = .new b.id b.effect b.instrs :=
      fun b hb => hnew b (List.mem_cons_of_mem _ hb)
    cases op with
    | edge e =>
      have hcoherent := ih (h.addEdge e.source e.target) hrest
      rwa [List.append_assoc] at hcoherent
    | block b => exact ih (h.register (hnew b List.mem_cons_self)) hrest

/-- The registered numbers are those of the blocks that were to be registered. -/
theorem isSome_block?_run (g : Graph) (ops : List GraphOperation) (n : BlockId) :
    ((g.run ops).1.block? n).isSome = true ↔
      (g.block? n).isSome = true ∨ ∃ b, .block b ∈ ops ∧ b.id = n := by
  induction ops generalizing g with
  | nil => simp [run]
  | cons op ops ih =>
    cases op with
    | edge e =>
      rw [run, ih, block?_addEdge, Option.isSome_map]
      simp
    | block b =>
      rw [run, ih, isSome_block?_register, or_assoc]
      refine or_congr_right ⟨?_, ?_⟩
      · rintro (rfl | ⟨c, hc, hn⟩)
        · exact ⟨b, List.mem_cons_self, rfl⟩
        · exact ⟨c, List.mem_cons_of_mem _ hc, hn⟩
      · rintro ⟨c, hc, hn⟩
        rcases List.mem_cons.1 hc with hcb | hc
        · rw [GraphOperation.block.injEq] at hcb
          exact .inl (by rw [← hn, hcb])
        · exact .inr ⟨c, hc, hn⟩

/-- After any sequence of operations on new blocks, refused and repeated registrations included,
successors and predecessors are two lists of the same edges. The predecessors of a node are the
sources of the edges added into it, each once and in the order in which it first occurred. The nodes
are the ends of the edges and the registered numbers, which are those of the blocks that were to be
registered. A registered block has the number it is registered under, its two sets are the
successors and the predecessors of this number, and it is a leaf exactly if the number is one. -/
theorem relations_agree_after_run (ops : List GraphOperation)
    (hnew : ∀ b, .block b ∈ ops → b = .new b.id b.effect b.instrs) (g : Graph)
    (hg : (empty.run ops).1 = g) :
    (∀ u v, v ∈ g.successors u ↔ u ∈ g.predecessors v) ∧
      (∀ u v, u ∈ g.predecessors v ↔ Edge.mk u v ∈ addedEdges ops) ∧
      (∀ v, (g.predecessors v).Nodup ∧
        (g.predecessors v).Pairwise
          (fun u w => (addedEdges ops).idxOf ⟨u, v⟩ < (addedEdges ops).idxOf ⟨w, v⟩)) ∧
      (∀ n, g.hasNode n = true ↔
        (∃ e ∈ addedEdges ops, n = e.source ∨ n = e.target) ∨ (g.block? n).isSome = true) ∧
      (∀ n, (g.block? n).isSome = true ↔ ∃ b, .block b ∈ ops ∧ b.id = n) ∧
      (∀ n b, g.block? n = some b →
        b.id = n ∧ (∀ v, v ∈ b.succs.toList ↔ v ∈ g.successors n) ∧
          (∀ u, u ∈ b.preds.toList ↔ u ∈ g.predecessors n) ∧ b.isLeaf = g.isLeaf n) := by
  have h : g.Coherent (addedEdges ops) := hg ▸ coherent_empty.run hnew
  refine ⟨fun u v => ?_, h.mem_predecessors_iff,
    fun v => ⟨h.nodup_predecessors v, h.pairwise_predecessors v⟩, h.hasNode_iff, fun n => ?_,
    fun n b hb => ⟨h.id_eq n b hb, fun v => ?_, fun u => ?_, h.isLeaf_eq hb⟩⟩
  · rw [h.mem_successors_iff, h.mem_predecessors_iff]
  · rw [← hg, isSome_block?_run]
    exact or_iff_right Bool.false_ne_true
  · rw [h.mem_succs_iff n b hb, h.mem_successors_iff]
  · rw [h.mem_preds_iff n b hb, h.mem_predecessors_iff]

/-- A block with a loop, registered after an edge into it and before the others; then another block
of its number, which is refused, and its first edge once more. -/
def loopOperations : List GraphOperation :=
  [.edge ⟨2, 1⟩, .block (.new 1 ⟨0, 1⟩ ["PUSH0"]), .edge ⟨1, 1⟩, .block (.new 1 ⟨1, 0⟩ ["POP"]),
    .edge ⟨2, 1⟩]

/-- The block with the loop has itself among its predecessors, behind the block that came first. -/
theorem relations_agree_after_run_loop :
    (∀ b, .block b ∈ loopOperations → b = .new b.id b.effect b.instrs) ∧
      (empty.run loopOperations).1.predecessors 1 = [2, 1] ∧
      (empty.run loopOperations).2 = [none, some (.duplicateBlock 1)] ∧
      ∃ b, (empty.run loopOperations).1.block? 1 = some b ∧
        (∀ u, u ∈ b.preds.toList ↔ u = 2 ∨ u = 1) ∧ b.isLeaf = false := by
  have hnew : ∀ b, .block b ∈ loopOperations → b = .new b.id b.effect b.instrs := by
    intro b hb
    simp only [loopOperations, List.mem_cons, List.not_mem_nil, GraphOperation.block.injEq,
      reduceCtorEq, false_or, or_false] at hb
    rcases hb with rfl | rfl <;> rfl
  have hpreds : (empty.run loopOperations).1.predecessors 1 = [2, 1] := by decide
  have hleaf : (empty.run loopOperations).1.isLeaf 1 = false := by decide
  obtain ⟨-, -, -, -, hsome, hblock⟩ := relations_agree_after_run loopOperations hnew _ rfl
  obtain ⟨b, hb⟩ := Option.isSome_iff_exists.1
    ((hsome 1).2 ⟨.new 1 ⟨0, 1⟩ ["PUSH0"], by simp [loopOperations], rfl⟩)
  obtain ⟨-, -, hmem, hisLeaf⟩ := hblock 1 b hb
  refine ⟨hnew, hpreds, by decide, b, hb, fun u => ?_, hisLeaf.trans hleaf⟩
  rw [hmem, hpreds]
  simp

/-! ## Exchanging operations -/

/-- The elements of a list and one more, whether it is among them or not. -/
theorem foldl_add_appendNew (l : List BlockId) (a : BlockId) (s : SortedSet BlockId) :
    (appendNew l a).foldl SortedSet.add s = (l.foldl SortedSet.add s).add a := by
  refine SortedSet.ext_toList (fun b => ?_)
  rw [SortedSet.mem_toList_foldl_add, SortedSet.mem_toList_add, SortedSet.mem_toList_foldl_add,
    mem_appendNew, or_assoc]

/-- A block takes up a new edge as it would learn of it later. -/
theorem link_addEdge (g : Graph) (b : Block) (s t : BlockId) :
    (g.addEdge s t).link b = { g.link b with
      succs := if b.id = s then (g.link b).succs.add t else (g.link b).succs
      preds := if b.id = t then (g.link b).preds.add s else (g.link b).preds } := by
  have hsuccs : ((g.addEdge s t).successors b.id).foldl SortedSet.add b.succs =
      if b.id = s then (g.link b).succs.add t else (g.link b).succs := by
    rw [successors_addEdge]
    split
    next h => rw [List.foldl_append, ← h]; rfl
    next => rfl
  have hpreds : ((g.addEdge s t).predecessors b.id).foldl SortedSet.add b.preds =
      if b.id = t then (g.link b).preds.add s else (g.link b).preds := by
    rw [predecessors_addEdge]
    split
    next h => rw [foldl_add_appendNew, ← h]; rfl
    next => rfl
  rw [← hsuccs, ← hpreds]
  rfl

/-- Making a number a node can be exchanged with adding an edge. -/
theorem succs_exchange (m : SortedMap BlockId (List BlockId)) (n s t : BlockId) :
    ((m.upsert s (fun l => l.getD [] ++ [t])).upsert t (·.getD [])).upsert n (·.getD []) =
      ((m.upsert n (·.getD [])).upsert s (fun l => l.getD [] ++ [t])).upsert t (·.getD []) := by
  refine SortedMap.ext_get? (fun k => ?_)
  simp only [SortedMap.get?_upsert]
  grind

/-- Storing a block can be exchanged with adding an edge. -/
theorem store_addEdge (g : Graph) (b : Block) (s t : BlockId) :
    (g.addEdge s t).store b = (g.store b).addEdge s t := by
  rw [Graph.mk.injEq]
  refine ⟨succs_exchange g.succs b.id s t, rfl, SortedMap.ext_get? (fun n => ?_)⟩
  have hlookup : ((g.addEdge s t).store b).block? n = ((g.store b).addEdge s t).block? n := by
    rw [block?_store, block?_addEdge, block?_addEdge, block?_store]
    -- the block itself is stored with the edge, and all others are as the edge leaves them
    by_cases hn : n = b.id
    · rw [if_pos hn, if_pos hn, Option.map_some, link_addEdge, hn]
    · rw [if_neg hn, if_neg hn]
  exact hlookup

/-- A block can be registered before an edge is added or after it: it is refused in both cases or in
none, and in the end it knows of the edge. -/
theorem addBlock_addEdge (g : Graph) (b : Block) (s t : BlockId) :
    (g.addEdge s t).addBlock b = (g.addBlock b).map (·.addEdge s t) := by
  have hafter := block?_addEdge g s t b.id
  cases hb : g.block? b.id with
  | some known =>
    rw [hb, Option.map_some] at hafter
    rw [addBlock_of_known hafter, addBlock_of_known hb]
    -- the edge does not change the contents of the block that is known
    change (if known.sameContents b then _ else _) = _
    by_cases hsame : known.sameContents b = true
    · rw [if_pos hsame, if_pos hsame]
      rfl
    · rw [if_neg hsame, if_neg hsame]
      rfl
  | none =>
    rw [hb, Option.map_none] at hafter
    rw [addBlock_of_new hafter, addBlock_of_new hb, store_addEdge]
    rfl

/-- It does not matter whether a block is offered before or after an edge is added. -/
theorem register_addEdge (g : Graph) (b : Block) (s t : BlockId) :
    (g.addEdge s t).register b = ((g.register b).1.addEdge s t, (g.register b).2) := by
  unfold register
  rw [addBlock_addEdge]
  cases g.addBlock b <;> rfl

/-- A registered number keeps its block, whether another registration is accepted or refused. -/
theorem register_of_known {b : Block} (h : (g.block? b.id).isSome = true) :
    (g.register b).1 = g := by
  rcases register_cases g b with hb | ⟨-, heq⟩
  · rcases addBlock_cases hb with ⟨-, heq⟩ | ⟨hnone, -⟩
    · exact heq
    · rw [hnone] at h
      exact absurd h (by decide)
  · exact heq

/-- An edge that is added before registrations can be added after them. -/
theorem run_addEdge_blocks (g : Graph) (e : Edge) (bs : List Block) (ops : List GraphOperation) :
    (g.addEdge e.source e.target).run (bs.map .block ++ ops) =
      g.run (bs.map .block ++ .edge e :: ops) := by
  induction bs generalizing g with
  | nil => rfl
  | cons b bs ih =>
    rw [List.map_cons, List.cons_append, List.cons_append, run, run, register_addEdge, ih]

/-- Registrations and edges that are interleaved in any way, each kind in its own order, give the
same graph and the same answers to the registrations as all registrations first and all edges after
them. A registration of a number that is registered already leaves the graph exactly as it was. -/
theorem run_interleaved_eq_blocks_first (g : Graph) (bs : List Block) (es : List Edge)
    (ops : List GraphOperation) (h : Interleaved bs es ops) :
    g.run ops = g.run (bs.map .block ++ es.map .edge) ∧
      ∀ b, (g.block? b.id).isSome = true → (g.register b).1 = g := by
  refine ⟨?_, fun b => register_of_known⟩
  induction h generalizing g with
  | nil => rfl
  | block b _ ih =>
    rw [List.map_cons, List.cons_append, run, run, ih]
  | edge e _ ih =>
    rw [List.map_cons, ← run_addEdge_blocks, run, ih]

/-- The operations on the block with the loop, taken apart: the second registration is refused in
both orders. -/
theorem run_interleaved_eq_blocks_first_loop :
    Interleaved [.new 1 ⟨0, 1⟩ ["PUSH0"], .new 1 ⟨1, 0⟩ ["POP"]] [⟨2, 1⟩, ⟨1, 1⟩, ⟨2, 1⟩]
        loopOperations ∧
      empty.run loopOperations = empty.run
        [.block (.new 1 ⟨0, 1⟩ ["PUSH0"]), .block (.new 1 ⟨1, 0⟩ ["POP"]), .edge ⟨2, 1⟩,
          .edge ⟨1, 1⟩, .edge ⟨2, 1⟩] ∧
      (empty.run loopOperations).2 = [none, some (.duplicateBlock 1)] := by
  have h : Interleaved [.new 1 ⟨0, 1⟩ ["PUSH0"], .new 1 ⟨1, 0⟩ ["POP"]] [⟨2, 1⟩, ⟨1, 1⟩, ⟨2, 1⟩]
      loopOperations :=
    .edge _ (.block _ (.edge _ (.block _ (.edge _ .nil))))
  exact ⟨h, (run_interleaved_eq_blocks_first empty _ _ _ h).1, by decide⟩

end Graph

end StackFlow
