import StackFlow.Proofs.Reachability

/-!
# Graphs built edge by edge

`Built` holds of the graphs that come from the empty one by adding edges and registering blocks. The
module says what one operation does to the successors, the predecessors and the nodes. It follows
that what a graph keeps twice agrees: successors and predecessors are two lists of the same edges,
and both ends of an edge are nodes (`Linked`).
-/

namespace StackFlow.Graph

/-- A graph made from the empty one by adding edges and registering blocks. A refused registration
leaves the graph as it was. -/
inductive Built : Graph → Prop
  /-- There is nothing in the graph yet. -/
  | empty : Built empty
  /-- An edge is added. -/
  | addEdge {g : Graph} (h : Built g) (source target : BlockId) : Built (g.addEdge source target)
  /-- A block is registered. -/
  | addBlock {g g' : Graph} (h : Built g) {b : Block} (hb : g.addBlock b = .ok g') : Built g'

/-- What a graph says of its edges twice agrees. -/
structure Linked (g : Graph) : Prop where
  /-- The predecessors of a block are those whose successor it is. -/
  mem_predecessors_iff : ∀ u v, u ∈ g.predecessors v ↔ g.Adj u v
  /-- Where an edge leads there is a node. -/
  hasNode_target : ∀ u v, g.Adj u v → g.hasNode v = true

/-- Where an edge starts there is a node. -/
theorem hasNode_of_adj {g : Graph} {u v : BlockId} (h : g.Adj u v) : g.hasNode u = true := by
  unfold Adj successors at h
  unfold hasNode SortedMap.contains
  cases hl : g.succs.get? u with
  | none => rw [hl] at h; exact absurd h List.not_mem_nil
  | some l => rfl

/-- What is no node has no successors. -/
theorem isLeaf_of_hasNode_eq_false {g : Graph} {n : BlockId} (h : g.hasNode n = false) :
    g.isLeaf n = true := by
  rw [isLeaf, List.isEmpty_iff, List.eq_nil_iff_forall_not_mem]
  intro v hv
  rw [hasNode_of_adj hv] at h
  exact absurd h (by decide)

/-- The nodes are those listed. -/
theorem mem_nodes_iff {g : Graph} {n : BlockId} : n ∈ g.nodes ↔ g.hasNode n = true :=
  (SortedMap.contains_iff g.succs n).symm

/-- The successors of a node are on record, and those of other blocks are not. -/
theorem get?_succs_eq (g : Graph) (n : BlockId) :
    g.succs.get? n = if g.hasNode n = true then some (g.successors n) else none := by
  unfold hasNode SortedMap.contains successors
  cases g.succs.get? n <;> rfl

/-- Graphs with the same nodes and the same successors keep the same lists. -/
theorem succs_eq_of_successors_eq {g g' : Graph}
    (hnode : ∀ n, g.hasNode n = g'.hasNode n)
    (hsuccs : ∀ n, g.successors n = g'.successors n) : g.succs = g'.succs := by
  refine SortedMap.ext_get? (fun n => ?_)
  rw [get?_succs_eq, get?_succs_eq, hnode, hsuccs]

/-! ## What adding an edge does -/

/-- Adding an edge puts its target behind the successors of its source. -/
theorem successors_addEdge (g : Graph) (s t n : BlockId) :
    (g.addEdge s t).successors n =
      if n = s then g.successors s ++ [t] else g.successors n := by
  unfold successors addEdge
  -- the second update only makes sure that the target is a node
  simp only [SortedMap.get?_upsert]
  by_cases hs : n = s
  · subst hs
    by_cases ht : n = t
    · subst ht
      simp
    · simp [ht]
  · by_cases ht : n = t
    · subst ht
      simp [hs]
    · simp [hs, ht]

/-- Adding an edge puts its source behind the predecessors of its target, unless it is there. -/
theorem predecessors_addEdge (g : Graph) (s t n : BlockId) :
    (g.addEdge s t).predecessors n =
      if n = t then appendNew (g.predecessors t) s else g.predecessors n := by
  unfold predecessors addEdge
  rw [SortedMap.get?_upsert]
  by_cases ht : n = t <;> simp [ht]

/-- Adding an edge adds that edge and no other. -/
theorem adj_addEdge {g : Graph} {s t u v : BlockId} :
    (g.addEdge s t).Adj u v ↔ g.Adj u v ∨ u = s ∧ v = t := by
  unfold Adj
  rw [successors_addEdge]
  by_cases hu : u = s
  · subst hu
    simp
  · simp [hu]

/-- Adding an edge makes its source a predecessor of its target. -/
theorem mem_predecessors_addEdge {g : Graph} {s t u v : BlockId} :
    u ∈ (g.addEdge s t).predecessors v ↔ u ∈ g.predecessors v ∨ u = s ∧ v = t := by
  rw [predecessors_addEdge]
  by_cases hv : v = t
  · subst hv
    simp [mem_appendNew]
  · simp [hv]

/-- Adding an edge makes nodes of its ends. -/
theorem hasNode_addEdge {g : Graph} {s t n : BlockId} :
    (g.addEdge s t).hasNode n = true ↔ n = s ∨ n = t ∨ g.hasNode n = true := by
  unfold hasNode addEdge SortedMap.contains
  simp only [SortedMap.get?_upsert]
  by_cases ht : n = t
  · simp [ht]
  · by_cases hs : n = s
    · subst hs
      simp [ht]
    · simp [hs, ht]

/-- The registered ends of an edge learn of it. -/
theorem block?_addEdge (g : Graph) (s t n : BlockId) :
    (g.addEdge s t).block? n = (g.block? n).map (fun b => { b with
      succs := if n = s then b.succs.add t else b.succs
      preds := if n = t then b.preds.add s else b.preds }) := by
  unfold block? addEdge
  dsimp only
  rw [SortedMap.get?_modify, SortedMap.get?_modify, SortedMap.get?_modify]
  by_cases hs : n = s <;> by_cases ht : n = t
  · subst hs ht
    simp [Function.comp_def]
  · subst hs
    simp [ht]
  · subst ht
    simp [hs]
  · simp [hs, ht]

/-- Adding edges in turn adds just these. -/
theorem adj_foldl_addEdge {es : List Edge} {g : Graph} {u v : BlockId} :
    (es.foldl (fun g e => g.addEdge e.source e.target) g).Adj u v ↔
      g.Adj u v ∨ Edge.mk u v ∈ es := by
  induction es generalizing g with
  | nil => simp
  | cons e es ih =>
    obtain ⟨s, t⟩ := e
    rw [List.foldl_cons, ih, adj_addEdge, List.mem_cons, or_assoc, Edge.mk.injEq]

/-- The edges of a graph of edges are those. -/
theorem adj_ofEdges {es : List Edge} {u v : BlockId} :
    (ofEdges es).Adj u v ↔ Edge.mk u v ∈ es := by
  unfold ofEdges
  rw [adj_foldl_addEdge]
  exact or_iff_right List.not_mem_nil

/-! ## What registering a block does -/

/-- A block with the edges that a graph has for it. -/
def link (g : Graph) (b : Block) : Block :=
  { b with
    succs := (g.successors b.id).foldl SortedSet.add b.succs
    preds := (g.predecessors b.id).foldl SortedSet.add b.preds }

/-- The graph with a block stored under its number, whatever was known of the number. -/
def store (g : Graph) (b : Block) : Graph :=
  { g with
    succs := g.succs.upsert b.id (·.getD [])
    blocks := g.blocks.insert b.id (g.link b) }

/-- A block that is stored is found with its edges, and the others are found as before. -/
theorem block?_store (g : Graph) (b : Block) (n : BlockId) :
    (g.store b).block? n = if n = b.id then some (g.link b) else g.block? n :=
  SortedMap.get?_insert g.blocks b.id n (g.link b)

/-- Storing a block makes a node of its number. -/
theorem hasNode_store {g : Graph} {b : Block} {n : BlockId} :
    (g.store b).hasNode n = true ↔ n = b.id ∨ g.hasNode n = true := by
  unfold hasNode store SortedMap.contains
  dsimp only
  rw [SortedMap.get?_upsert]
  by_cases hn : n = b.id <;> simp [hn]

/-- A new block is stored. -/
theorem addBlock_of_new {g : Graph} {b : Block} (h : g.block? b.id = none) :
    g.addBlock b = .ok (g.store b) := by
  unfold block? at h
  unfold addBlock
  rw [h]
  rfl

/-- A block whose number is known is compared with the one that is registered. -/
theorem addBlock_of_known {g : Graph} {b known : Block} (h : g.block? b.id = some known) :
    g.addBlock b = if known.sameContents b then .ok g else .error (.duplicateBlock b.id) := by
  unfold block? at h
  unfold addBlock
  rw [h]

/-- A registration that is not refused changes nothing if the number is known, and stores the block
otherwise. -/
theorem addBlock_cases {g g' : Graph} {b : Block} (h : g.addBlock b = .ok g') :
    (g.block? b.id ≠ none ∧ g' = g) ∨ (g.block? b.id = none ∧ g' = g.store b) := by
  cases hb : g.block? b.id with
  | none =>
    rw [addBlock_of_new hb] at h
    exact .inr ⟨rfl, (Except.ok.inj h).symm⟩
  | some known =>
    rw [addBlock_of_known hb] at h
    split at h
    · exact .inl ⟨Option.some_ne_none _, (Except.ok.inj h).symm⟩
    · exact absurd h (by nofun)

/-- Registering a block adds its number to those known. -/
theorem isSome_block?_addBlock {g g' : Graph} {b : Block} (h : g.addBlock b = .ok g')
    {n : BlockId} : (g'.block? n).isSome = true ↔ (g.block? n).isSome = true ∨ n = b.id := by
  rcases addBlock_cases h with ⟨hknown, rfl⟩ | ⟨-, rfl⟩
  · refine (or_iff_left_of_imp ?_).symm
    rintro rfl
    exact Option.isSome_iff_ne_none.2 hknown
  · rw [block?_store]
    by_cases hn : n = b.id <;> simp [hn]

/-- A block found after a registration was there before, or has the functions of the new one. -/
theorem funcs_of_block?_addBlock {g g' : Graph} {b c : Block} (h : g.addBlock b = .ok g')
    {n : BlockId} (hc : g'.block? n = some c) : g.block? n = some c ∨ c.funcs = b.funcs := by
  rcases addBlock_cases h with ⟨-, rfl⟩ | ⟨-, rfl⟩
  · exact .inl hc
  · rw [block?_store] at hc
    by_cases hn : n = b.id
    · rw [if_pos hn, Option.some.injEq] at hc
      rw [← hc]
      exact .inr rfl
    · rw [if_neg hn] at hc
      exact .inl hc

/-- Registering a block changes no successors. -/
theorem successors_addBlock {g g' : Graph} {b : Block} (h : g.addBlock b = .ok g')
    (n : BlockId) : g'.successors n = g.successors n := by
  rcases addBlock_cases h with ⟨-, rfl⟩ | ⟨-, rfl⟩
  · rfl
  · unfold successors store
    dsimp only
    rw [SortedMap.get?_upsert]
    by_cases hn : n = b.id <;> simp [hn]

/-- Registering a block changes no predecessors. -/
theorem predecessors_addBlock {g g' : Graph} {b : Block} (h : g.addBlock b = .ok g')
    (n : BlockId) : g'.predecessors n = g.predecessors n := by
  rcases addBlock_cases h with ⟨-, rfl⟩ | ⟨-, rfl⟩ <;> rfl

/-- A node stays a node when a block is registered. -/
theorem hasNode_addBlock {g g' : Graph} {b : Block} (h : g.addBlock b = .ok g') {n : BlockId}
    (hn : g.hasNode n = true) : g'.hasNode n = true := by
  rcases addBlock_cases h with ⟨-, rfl⟩ | ⟨-, rfl⟩
  · exact hn
  · exact hasNode_store.2 (.inr hn)

/-- Registering a block adds no edge. -/
theorem adj_addBlock {g g' : Graph} {b : Block} (h : g.addBlock b = .ok g') {u v : BlockId} :
    g'.Adj u v ↔ g.Adj u v := by
  unfold Adj
  rw [successors_addBlock h]

/-! ## What every built graph has -/

/-- The empty graph has no successors and no predecessors. -/
theorem linked_empty : empty.Linked := by
  have hadj : ∀ u v, ¬ empty.Adj u v := fun _ _ => List.not_mem_nil
  exact ⟨fun u v => iff_of_false List.not_mem_nil (hadj u v), fun u v h => absurd h (hadj u v)⟩

/-- Adding an edge keeps successors and predecessors in step. -/
theorem Linked.addEdge {g : Graph} (h : g.Linked) (s t : BlockId) : (g.addEdge s t).Linked := by
  constructor
  case mem_predecessors_iff =>
    intro u v
    rw [mem_predecessors_addEdge, adj_addEdge, h.mem_predecessors_iff]
  case hasNode_target =>
    intro u v huv
    rw [hasNode_addEdge]
    rcases adj_addEdge.1 huv with huv | ⟨-, rfl⟩
    · exact .inr (.inr (h.hasNode_target u v huv))
    · exact .inr (.inl rfl)

/-- Registering a block keeps successors and predecessors in step. -/
theorem Linked.addBlock {g g' : Graph} (h : g.Linked) {b : Block} (hb : g.addBlock b = .ok g') :
    g'.Linked := by
  constructor
  case mem_predecessors_iff =>
    intro u v
    rw [predecessors_addBlock hb, adj_addBlock hb, h.mem_predecessors_iff]
  case hasNode_target =>
    intro u v huv
    exact hasNode_addBlock hb (h.hasNode_target u v ((adj_addBlock hb).1 huv))

/-- In a built graph, successors and predecessors are in step. -/
theorem Built.linked {g : Graph} (h : g.Built) : g.Linked := by
  induction h with
  | empty => exact linked_empty
  | addEdge _ s t ih => exact ih.addEdge s t
  | addBlock _ hb ih => exact ih.addBlock hb

/-- A built graph with further edges is built. -/
theorem Built.foldl_addEdge {g : Graph} (h : g.Built) (es : List Edge) :
    (es.foldl (fun g e => g.addEdge e.source e.target) g).Built := by
  induction es generalizing g with
  | nil => exact h
  | cons e es ih => exact ih (h.addEdge e.source e.target)

/-- A graph of edges is built. -/
theorem built_ofEdges (es : List Edge) : (ofEdges es).Built := Built.empty.foldl_addEdge es

end StackFlow.Graph
