import Mathlib.Data.List.Basic
import StackFlow.Proofs.GraphConstruction

/-!
# Graphs that agree with the edges added to them

A graph keeps every edge up to four times: among the successors of its source, among the
predecessors of its target, and in a set of each end that is registered. `Coherent g es` says of all
four that they hold the edges `es`, in the order in which these were added where an order is kept.
Adding an edge appends it to the list (`Coherent.addEdge`). Registering a block leaves the list as
it is, since the block takes up the edges that it has (`Coherent.addBlock`). So the edges that a
graph lists are those added to it (`Coherent.mem_edges_iff`), and what a registered block knows of
its edges is determined by them.
-/

namespace StackFlow.Graph

/-- All that a graph keeps of its edges agrees with a list of them, in the order of insertion. -/
structure Coherent (g : Graph) (es : List Edge) : Prop where
  /-- The successors of a node are the targets of the edges that leave it, in order. -/
  successors_eq : ∀ n, g.successors n = (es.filter (fun e => e.source = n)).map (·.target)
  /-- The predecessors of a node are the sources of the edges that enter it. -/
  mem_predecessors_iff : ∀ u v, u ∈ g.predecessors v ↔ Edge.mk u v ∈ es
  /-- Predecessors are listed by the first edge from each of them. -/
  pairwise_predecessors : ∀ v,
    (g.predecessors v).Pairwise (fun u w => es.idxOf ⟨u, v⟩ < es.idxOf ⟨w, v⟩)
  /-- The nodes are the ends of edges and the numbers of registered blocks. -/
  hasNode_iff : ∀ n, g.hasNode n = true ↔
    (∃ e ∈ es, n = e.source ∨ n = e.target) ∨ (g.block? n).isSome = true
  /-- A block is registered under its own number. -/
  id_eq : ∀ n b, g.block? n = some b → b.id = n
  /-- A registered block knows the edges that leave it. -/
  mem_succs_iff : ∀ n b, g.block? n = some b → ∀ v, v ∈ b.succs.toList ↔ Edge.mk n v ∈ es
  /-- A registered block knows the edges that enter it. -/
  mem_preds_iff : ∀ n b, g.block? n = some b → ∀ u, u ∈ b.preds.toList ↔ Edge.mk u n ∈ es

variable {g g' : Graph} {es : List Edge}

/-- Edges from `u` lead to `v` if the edge between them is listed. -/
theorem mem_map_target_filter {u v : BlockId} :
    v ∈ (es.filter (fun e => e.source = u)).map (·.target) ↔ Edge.mk u v ∈ es := by
  rw [List.mem_map]
  constructor
  · rintro ⟨e, he, rfl⟩
    obtain ⟨hmem, hsource⟩ := List.mem_filter.1 he
    rw [← of_decide_eq_true hsource]
    exact hmem
  · intro huv
    exact ⟨⟨u, v⟩, List.mem_filter.2 ⟨huv, decide_eq_true rfl⟩, rfl⟩

/-- The successors are the targets of the edges. -/
theorem Coherent.mem_successors_iff (h : g.Coherent es) (u v : BlockId) :
    v ∈ g.successors u ↔ Edge.mk u v ∈ es := by
  rw [h.successors_eq, mem_map_target_filter]

/-- No predecessor is listed twice. -/
theorem Coherent.nodup_predecessors (h : g.Coherent es) (v : BlockId) :
    (g.predecessors v).Nodup := by
  refine (h.pairwise_predecessors v).imp ?_
  rintro u w hlt rfl
  exact Nat.lt_irrefl _ hlt

/-- A registered block is a leaf exactly if its number is one. -/
theorem Coherent.isLeaf_eq (h : g.Coherent es) {n : BlockId} {b : Block}
    (hb : g.block? n = some b) : b.isLeaf = g.isLeaf n := by
  have hempty : b.succs.toList = [] ↔ g.successors n = [] := by
    rw [List.eq_nil_iff_forall_not_mem, List.eq_nil_iff_forall_not_mem]
    refine forall_congr' (fun v => not_congr ?_)
    rw [h.mem_succs_iff n b hb, h.mem_successors_iff]
  have hsize : b.succs.size = b.succs.toList.length := by
    rw [SortedMap.size, SortedSet.toList, SortedMap.keys, List.length_map]
  rw [Bool.eq_iff_iff, Block.isLeaf, beq_iff_eq, hsize, List.length_eq_zero_iff, hempty, isLeaf,
    List.isEmpty_iff]

/-! ## The empty graph -/

/-- The empty graph has no edges. -/
theorem coherent_empty : empty.Coherent [] where
  successors_eq _ := rfl
  mem_predecessors_iff _ _ := iff_of_false List.not_mem_nil List.not_mem_nil
  pairwise_predecessors _ := List.Pairwise.nil
  hasNode_iff _ := iff_of_false Bool.false_ne_true (by rintro (⟨_, he, -⟩ | h) <;> contradiction)
  id_eq _ _ h := by contradiction
  mem_succs_iff _ _ h := by contradiction
  mem_preds_iff _ _ h := by contradiction

/-! ## Adding an edge -/

/-- Members of a list keep their places when more is appended. -/
theorem pairwise_idxOf_append {v : BlockId} {l : List BlockId} (hl : ∀ u ∈ l, Edge.mk u v ∈ es)
    (h : l.Pairwise (fun u w => es.idxOf ⟨u, v⟩ < es.idxOf ⟨w, v⟩)) (more : List Edge) :
    l.Pairwise (fun u w => (es ++ more).idxOf ⟨u, v⟩ < (es ++ more).idxOf ⟨w, v⟩) := by
  refine h.imp_of_mem (fun {u w} hu hw hlt => ?_)
  rwa [List.idxOf_append_of_mem (hl u hu), List.idxOf_append_of_mem (hl w hw)]

/-- A new predecessor comes behind those that were known. -/
theorem Coherent.pairwise_predecessors_addEdge (h : g.Coherent es) (s t v : BlockId) :
    ((g.addEdge s t).predecessors v).Pairwise
      (fun u w => (es ++ [Edge.mk s t]).idxOf ⟨u, v⟩ < (es ++ [Edge.mk s t]).idxOf ⟨w, v⟩) := by
  have hold := pairwise_idxOf_append (fun u => (h.mem_predecessors_iff u v).1)
    (h.pairwise_predecessors v) [⟨s, t⟩]
  rw [predecessors_addEdge]
  by_cases hv : v = t
  · subst hv
    rw [if_pos rfl]
    unfold appendNew
    split
    next => exact hold
    next hs =>
      have hnew : Edge.mk s v ∉ es := fun hmem => hs ((h.mem_predecessors_iff s v).2 hmem)
      refine List.pairwise_append.2 ⟨hold, List.pairwise_singleton _ s, fun u hu w hw => ?_⟩
      obtain rfl := List.mem_singleton.1 hw
      have hu' := (h.mem_predecessors_iff u v).1 hu
      -- the new edge stands behind all others
      calc (es ++ [Edge.mk w v]).idxOf ⟨u, v⟩
        _ = es.idxOf ⟨u, v⟩ := List.idxOf_append_of_mem hu'
        _ < es.length := List.idxOf_lt_length_of_mem hu'
        _ ≤ (es ++ [Edge.mk w v]).idxOf ⟨w, v⟩ := by
          rw [List.idxOf_append_of_notMem hnew]
          exact Nat.le_add_right _ _
  · rw [if_neg hv]
    exact hold

/-- Adding an edge keeps a graph coherent, with that edge last. -/
theorem Coherent.addEdge (h : g.Coherent es) (s t : BlockId) :
    (g.addEdge s t).Coherent (es ++ [⟨s, t⟩]) := by
  have hmem : ∀ u v, Edge.mk u v ∈ es ++ [⟨s, t⟩] ↔ Edge.mk u v ∈ es ∨ u = s ∧ v = t := by
    simp
  constructor
  -- the lists of successors and predecessors
  case successors_eq =>
    intro n
    rw [successors_addEdge, List.filter_append, List.map_append, ← h.successors_eq]
    by_cases hn : n = s
    · subst hn
      simp
    · simp [hn, Ne.symm hn]
  case mem_predecessors_iff =>
    intro u v
    rw [mem_predecessors_addEdge, h.mem_predecessors_iff, hmem]
  case pairwise_predecessors => exact h.pairwise_predecessors_addEdge s t
  -- the ends of the edge are nodes now
  case hasNode_iff =>
    intro n
    rw [hasNode_addEdge, h.hasNode_iff, block?_addEdge, Option.isSome_map]
    simp only [List.mem_append, List.mem_singleton, or_and_right, exists_or, exists_eq_left]
    rw [← or_assoc, or_left_comm, ← or_assoc]
  -- the registered blocks, of which only the ends of the edge change
  case id_eq =>
    intro n b hb
    rw [block?_addEdge] at hb
    obtain ⟨c, hc, rfl⟩ := Option.map_eq_some_iff.1 hb
    exact h.id_eq n c hc
  case mem_succs_iff =>
    intro n b hb v
    rw [block?_addEdge] at hb
    obtain ⟨c, hc, rfl⟩ := Option.map_eq_some_iff.1 hb
    rw [hmem, ← h.mem_succs_iff n c hc]
    by_cases hn : n = s
    · simp [hn, SortedSet.mem_toList_add]
    · simp [hn]
  case mem_preds_iff =>
    intro n b hb u
    rw [block?_addEdge] at hb
    obtain ⟨c, hc, rfl⟩ := Option.map_eq_some_iff.1 hb
    rw [hmem, ← h.mem_preds_iff n c hc]
    by_cases hn : n = t
    · simp [hn, SortedSet.mem_toList_add]
    · simp [hn]

/-- Adding edges in turn keeps a graph coherent. -/
theorem Coherent.foldl_addEdge (h : g.Coherent es) (more : List Edge) :
    (more.foldl (fun g e => g.addEdge e.source e.target) g).Coherent (es ++ more) := by
  induction more generalizing g es with
  | nil => rwa [List.append_nil]
  | cons e more ih =>
    have hrest := ih (h.addEdge e.source e.target)
    rwa [List.append_assoc] at hrest

/-- A graph of edges has these edges. -/
theorem coherent_ofEdges (es : List Edge) : (ofEdges es).Coherent es :=
  coherent_empty.foldl_addEdge es

/-! ## Registering a block -/

/-- A block that brings no edges of its own takes up those that the graph has. -/
theorem Coherent.store (h : g.Coherent es) {b : Block} (hnew : g.block? b.id = none)
    (hsuccs : b.succs = .empty) (hpreds : b.preds = .empty) : (g.store b).Coherent es := by
  have hadded : g.addBlock b = .ok (g.store b) := addBlock_of_new hnew
  -- a block that is found now was there before or is the new one
  have hfound : ∀ n c, (g.store b).block? n = some c →
      g.block? n = some c ∨ n = b.id ∧ c = g.link b := by
    intro n c hc
    rw [block?_store] at hc
    by_cases hn : n = b.id
    · rw [if_pos hn, Option.some.injEq] at hc
      exact .inr ⟨hn, hc.symm⟩
    · rw [if_neg hn] at hc
      exact .inl hc
  constructor
  -- storing a block changes no edges
  case successors_eq =>
    intro n
    rw [successors_addBlock hadded, h.successors_eq]
  case mem_predecessors_iff => exact h.mem_predecessors_iff
  case pairwise_predecessors => exact h.pairwise_predecessors
  case hasNode_iff =>
    intro n
    rw [hasNode_store, h.hasNode_iff, isSome_block?_addBlock hadded, or_comm, or_assoc]
  case id_eq =>
    intro n c hc
    rcases hfound n c hc with hc | ⟨rfl, rfl⟩
    · exact h.id_eq n c hc
    · rfl
  case mem_succs_iff =>
    intro n c hc v
    rcases hfound n c hc with hc | ⟨rfl, rfl⟩
    · exact h.mem_succs_iff n c hc v
    · -- the new block brings no successors, and takes up those of the graph
      rw [← h.mem_successors_iff, link, SortedSet.mem_toList_foldl_add, hsuccs]
      exact or_iff_right List.not_mem_nil
  case mem_preds_iff =>
    intro n c hc u
    rcases hfound n c hc with hc | ⟨rfl, rfl⟩
    · exact h.mem_preds_iff n c hc u
    · rw [← h.mem_predecessors_iff, link, SortedSet.mem_toList_foldl_add, hpreds]
      exact or_iff_right List.not_mem_nil

/-- A registration that is not refused stores a new block or changes nothing. -/
theorem Coherent.addBlock (h : g.Coherent es) {b : Block} (hsuccs : b.succs = .empty)
    (hpreds : b.preds = .empty) (hb : g.addBlock b = .ok g') : g'.Coherent es := by
  rcases addBlock_cases hb with ⟨-, rfl⟩ | ⟨hnew, rfl⟩
  · exact h
  · exact h.store hnew hsuccs hpreds

/-! ## The listed edges -/

/-- Of the edges listed by ascending source, those that leave a node lead to the targets under its
key. -/
theorem map_target_filter_flatMap {l : List (BlockId × List BlockId)}
    (hl : l.Pairwise (fun a b => compare a.1 b.1 = .lt)) (n : BlockId) :
    ((l.flatMap (fun e => e.2.map (Edge.mk e.1))).filter (fun e => e.source = n)).map (·.target) =
      (SortedMap.lookup n l).getD [] := by
  induction l with
  | nil => rfl
  | cons a l ih =>
    obtain ⟨k, targets⟩ := a
    obtain ⟨hk, hl'⟩ := List.pairwise_cons.1 hl
    rw [List.flatMap_cons, List.filter_append, List.map_append, ih hl', List.filter_map]
    by_cases hn : n = k
    · subst hn
      -- the key is not listed again
      have hnone : SortedMap.lookup n l = none := by
        rw [← Option.not_isSome_iff_eq_none, SortedMap.lookup_isSome_iff, List.mem_map]
        rintro ⟨a, ha, rfl⟩
        have hlt := hk a ha
        simp at hlt
      simp [SortedMap.lookup, hnone, Function.comp_def]
    · simp [SortedMap.lookup, hn, Ne.symm hn, Function.comp_def]

/-- The edges of a graph that leave a node lead to its successors, in order. -/
theorem map_target_filter_edges (g : Graph) (n : BlockId) :
    (g.edges.filter (fun e => e.source = n)).map (·.target) = g.successors n :=
  map_target_filter_flatMap g.succs.ascending n

/-- The edges of a graph are those that were added to it. -/
theorem Coherent.mem_edges_iff (h : g.Coherent es) (u v : BlockId) :
    Edge.mk u v ∈ g.edges ↔ Edge.mk u v ∈ es := by
  rw [← mem_map_target_filter, map_target_filter_edges, h.mem_successors_iff]

end StackFlow.Graph
