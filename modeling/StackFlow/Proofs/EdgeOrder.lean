import StackFlow.Proofs.Coherence

/-!
# The order in which a graph lists its edges

A graph lists its edges by ascending source, those of one source in the order in which they were
added. This is what a stable sort by source leaves of the edges (`Coherent.isStableSort_edges`), and
there is only one such list (`IsStableSort.unique`). A list that is in order already stays as it is,
so that a graph made from the listed edges of another lists them again. Its nodes and successors are
the same too; only the predecessors follow the new order (`edges_sorted_rebuilt`).
-/

namespace StackFlow.Graph

variable {g : Graph} {es l k : List Edge} {n : BlockId}

/-! ## Stable sorts by source -/

/-- What a stable sort by source leaves of a list of edges. -/
structure IsStableSort (es l : List Edge) : Prop where
  /-- Every edge is kept, as often as it occurs. -/
  perm : l.Perm es
  /-- Sources do not descend. -/
  ordered : l.Pairwise (fun d e => d.source ≤ e.source)
  /-- Edges of one source keep their order. -/
  stable : ∀ n, l.filter (fun e => e.source = n) = es.filter (fun e => e.source = n)

/-- Lists with the same edges of each source have the same edges. -/
theorem perm_of_filter_source_eq
    (h : ∀ n, l.filter (fun e => e.source = n) = k.filter (fun e => e.source = n)) :
    l.Perm k := by
  refine List.perm_iff_count.2 (fun e => ?_)
  have hcount : ∀ l : List Edge, (l.filter (fun d => d.source = e.source)).count e = l.count e :=
    fun l => List.count_filter (decide_eq_true rfl)
  rw [← hcount l, h, hcount]

/-- Lists in the order of sources are the same if they have the same edges of each source. -/
theorem eq_of_filter_source_eq (hl : l.Pairwise (fun d e => d.source ≤ e.source))
    (hk : k.Pairwise (fun d e => d.source ≤ e.source))
    (h : ∀ n, l.filter (fun e => e.source = n) = k.filter (fun e => e.source = n)) : l = k := by
  induction l generalizing k with
  | nil => exact (perm_of_filter_source_eq h).nil_eq
  | cons d l ih =>
    have hperm := perm_of_filter_source_eq h
    cases k with
    | nil => exact absurd hperm.eq_nil (List.cons_ne_nil d l)
    | cons e k =>
      obtain ⟨hd, hl'⟩ := List.pairwise_cons.1 hl
      obtain ⟨he, hk'⟩ := List.pairwise_cons.1 hk
      -- each of the two first edges stands in the other list, so that neither source is less
      have hde : d.source ≤ e.source := by
        rcases List.mem_cons.1 (hperm.mem_iff.2 List.mem_cons_self) with rfl | hmem
        · exact Std.le_refl _
        · exact hd e hmem
      have hed : e.source ≤ d.source := by
        rcases List.mem_cons.1 (hperm.mem_iff.1 List.mem_cons_self) with rfl | hmem
        · exact Std.le_refl _
        · exact he d hmem
      have hsource : d.source = e.source := Std.le_antisymm hde hed
      have hfirst := h d.source
      rw [List.filter_cons, List.filter_cons, if_pos (decide_eq_true rfl),
        if_pos (decide_eq_true hsource.symm)] at hfirst
      obtain ⟨rfl, -⟩ := List.cons.inj hfirst
      refine congrArg (d :: ·) (ih hl' hk' (fun n => ?_))
      have hn := h n
      rw [List.filter_cons, List.filter_cons] at hn
      split at hn
      · exact (List.cons.inj hn).2
      · exact hn

/-- Edges can be sorted in one way only without changing the order of those from one source. -/
theorem IsStableSort.unique (h : IsStableSort es l) (h' : IsStableSort es k) : l = k :=
  eq_of_filter_source_eq h.ordered h'.ordered (fun n => (h.stable n).trans (h'.stable n).symm)

/-- Edges that are sorted are their own stable sort. -/
theorem isStableSort_self (h : es.Pairwise (fun d e => d.source ≤ e.source)) :
    IsStableSort es es :=
  ⟨.refl es, h, fun _ => rfl⟩

/-- Sorting by merging is stable. -/
theorem isStableSort_mergeSort (es : List Edge) :
    IsStableSort es (es.mergeSort (fun d e => d.source ≤ e.source)) := by
  have htrans : ∀ c d e : Edge, decide (c.source ≤ d.source) = true →
      decide (d.source ≤ e.source) = true → decide (c.source ≤ e.source) = true := by
    intro c d e hcd hde
    exact decide_eq_true (Std.le_trans (of_decide_eq_true hcd) (of_decide_eq_true hde))
  have htotal : ∀ d e : Edge,
      (decide (d.source ≤ e.source) || decide (e.source ≤ d.source)) = true := by
    intro d e
    rw [Bool.or_eq_true, decide_eq_true_iff, decide_eq_true_iff]
    exact Std.le_total
  have hperm := List.mergeSort_perm es (fun d e => d.source ≤ e.source)
  refine ⟨hperm, (List.pairwise_mergeSort htrans htotal es).imp of_decide_eq_true, fun n => ?_⟩
  -- the edges of one source are in order and so stand in the result in the same order
  have hordered : (es.filter (fun e => e.source = n)).Pairwise
      (fun d e => decide (d.source ≤ e.source) = true) := by
    refine List.pairwise_of_forall_mem_list (fun d hd e he => decide_eq_true ?_)
    rw [of_decide_eq_true (List.mem_filter.1 hd).2, of_decide_eq_true (List.mem_filter.1 he).2]
    exact Std.le_refl n
  have hsublist := (List.sublist_mergeSort htrans htotal hordered List.filter_sublist).filter
    (fun e => e.source = n)
  rw [List.filter_filter] at hsublist
  simp only [Bool.and_self] at hsublist
  exact (hsublist.eq_of_length (hperm.filter _).length_eq.symm).symm

/-! ## The listed edges -/

/-- Edges of one source are given by their targets. -/
theorem map_mk_target_filter_source (es : List Edge) (n : BlockId) :
    ((es.filter (fun e => e.source = n)).map (·.target)).map (Edge.mk n) =
      es.filter (fun e => e.source = n) := by
  rw [List.map_map]
  refine (List.map_congr_left (fun e he => ?_)).trans (List.map_id _)
  have hsource : e.source = n := of_decide_eq_true (List.mem_filter.1 he).2
  rw [← hsource]
  rfl

/-- The edges of a graph are listed by their sources. -/
theorem pairwise_source_edges (g : Graph) : g.edges.Pairwise (fun d e => d.source ≤ e.source) := by
  have hsource : ∀ (a : BlockId × List BlockId), ∀ e ∈ a.2.map (Edge.mk a.1), e.source = a.1 := by
    intro a e he
    obtain ⟨t, -, rfl⟩ := List.mem_map.1 he
    rfl
  refine List.pairwise_flatMap.2
    ⟨fun a _ => ?_, g.succs.ascending.imp (fun {a b} hlt d hd e he => ?_)⟩
  · refine List.pairwise_of_forall_mem_list (fun d hd e he => ?_)
    rw [hsource a d hd, hsource a e he]
    exact Std.le_refl _
  · rw [hsource a d hd, hsource b e he]
    exact Std.le_of_lt (Std.compare_eq_lt.1 hlt)

/-- A graph lists the edges that were added to it as a stable sort by source would. -/
theorem Coherent.isStableSort_edges (h : g.Coherent es) : IsStableSort es g.edges := by
  have hstable : ∀ n,
      g.edges.filter (fun e => e.source = n) = es.filter (fun e => e.source = n) := by
    intro n
    rw [← map_mk_target_filter_source g.edges, map_target_filter_edges, h.successors_eq,
      map_mk_target_filter_source]
  exact ⟨perm_of_filter_source_eq hstable, pairwise_source_edges g, hstable⟩

/-! ## Graphs made from listed edges -/

/-- Adding edges in turn makes nodes of their ends. -/
theorem hasNode_foldl_addEdge :
    (es.foldl (fun g e => g.addEdge e.source e.target) g).hasNode n = true ↔
      (∃ e ∈ es, n = e.source ∨ n = e.target) ∨ g.hasNode n = true := by
  induction es generalizing g with
  | nil => simp
  | cons e es ih =>
    rw [List.foldl_cons, ih, hasNode_addEdge, List.exists_mem_cons_iff, or_assoc, or_assoc,
      or_left_comm, or_left_comm (b := n = e.target)]

/-- The nodes of a graph of edges are the ends of these. -/
theorem hasNode_ofEdges :
    (ofEdges es).hasNode n = true ↔ ∃ e ∈ es, n = e.source ∨ n = e.target := by
  rw [ofEdges, hasNode_foldl_addEdge]
  exact or_iff_left Bool.false_ne_true

/-- A graph lists its edges as a stable sort by source leaves those that it was made from: every
edge is kept as often as it occurs, and edges of one source keep their order. There is just one such
list. The graph of the listed edges has the same nodes, the same successors in the same order and
the same edges, and the same predecessors in an order of its own. -/
theorem edges_sorted_rebuilt (es : List Edge) :
    (∀ l, IsStableSort es l ↔ l = (ofEdges es).edges) ∧
      (ofEdges es).edges = es.mergeSort (fun d e => d.source ≤ e.source) ∧
      (ofEdges (ofEdges es).edges).nodes = (ofEdges es).nodes ∧
      (∀ n, (ofEdges (ofEdges es).edges).successors n = (ofEdges es).successors n) ∧
      (ofEdges (ofEdges es).edges).edges = (ofEdges es).edges ∧
      ∀ n, ((ofEdges (ofEdges es).edges).predecessors n).Perm ((ofEdges es).predecessors n) := by
  have hcoherent := coherent_ofEdges es
  have hcoherent' := coherent_ofEdges (ofEdges es).edges
  have hsort := hcoherent.isStableSort_edges
  have hsuccs : ∀ n, (ofEdges (ofEdges es).edges).successors n = (ofEdges es).successors n := by
    intro n
    rw [hcoherent'.successors_eq, map_target_filter_edges]
  have hnode : ∀ n, (ofEdges (ofEdges es).edges).hasNode n = (ofEdges es).hasNode n := by
    intro n
    rw [Bool.eq_iff_iff, hasNode_ofEdges, hasNode_ofEdges]
    simp only [hsort.perm.mem_iff]
  have hlists : (ofEdges (ofEdges es).edges).succs = (ofEdges es).succs :=
    succs_eq_of_successors_eq hnode hsuccs
  refine ⟨fun l => ⟨fun hl => hl.unique hsort, fun hl => hl ▸ hsort⟩,
    hsort.unique (isStableSort_mergeSort es), ?_, hsuccs, ?_, fun n => ?_⟩
  · rw [nodes, hlists, nodes]
  · -- the listed edges are in order, so that sorting them again changes nothing
    exact hcoherent'.isStableSort_edges.unique (isStableSort_self hsort.ordered)
  · rw [List.perm_ext_iff_of_nodup (hcoherent'.nodup_predecessors n)
      (hcoherent.nodup_predecessors n)]
    intro u
    rw [hcoherent'.mem_predecessors_iff, hcoherent.mem_predecessors_iff, hsort.perm.mem_iff]

end StackFlow.Graph
