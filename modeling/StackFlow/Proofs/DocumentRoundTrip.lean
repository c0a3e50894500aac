import StackFlow.Proofs.DocumentGraphs

/-!
# Documents made from graphs

The document of a graph lists its registered blocks by ascending number, each with all its names,
and its edges by ascending source. It builds a graph with the same successors, nodes and registered
blocks and the same functions (`build_ofGraph_restores`), so that making a document again gives the
same document. Only the order of predecessors may differ, since it follows the order of the edges.
-/

namespace StackFlow

namespace Graph

variable {g g' : Graph} {es es' : List Edge}

/-- A registered block is determined by its contents, its names and the edges of the graph. -/
theorem Coherent.block?_eq (h : g.Coherent es) (h' : g'.Coherent es')
    (hes : ∀ u v, Edge.mk u v ∈ es ↔ Edge.mk u v ∈ es') {n : BlockId}
    (hcontents : g.contents? n = g'.contents? n)
    (hfuncs : ∀ b c, g.block? n = some b → g'.block? n = some c → b.funcs = c.funcs) :
    g.block? n = g'.block? n := by
  unfold contents? at hcontents
  cases hb : g.block? n with
  | none =>
    rw [hb, Option.map_none, eq_comm, Option.map_eq_none_iff] at hcontents
    exact hcontents.symm
  | some b =>
    cases hc : g'.block? n with
    | none => rw [hb, hc] at hcontents; exact absurd hcontents (by nofun)
    | some c =>
      rw [hb, hc, Option.map_some, Option.map_some, Option.some.injEq, Prod.mk.injEq] at hcontents
      have hid : b.id = c.id := (h.id_eq n b hb).trans (h'.id_eq n c hc).symm
      have hsuccs : b.succs = c.succs := by
        refine SortedSet.ext_toList (fun v => ?_)
        rw [h.mem_succs_iff n b hb, hes, h'.mem_succs_iff n c hc]
      have hpreds : b.preds = c.preds := by
        refine SortedSet.ext_toList (fun u => ?_)
        rw [h.mem_preds_iff n b hb, hes, h'.mem_preds_iff n c hc]
      have hnames : b.funcs = c.funcs := hfuncs b c hb hc
      obtain ⟨id, effect, instrs, preds, succs, funcs⟩ := b
      obtain ⟨id', effect', instrs', preds', succs', funcs'⟩ := c
      rw [Option.some.injEq, Block.mk.injEq]
      exact ⟨hid, hcontents.1, hcontents.2, hpreds, hsuccs, hnames⟩

end Graph

/-- The list of the ends determines the edge. -/
theorem Edge.pair_injective : Function.Injective (fun e : Edge => [e.source, e.target]) := by
  rintro ⟨u, v⟩ ⟨u', v'⟩ h
  simpa using h

namespace GraphDocument

variable {g : Graph}

/-! ## The document of a graph -/

/-- The entries are those of the registered blocks. -/
theorem mem_blocks_ofGraph {b : BlockEntry} :
    b ∈ (ofGraph g).blocks ↔ ∃ n c, g.block? n = some c ∧ entryOf n c = b := by
  unfold ofGraph Graph.block?
  rw [List.mem_map]
  constructor
  · rintro ⟨⟨n, c⟩, hmem, rfl⟩
    exact ⟨n, c, SortedMap.mem_entries_iff.1 hmem, rfl⟩
  · rintro ⟨n, c, hc, rfl⟩
    exact ⟨(n, c), SortedMap.mem_entries_iff.2 hc, rfl⟩

/-- No two entries have the same number. -/
theorem pairwise_ne_ofGraph (g : Graph) :
    (ofGraph g).blocks.Pairwise (fun b c => b.id ≠ c.id) := by
  refine List.pairwise_map.2 (g.blocks.ascending.imp ?_)
  intro a b hlt hid
  rw [show a.1 = b.1 from hid, Std.compare_self] at hlt
  exact absurd hlt (by decide)

/-- The document of a graph can be built. -/
theorem exists_build_ofGraph (g : Graph) : ∃ g' m', (ofGraph g).build = .ok (g', m') :=
  exists_build ((pairwise_ne_ofGraph g).imp (fun hne heq => absurd heq hne)) rfl

/-- The entries give the contents of the registered blocks. -/
theorem contents_iff_ofGraph (g : Graph) (n : BlockId) (x : StackEffect × List String) :
    g.contents? n = some x ↔ ∃ b ∈ (ofGraph g).blocks, b.id = n ∧ b.contents = x := by
  unfold Graph.contents?
  rw [Option.map_eq_some_iff]
  constructor
  · rintro ⟨c, hc, rfl⟩
    exact ⟨entryOf n c, mem_blocks_ofGraph.2 ⟨n, c, hc, rfl⟩, rfl, rfl⟩
  · rintro ⟨b, hb, rfl, rfl⟩
    obtain ⟨n, c, hc, rfl⟩ := mem_blocks_ofGraph.1 hb
    exact ⟨c, hc, rfl⟩

variable {d : GraphDocument} {es : List Edge} {m : Membership}

/-- The entries give the names recorded for the registered blocks, which are all that are recorded.
-/
theorem Yields.records_ofGraph (h : d.Yields es g m) :
    m.Records (fun n s => ∃ b ∈ (ofGraph g).blocks, b.id = n ∧ s ∈ b.funcs) := by
  refine h.records.congr (fun n s => ⟨?_, ?_⟩)
  · rintro ⟨b, hb, rfl, hs⟩
    have hcontents := (h.contents_iff b.id b.contents).2 ⟨b, hb, rfl, rfl⟩
    obtain ⟨c, hc, -⟩ := Option.map_eq_some_iff.1 hcontents
    have hnames : s ∈ c.funcs.toList := by
      rw [h.funcs_eq b.id c hc]
      exact (h.records.mem_names_iff b.id s).2 ⟨b, hb, rfl, hs⟩
    exact ⟨entryOf b.id c, mem_blocks_ofGraph.2 ⟨b.id, c, hc, rfl⟩, rfl, hnames⟩
  · rintro ⟨b, hb, rfl, hs⟩
    obtain ⟨n, c, hc, rfl⟩ := mem_blocks_ofGraph.1 hb
    refine (h.records.mem_names_iff n s).1 ?_
    rw [← h.funcs_eq n c hc]
    exact hs

/-! ## Building the document of a graph -/

section Again

-- `g'` and `m'` are what the document of `g` builds
variable {g' : Graph} {m' : Membership} {es' : List Edge}

/-- The exported document has the edges of the graph in their order. -/
theorem Yields.edges_again (h' : (ofGraph g).Yields es' g' m') : es' = g.edges :=
  (List.map_injective_iff.2 Edge.pair_injective h'.edges_eq).symm

/-- The names are the same, since both memberships record those of the registered blocks. -/
theorem Yields.membership_again (h : d.Yields es g m) (h' : (ofGraph g).Yields es' g' m') :
    m' = m :=
  h'.records.unique h.records_ofGraph

/-- The graph of the exported document has the same contents of blocks. -/
theorem Yields.contents?_again (h' : (ofGraph g).Yields es' g' m') (n : BlockId) :
    g'.contents? n = g.contents? n := by
  refine Option.ext (fun x => ?_)
  rw [h'.contents_iff, contents_iff_ofGraph]

/-- The exported document has the same edges as the first one. -/
theorem Yields.mem_edges_again (h : d.Yields es g m) (h' : (ofGraph g).Yields es' g' m')
    (u v : BlockId) : Edge.mk u v ∈ es' ↔ Edge.mk u v ∈ es := by
  rw [h'.edges_again, h.coherent.mem_edges_iff]

/-- Edges of one source are listed in the order of insertion, so that they are added in this order
again. -/
theorem Yields.successors_again (h' : (ofGraph g).Yields es' g' m') (n : BlockId) :
    g'.successors n = g.successors n := by
  rw [h'.coherent.successors_eq, h'.edges_again, Graph.map_target_filter_edges]

/-- The graph of the exported document has the same nodes. -/
theorem Yields.hasNode_again (h : d.Yields es g m) (h' : (ofGraph g).Yields es' g' m')
    (n : BlockId) : g'.hasNode n = g.hasNode n := by
  have hregistered : (g'.block? n).isSome = (g.block? n).isSome := by
    have hcontents := congrArg Option.isSome (h'.contents?_again n)
    rwa [Graph.contents?, Graph.contents?, Option.isSome_map, Option.isSome_map] at hcontents
  have hends : ∀ e : Edge, e ∈ es' ↔ e ∈ es := fun e => h.mem_edges_again h' e.source e.target
  rw [Bool.eq_iff_iff, h'.coherent.hasNode_iff, h.coherent.hasNode_iff, hregistered]
  simp only [hends]

/-- The graph of the exported document has the same blocks, with their relations and functions. -/
theorem Yields.block?_again (h : d.Yields es g m) (h' : (ofGraph g).Yields es' g' m')
    (n : BlockId) : g'.block? n = g.block? n := by
  refine h'.coherent.block?_eq h.coherent (h.mem_edges_again h') (h'.contents?_again n) ?_
  intro b c hb hc
  refine SortedSet.ext_toList (fun s => ?_)
  rw [h'.funcs_eq n b hb, h.funcs_eq n c hc, h.membership_again h']

end Again

/-- The document of a graph that was built from a document can be built again. The graph has the
same nodes, the same successors in the same order and with the same repetition, the same
predecessors up to their order, and the same registered blocks with their contents, edges and names.
The names and the shared blocks that are recorded are the same. Made from this graph, the document
is the same. -/
theorem build_ofGraph_restores (d : GraphDocument) (g : Graph) (m : Membership)
    (h : d.build = .ok (g, m)) :
    ∃ g' m', (ofGraph g).build = .ok (g', m') ∧
      g'.nodes = g.nodes ∧
      (∀ n, g'.successors n = g.successors n) ∧
      (∀ u v, u ∈ g'.predecessors v ↔ u ∈ g.predecessors v) ∧
      (∀ n, g'.block? n = g.block? n) ∧
      (∀ n, m'.names? n = m.names? n) ∧
      m'.shared = m.shared ∧
      ofGraph g' = ofGraph g := by
  obtain ⟨g', m', hbuild⟩ := exists_build_ofGraph g
  obtain ⟨es, hyields⟩ := exists_yields_of_build h
  obtain ⟨es', hyields'⟩ := exists_yields_of_build hbuild
  have hsuccs : g'.succs = g.succs :=
    Graph.succs_eq_of_successors_eq (hyields.hasNode_again hyields') hyields'.successors_again
  have hblocks : g'.blocks = g.blocks := SortedMap.ext_get? (hyields.block?_again hyields')
  have hmembership : m' = m := hyields.membership_again hyields'
  refine ⟨g', m', hbuild, ?_, hyields'.successors_again, fun u v => ?_,
    hyields.block?_again hyields', fun n => by rw [hmembership], by rw [hmembership], ?_⟩
  · rw [Graph.nodes, hsuccs, Graph.nodes]
  · rw [hyields'.coherent.mem_predecessors_iff, hyields.coherent.mem_predecessors_iff,
      hyields.mem_edges_again hyields']
  · rw [ofGraph, Graph.edges, hblocks, hsuccs]
    rfl

/-- Block 3 comes twice, with different names, and has a repeated edge and a loop; block 9 has no
edge and block 1 no entry. -/
def sharedEntry : GraphDocument where
  blocks := [⟨3, 1, -1, ["POP"], ["g", "f"]⟩, ⟨9, 0, 0, ["STOP"], []⟩, ⟨3, 1, -1, ["POP"], ["h"]⟩]
  edges := [[3, 5], [1, 3], [3, 3], [3, 5]]

/-- The graph of the document with a shared block, its export and the graph of that. -/
theorem build_ofGraph_restores_sharedEntry :
    ∃ g m g' m', sharedEntry.build = .ok (g, m) ∧ (ofGraph g).build = .ok (g', m') ∧
      (ofGraph g).blocks = [⟨3, 1, -1, ["POP"], ["f", "g", "h"]⟩, ⟨9, 0, 0, ["STOP"], []⟩] ∧
      g'.nodes = [1, 3, 5, 9] ∧ g'.successors 3 = [5, 3, 5] ∧
      m'.names? 3 = some ["f", "g", "h"] ∧ m'.shared = [3] ∧ ofGraph g' = ofGraph g := by
  have h : sharedEntry.build = .ok (_, _) := rfl
  obtain ⟨g', m', hbuild, hnodes, hsuccs, -, -, hnames, hshared, hagain⟩ :=
    build_ofGraph_restores sharedEntry _ _ h
  exact ⟨_, _, g', m', h, hbuild, rfl, hnodes, hsuccs 3, hnames 3, hshared, hagain⟩

end GraphDocument

end StackFlow
