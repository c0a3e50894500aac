import StackFlow.Proofs.AlikeGraphs
import StackFlow.Proofs.DocumentRoundTrip

/-!
# Analysis of exported programs

The graph of a program can be written to a document and built from it again. The blocks are then
registered by ascending number and the edges added by ascending source, and the functions around a
block are taken from its entry. The graph that comes of it is like the one of the program
(`Yields.alike_again`), and the functions are the same, so that no analysis without a limit can tell
which of the two it works on (`Program.exported_analysis_same`).
-/

namespace StackFlow

namespace GraphDocument

variable {g g' : Graph} {m m' : Membership} {es es' : List Edge}

/-- A graph that keeps the names of a membership, which names registered blocks only, is the graph
of a document. -/
theorem yields_of_coherent {r : BlockId → String → Prop} (hg : g.Coherent es) (hm : m.Records r)
    (hfuncs : ∀ n b, g.block? n = some b → b.funcs.toList = m.names n)
    (hregistered : ∀ n s, r n s → (g.block? n).isSome = true) :
    Yields ⟨(ofGraph g).blocks, es.map fun e => [e.source, e.target]⟩ es g m := by
  have hnames : ∀ n s, r n s ↔ ∃ b ∈ (ofGraph g).blocks, b.id = n ∧ s ∈ b.funcs := by
    intro n s
    rw [← hm.mem_names_iff]
    constructor
    · intro hs
      obtain ⟨c, hc⟩ := Option.isSome_iff_exists.1 (hregistered n s ((hm.mem_names_iff n s).1 hs))
      rw [← hfuncs n c hc] at hs
      exact ⟨entryOf n c, mem_blocks_ofGraph.2 ⟨n, c, hc, rfl⟩, rfl, hs⟩
    · rintro ⟨b, hb, rfl, hs⟩
      obtain ⟨n, c, hc, rfl⟩ := mem_blocks_ofGraph.1 hb
      rw [show (entryOf n c).id = n from rfl, ← hfuncs n c hc]
      exact hs
  exact ⟨⟨hg, contents_iff_ofGraph g, hm.congr hnames⟩, rfl, hfuncs⟩

/-- The document of a graph builds a graph like it. -/
theorem Yields.alike_again {d : GraphDocument} (h : d.Yields es g m)
    (h' : (ofGraph g).Yields es' g' m') : g'.Alike g where
  succs_eq := Graph.succs_eq_of_successors_eq (h.hasNode_again h') h'.successors_again
  blocks_eq := SortedMap.ext_get? (h.block?_again h')
  mem_predecessors_iff u v := by
    rw [h'.coherent.mem_predecessors_iff, h.coherent.mem_predecessors_iff, h.mem_edges_again h']

end GraphDocument

namespace Program

variable {p : Program} {g : Graph}

/-- The graph of a program with the names of its functions is the graph of a document. -/
theorem IsDecoded.exists_yields {code : List UInt8} (hp : IsDecoded code p) (h : p.graph = .ok g) :
    ∃ d : GraphDocument, d.Yields p.edges ((p.membership g).apply g) (p.membership g) := by
  have hg := isGraphOf_of_graph h
  refine ⟨_, GraphDocument.yields_of_coherent
    (Membership.coherent_apply _ (coherent_graph h)) hg.records_membership
    (fun n b hb => Membership.funcs_of_block?_apply (hg.registers.funcs_eq_empty n) hb)
    (fun n s hs => ?_)⟩
  rw [Membership.block?_apply, Option.isSome_map]
  exact (hg.registers.isSome_block?_iff n).2 (hp.isBlock_of_inFunction hs)

/-- Code that is not empty has a program, and a graph unless it is longer than there are block
numbers. The document of this graph, with the names of the functions in it, can be built. On the
graph and the functions that it gives, an analysis without a limit has the same start blocks, the
same report on every start block, or the same reason to end early, and so the same result as on
those of the program, whatever the orders in which the two try candidates. -/
theorem exported_analysis_same (code : List UInt8) (hcode : code ≠ []) :
    ∃ p, decode code = .ok p ∧
      (code.length ≤ UInt64.size → ∃ g, p.graph = .ok g) ∧
      ∀ g, p.graph = .ok g →
        ∃ g' m', (GraphDocument.ofGraph ((p.membership g).apply g)).build = .ok (g', m') ∧
          ∀ (a : Analysis) (order : CandidateOrder), a.limit ≤ 0 →
            let loaded : Analysis := { a with members := some (p.membership g) }
            let exported : Analysis := { a with members := some m', order := order }
            exported.startBlocks g' = loaded.startBlocks ((p.membership g).apply g) ∧
            (∀ s, (exported.report g' s).1 = (loaded.report ((p.membership g).apply g) s).1) ∧
            (exported.run g').result = (loaded.run ((p.membership g).apply g)).result := by
  obtain ⟨p, hdecode, hp⟩ := decode_eq_ok hcode
  refine ⟨p, hdecode, hp.exists_graph, fun g hgraph => ?_⟩
  -- the graph of the program is described by a document as well, so that the two can be compared
  obtain ⟨d, hyields⟩ := hp.exists_yields hgraph
  obtain ⟨g', m', hbuild⟩ := GraphDocument.exists_build_ofGraph ((p.membership g).apply g)
  obtain ⟨es', hyields'⟩ := GraphDocument.exists_yields_of_build hbuild
  have halike := hyields.alike_again hyields'
  refine ⟨g', m', hbuild, fun a order hlimit => ?_⟩
  intro loaded exported
  have hagree : exported.Agree loaded :=
    ⟨rfl, rfl, ⟨hlimit, hlimit⟩, rfl, congrArg some (hyields.membership_again hyields')⟩
  exact ⟨halike.startBlocks_eq hagree, halike.fst_report_eq hagree, halike.result_run_eq hagree⟩

/-- A strict analysis of the block at offset 19, with the functions around each block. -/
def strictlyAt19 (m : Membership) : Analysis :=
  { Analysis.default with starts := [19], strict := true, members := some m }

/-- The entry of the two functions only jumps to itself, and a strict analysis says so of the
program and of what is built from its document. -/
theorem exported_analysis_same_twoSelectors :
    twoSelectors ≠ [] ∧ ∃ p g g' m', decode twoSelectors = .ok p ∧ p.graph = .ok g ∧
      (GraphDocument.ofGraph ((p.membership g).apply g)).build = .ok (g', m') ∧
      ((strictlyAt19 m').run g').result = .error (.convergence (.noPaths 19)) ∧
      ((strictlyAt19 (p.membership g)).run ((p.membership g).apply g)).result =
        .error (.convergence (.noPaths 19)) := by
  have hne : twoSelectors ≠ [] := by decide
  have hlimit : ∀ m, (strictlyAt19 m).limit ≤ 0 := fun _ => Int.le_refl 0
  obtain ⟨p, hdecode, hexists, hall⟩ := exported_analysis_same twoSelectors hne
  obtain ⟨g, hgraph⟩ := hexists (by decide)
  obtain ⟨g', m', hbuild, hsame⟩ := hall g hgraph
  obtain ⟨-, -, hresult⟩ := hsame (strictlyAt19 m') .insertion (hlimit m')
  obtain ⟨p', hdecode', hp⟩ := decode_eq_ok hne
  obtain rfl : p = p' := Except.ok.inj (hdecode.symm.trans hdecode')
  have hedges : p.edges = [⟨0, 19⟩, ⟨0, 9⟩, ⟨9, 19⟩, ⟨9, 18⟩, ⟨19, 19⟩] := by
    rw [hp.edges, hp.blocks, CodeBlock.ofCode, destinations, read_twoSelectors]
    decide
  have hg := isGraphOf_of_graph hgraph
  have hadj : ((p.membership g).apply g).Adj 19 19 :=
    (hg.adj_iff 19 19).2 (by rw [hedges]; decide)
  -- the block leads to itself only, which is no leaf
  have hloop : ∀ n, ((p.membership g).apply g).Reach 19 n → n = 19 := by
    intro n hn
    induction hn with
    | refl => rfl
    | @tail u v _ huv ih =>
      have hmem := (hg.adj_iff u v).1 huv
      rw [hedges, ih] at hmem
      simpa using hmem
  have hnil : (strictlyAt19 (p.membership g)).listed ((p.membership g).apply g) 19 = [] := by
    have hleaf : ((p.membership g).apply g).isLeaf 19 = false :=
      List.isEmpty_eq_false_iff.2 (List.ne_nil_of_mem hadj)
    rw [Analysis.listed, if_pos (hlimit _),
      Graph.pathsWith_eq_nil_iff.2 (.inr fun n hn => hloop n hn ▸ hleaf), Paths.sorted,
      List.mergeSort_nil]
  have hloaded : ((strictlyAt19 (p.membership g)).run ((p.membership g).apply g)).result =
      .error (.convergence (.noPaths 19)) := by
    rw [Analysis.result_run]
    change ((strictlyAt19 (p.membership g)).reports _ [19]).result = _
    rw [Analysis.result_reports_cons, Analysis.fst_report_of_hasNode (Graph.hasNode_of_adj hadj),
      hnil]
    rfl
  exact ⟨hne, p, g, g', m', hdecode, hgraph, hbuild, hresult.trans hloaded, hloaded⟩

end Program

end StackFlow
