import StackFlow.Proofs.MergeVerdicts
import StackFlow.Proofs.PathBeginnings

/-!
# An analysis finds every merge

On a graph without cycles, an analysis of the default start blocks lists a block exactly if two
different walks from one block lead there (`reports_find_all_merges`).

Nothing is missed for three reasons. Every node is reached from a block without predecessors, and
two walks from a node are two walks from there. Every walk can be continued to a leaf, and so begins
a path that the search finds. And without cycles no walk repeats a block, so that the search does
not leave one out.
-/

namespace StackFlow

namespace Graph

variable {g : Graph} {r s n : BlockId} {p q : Path}

/-! ## Two walks without cycles -/

/-- Two different walks lead from `s` to `n`. -/
def HasTwoWalks (g : Graph) (s n : BlockId) : Prop :=
  ∃ p q, p ≠ q ∧ g.IsWalk s n p ∧ g.IsWalk s n q

/-- Without cycles two different walks lead away from where they begin. -/
theorem Acyclic.ne_of_hasTwoWalks (h : g.Acyclic) (hw : g.HasTwoWalks s n) : s ≠ n := by
  rintro rfl
  obtain ⟨p, q, hne, hp, hq⟩ := hw
  have hp' := hp.eq_singleton (h.nodup_of_isWalk hp)
  have hq' := hq.eq_singleton (h.nodup_of_isWalk hq)
  exact hne (hp'.trans hq'.symm)

/-- Without cycles the merge nodes are where two different walks lead. -/
theorem Acyclic.mem_mergeNodes (h : g.Acyclic) (order : CandidateOrder) :
    n ∈ (g.pathsWith order s).mergeNodes ↔ g.HasTwoWalks s n := by
  simp only [Paths.mem_mergeNodes, h.mem_pathsTo]
  constructor
  · rintro ⟨p, q, hne, ⟨hp, -⟩, hq, -⟩
    exact ⟨p, q, hne, hp, hq⟩
  · intro hw
    have hsn := h.ne_of_hasTwoWalks hw
    obtain ⟨p, q, hne, hp, hq⟩ := hw
    exact ⟨p, q, hne, ⟨hp, hp.two_le_length hsn⟩, hq, hq.two_le_length hsn⟩

/-- Two walks from a block are two walks from any block that reaches it. -/
theorem HasTwoWalks.of_reach (hr : g.Reach r s) (h : g.HasTwoWalks s n) : g.HasTwoWalks r n := by
  obtain ⟨p, q, hne, hp, hq⟩ := h
  obtain ⟨w, hw, -⟩ := hr.exists_simple_walk
  obtain ⟨t, rfl⟩ := hp.exists_eq_cons
  obtain ⟨u, rfl⟩ := hq.exists_eq_cons
  refine ⟨w ++ t, w ++ u, fun heq => hne ?_, hw.append hp, hw.append hq⟩
  rw [List.append_cancel_left heq]

/-- Where two walks begin there is a node, unless it is where they end. -/
theorem HasTwoWalks.hasNode (h : g.HasTwoWalks s n) (hsn : s ≠ n) : g.hasNode s = true := by
  obtain ⟨p, -, -, hp, -⟩ := h
  rcases Relation.ReflTransGen.cases_head hp.reach with heq | ⟨t, hadj, -⟩
  · exact absurd heq hsn
  · exact hasNode_of_adj hadj

end Graph

namespace Analysis

variable {a : Analysis} {g : Graph}

/-! ## Start blocks -/

/-- The roots are the nodes without predecessors. -/
theorem mem_roots {s : BlockId} :
    s ∈ roots g ↔ g.hasNode s = true ∧ g.predecessors s = [] := by
  rw [roots, List.mem_filter, Graph.mem_nodes_iff, List.isEmpty_iff]

/-- Without cycles the start blocks that the graph suggests are those without predecessors. -/
theorem startBlocks_of_acyclic (hg : g.Linked) (hacyclic : g.Acyclic) (hstarts : a.starts = [])
    (hshared : a.sharedBlocks = []) : a.startBlocks g = roots g := by
  unfold startBlocks
  rw [hstarts, hshared]
  by_cases hroots : roots g = []
  · -- then there are no nodes at all
    have hnodes : g.nodes = [] := by
      rw [List.eq_nil_iff_forall_not_mem]
      intro n hn
      obtain ⟨r, hr, hpreds, -⟩ := hacyclic.exists_root hg (Graph.mem_nodes_iff.1 hn)
      have hmem := mem_roots.2 ⟨hr, hpreds⟩
      rw [hroots] at hmem
      exact absurd hmem List.not_mem_nil
    simp [hroots, hnodes]
  · simp [hroots]

/-- An analysis of a graph without cycles that is given no start blocks, has no shared blocks, is
not strict and has no limit comes to its end. Its reports list a block as one where paths meet
exactly if two different walks lead there from some block. -/
theorem reports_find_all_merges (a : Analysis) (g : Graph) (hg : g.Built) (hacyclic : g.Acyclic)
    (hstarts : a.starts = []) (hshared : a.sharedBlocks = []) (hstrict : a.strict = false)
    (hlimit : a.limit ≤ 0) :
    ∃ rs, (a.run g).result = .ok rs ∧
      ∀ n, (∃ r ∈ rs, n ∈ r.merges.map (·.node) ∨ n ∈ r.failures.map (·.node)) ↔
        ∃ s p q, p ≠ q ∧ g.IsWalk s n p ∧ g.IsWalk s n q := by
  choose report hreport hmerge using exists_report hstrict hlimit g
  refine ⟨(roots g).map report, ?_, fun n => ?_⟩
  · rw [result_run, startBlocks_of_acyclic hg.linked hacyclic hstarts hshared]
    exact result_reports (fun s _ => hreport s)
  constructor
  · rintro ⟨r, hr, hn⟩
    obtain ⟨s, -, rfl⟩ := List.mem_map.1 hr
    exact ⟨s, (hacyclic.mem_mergeNodes a.order).1 ((hmerge s n).1 hn)⟩
  · -- the report that lists the block is that of a root which reaches `s`
    rintro ⟨s, hw⟩
    have hnode := Graph.HasTwoWalks.hasNode hw (hacyclic.ne_of_hasTwoWalks hw)
    obtain ⟨root, hroot, hpreds, hreach⟩ := hacyclic.exists_root hg.linked hnode
    refine ⟨report root, List.mem_map.2 ⟨root, mem_roots.2 ⟨hroot, hpreds⟩, rfl⟩, ?_⟩
    refine (hmerge root n).2 ((hacyclic.mem_mergeNodes a.order).2 ?_)
    exact Graph.HasTwoWalks.of_reach hreach hw

/-- Two ways from block 0 to block 3, which block 5 has an edge to as well. -/
def diamond : Graph := Graph.ofEdges [⟨0, 1⟩, ⟨0, 2⟩, ⟨1, 3⟩, ⟨2, 3⟩, ⟨3, 4⟩, ⟨5, 3⟩]

/-- The diamond has no cycle. -/
theorem acyclic_diamond : diamond.Acyclic := by
  -- but for the one from block 5, which no edge leads to, edges ascend
  have hedge : ∀ u v, diamond.Adj u v → v ≠ 5 ∧ (u = 5 ∨ u < v) := by
    intro u v huv
    have hmem := Graph.adj_ofEdges.1 huv
    simp only [List.mem_cons, List.not_mem_nil, or_false, Edge.mk.injEq] at hmem
    rcases hmem with ⟨rfl, rfl⟩ | ⟨rfl, rfl⟩ | ⟨rfl, rfl⟩ | ⟨rfl, rfl⟩ | ⟨rfl, rfl⟩ | ⟨rfl, rfl⟩ <;>
      decide
  have htrans : ∀ u v, Relation.TransGen diamond.Adj u v → v ≠ 5 ∧ (u = 5 ∨ u < v) := by
    intro u v huv
    induction huv with
    | single h => exact hedge _ _ h
    | tail _ h ih =>
      obtain ⟨hv, hlt⟩ := hedge _ _ h
      exact ⟨hv, ih.2.imp_right (fun hu => Int64.lt_trans hu (hlt.resolve_left ih.1))⟩
  intro n hn
  obtain ⟨hne, hlt⟩ := htrans n n hn
  exact Int64.lt_irrefl (hlt.resolve_left hne)

/-- The two ways meet at block 3, and so they do at the block behind it. -/
theorem reports_find_all_merges_diamond :
    diamond.Built ∧ diamond.Acyclic ∧ default.starts = [] ∧ default.sharedBlocks = [] ∧
      default.strict = false ∧ default.limit ≤ 0 ∧
      ∃ rs, (default.run diamond).result = .ok rs ∧
        (∃ r ∈ rs, r.HasMerge 3) ∧ ∃ r ∈ rs, r.HasMerge 4 := by
  have hbuilt : diamond.Built := Graph.built_ofEdges _
  have hfirst : diamond.IsWalk 0 3 [0, 1, 3] :=
    ((Graph.isWalk_singleton _ 0).concat (Graph.adj_ofEdges.2 (by decide))).concat
      (Graph.adj_ofEdges.2 (by decide))
  have hsecond : diamond.IsWalk 0 3 [0, 2, 3] :=
    ((Graph.isWalk_singleton _ 0).concat (Graph.adj_ofEdges.2 (by decide))).concat
      (Graph.adj_ofEdges.2 (by decide))
  have hbehind : diamond.Adj 3 4 := Graph.adj_ofEdges.2 (by decide)
  obtain ⟨rs, hrs, hall⟩ :=
    reports_find_all_merges default diamond hbuilt acyclic_diamond rfl rfl rfl (by decide)
  exact ⟨hbuilt, acyclic_diamond, rfl, rfl, rfl, by decide, rs, hrs,
    (hall 3).2 ⟨0, _, _, by decide, hfirst, hsecond⟩,
    (hall 4).2 ⟨0, _, _, by decide, hfirst.concat hbehind, hsecond.concat hbehind⟩⟩

end Analysis

end StackFlow
