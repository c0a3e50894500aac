import StackFlow.Proofs.AlikeGraphs
import StackFlow.Proofs.EdgeTraversal
import StackFlow.Proofs.LoopBodies
import StackFlow.Proofs.MergeNodes

/-!
# Repeated edges make no difference

A graph keeps a repeated edge among the successors of its source. `repetition_unseen` says that no
search shows it. The paths from a block depend on which edges there are, and neither on their order
nor on how often each was added, so the same holds of what is read off the paths. Loops and
traversals are found in the order of the successors. For them an edge is added again, which puts its
target behind all successors of its source once more.

By then the edge was explored. A depth-first walk takes one step more, which finds the target on the
walk or explored, and the edge listed if the target is on the walk: the two walks differ in their
events only (`LoopWalk.same_run`). A traversal has followed the edge and passes over it
(`Graph.traverse_addEdge_again`).
-/

namespace StackFlow

/-! ## Graphs with the same edges -/

namespace Graph

variable {g g' : Graph} {s n : BlockId} {p : Path}

/-- Whatever order or repetition they are kept with, the edges are the same. -/
def SameEdges (g g' : Graph) : Prop := ∀ u v, g.Adj u v ↔ g'.Adj u v

/-- The same edges, as relations. -/
theorem SameEdges.adj_eq (h : g.SameEdges g') : g.Adj = g'.Adj := by
  funext u v
  exact propext (h u v)

/-- The same edges reach the same blocks. -/
theorem SameEdges.reach_eq (h : g.SameEdges g') : g.Reach = g'.Reach := by
  unfold Reach
  rw [h.adj_eq]

/-- The same edges make the same walks. -/
theorem SameEdges.isWalk (h : g.SameEdges g') (hp : g.IsWalk s n p) : g'.IsWalk s n p :=
  ⟨hp.head, h.adj_eq ▸ hp.steps, hp.last⟩

/-- It does not matter which of the graphs comes first. -/
theorem SameEdges.symm (h : g.SameEdges g') : g'.SameEdges g := fun u v => (h u v).symm

/-- The same edges make the same paths to leaves. -/
theorem SameEdges.isLeafPath (h : g.SameEdges g') (hp : g.IsLeafPath s p) :
    g'.IsLeafPath s p := by
  obtain ⟨hlength, hnodup, n, hwalk, hleaf⟩ := isLeafPath_iff.1 hp
  refine isLeafPath_iff.2 ⟨hlength, hnodup, n, h.isWalk hwalk, ?_⟩
  rw [List.eq_nil_iff_forall_not_mem] at hleaf ⊢
  exact fun v hv => hleaf v ((h n v).2 hv)

/-- The same edges make the same paths, in whatever order they are found. -/
theorem SameEdges.pathsWith_perm (h : g.SameEdges g') (order order' : CandidateOrder)
    (s : BlockId) : (g.pathsWith order s).Perm (g'.pathsWith order' s) := by
  rw [List.perm_ext_iff_of_nodup (g.nodup_pathsWith order s) (g'.nodup_pathsWith order' s)]
  intro p
  rw [mem_pathsWith, mem_pathsWith]
  exact ⟨h.isLeafPath, h.symm.isLeafPath⟩

/-- The same edges make the same bodies of loops. -/
theorem SameEdges.findBody_eq (h : g.SameEdges g') (hg : g.Linked) (hg' : g'.Linked) :
    Loop.findBody g = Loop.findBody g' := by
  refine findBody_congr (fun u v => ?_) h.reach_eq
  rw [hg.mem_predecessors_iff, h u v, hg'.mem_predecessors_iff]

end Graph

/-! ## What is read off paths -/

namespace Paths

variable {ps qs : Paths}

/-- Collections of the same paths have the same beginnings. -/
theorem arrivals_eq_of_perm (h : ps.Perm qs) : ps.arrivals = qs.arrivals :=
  arrivals_congr (fun _ => h.mem_iff)

end Paths

/-- Collections of the same paths converge at the same block, or not at all. -/
theorem Convergence.node?_conclude_of_perm {ps qs : Paths} (h : ps.Perm qs)
    (hne : ∀ p ∈ ps, p ≠ []) (strict : Bool) (s : BlockId) :
    (conclude strict s ps).map (·.node?) = (conclude strict s qs).map (·.node?) := by
  obtain ⟨c, hc, rfl, hnode⟩ := ofPaths_eq_ok hne
  obtain ⟨c', hc', rfl, hnode'⟩ := ofPaths_eq_ok (fun q hq => hne q (h.mem_iff.2 hq))
  have hempty : c.paths.isEmpty = c'.paths.isEmpty := h.isEmpty_eq
  have heq : c.node? = c'.node? := by
    refine Option.ext (fun x => ?_)
    rw [hnode, hnode', ne_eq, ne_eq, ← List.isEmpty_iff, ← List.isEmpty_iff, hempty]
    simp only [h.mem_iff]
  unfold conclude
  rw [hc, hc']
  dsimp only
  rw [hempty]
  by_cases hstrict : (strict && c'.paths.isEmpty) = true
  · rw [if_pos hstrict, if_pos hstrict]
  · rw [if_neg hstrict, if_neg hstrict]
    exact congrArg Except.ok heq

/-! ## Adding an edge again -/

namespace Graph

variable {g : Graph} {u v : BlockId}

/-- An edge that is added again makes no new one. -/
theorem sameEdges_addEdge_again (huv : g.Adj u v) : (g.addEdge u v).SameEdges g := by
  intro a b
  rw [adj_addEdge]
  refine or_iff_left_of_imp ?_
  rintro ⟨rfl, rfl⟩
  exact huv

/-- The predecessors know of the edge already. -/
theorem predecessors_addEdge_again (hg : g.Linked) (huv : g.Adj u v) :
    (g.addEdge u v).predecessors = g.predecessors := by
  funext n
  rw [predecessors_addEdge]
  by_cases hn : n = v
  · rw [if_pos hn, hn, appendNew, if_pos ((hg.mem_predecessors_iff u v).2 huv)]
  · rw [if_neg hn]

/-- What stood at a position of the successors still stands there. -/
theorem getElem?_successors_addEdge {n t : BlockId} {i : Nat}
    (ht : (g.successors n)[i]? = some t) : ((g.addEdge u v).successors n)[i]? = some t := by
  rw [successors_addEdge]
  by_cases hn : n = u
  · rw [if_pos hn, ← hn, List.getElem?_append_left (List.getElem?_eq_some_iff.1 ht).1]
    exact ht
  · rw [if_neg hn]
    exact ht

/-- Behind the successors of a block is nothing, or the target of the added edge and then nothing.
-/
theorem getElem?_successors_addEdge_end {n : BlockId} {i : Nat}
    (ht : (g.successors n)[i]? = none) :
    ((g.addEdge u v).successors n)[i]? = none ∨
      n = u ∧ ((g.addEdge u v).successors n)[i]? = some v ∧
        ((g.addEdge u v).successors n)[i + 1]? = none := by
  rw [successors_addEdge]
  by_cases hn : n = u
  · have hlength : (g.successors u).length ≤ i := hn ▸ List.getElem?_eq_none_iff.1 ht
    rw [if_pos hn, List.getElem?_append_right hlength, List.getElem?_append_right (by omega)]
    rcases Nat.eq_or_lt_of_le hlength with heq | hlt
    · refine .inr ⟨hn, ?_, ?_⟩
      · rw [heq, Nat.sub_self]
        rfl
      · rw [heq, Nat.add_sub_cancel_left]
        rfl
    · refine .inl (List.getElem?_eq_none ?_)
      rw [List.length_singleton]
      omega
  · rw [if_neg hn]
    exact .inl ht

end Graph

namespace LoopWalk

/-- Two walks that differ in their events at most. -/
structure Same (w w' : LoopWalk) : Prop where
  /-- They know the same of the loops. -/
  detector_eq : w.detector = w'.detector
  /-- They have the same blocks on them. -/
  frames_eq : w.frames = w'.frames
  /-- They found the same back edges. -/
  found_eq : w.found = w'.found

variable {g : Graph} {u v : BlockId} {starts : List BlockId} {w w' : LoopWalk} {f : WalkFrame}
  {rest : List WalkFrame}

/-- A walk is the same as itself. -/
theorem Same.refl (w : LoopWalk) : w.Same w := ⟨rfl, rfl, rfl⟩

/-- A block is marked on both walks. -/
theorem Same.mark (h : w.Same w') (n : BlockId) (p : Progress) (frames : List WalkFrame)
    (events events' : List WalkEvent) :
    Same { w.mark n p with frames := frames, events := events }
      { w'.mark n p with frames := frames, events := events' } := by
  refine ⟨?_, rfl, h.found_eq⟩
  unfold LoopWalk.mark
  rw [h.detector_eq]

/-- A back edge is noted on both walks. -/
theorem Same.note (h : w.Same w') (e : Edge) (frames : List WalkFrame) :
    Same { w.noteBackEdge e with frames := frames }
      { w'.noteBackEdge e with frames := frames } := by
  obtain ⟨hdetector, -, hfound⟩ := h
  unfold noteBackEdge
  dsimp only
  rw [hdetector, hfound]
  split
  · exact ⟨rfl, rfl, rfl⟩
  · exact ⟨rfl, rfl, rfl⟩

/-- An edge that the walk noted before is not noted again. -/
theorem Same.note_again {e : Edge} (h : w.Same w') (he : e ∈ w'.found) (frames : List WalkFrame) :
    Same { w with frames := frames } { w'.noteBackEdge e with frames := frames } := by
  unfold noteBackEdge
  dsimp only
  rw [if_pos he]
  exact ⟨h.detector_eq, rfl, h.found_eq⟩

/-- A walk steps over an edge that it has explored before: the target was met, and if it is on the
walk, the edge was noted. -/
theorem exists_run_eq_of_again (h : w.Invariant g starts) (hsame : w.Same w')
    (hf : w.frames = f :: rest) (hagain : v ∈ (g.successors f.node).take f.next) {g' : Graph}
    (ht : (g'.successors f.node)[f.next]? = some v) :
    ∃ w'', run g' w' = run g' w'' ∧
      Same { w with frames := { f with next := f.next + 1 } :: rest } w'' := by
  have hsettled : w.detector.Settled f.node v := h.settled f (by rw [hf]; rfl) v hagain
  have hmet := h.met_of_settled hsettled
  rw [run_eq, ← hsame.frames_eq, hf]
  dsimp only
  rw [ht]
  dsimp only
  rw [← hsame.detector_eq]
  rcases hmet.active_or_done with hactive | hdone
  · -- the target is not explored, so the edge is a back edge, and one of this walk
    have hlisted := hsettled.resolve_right hactive.not_done
    have hfound := (h.found_or_done _ hlisted).resolve_right (h.active hf).not_done
    rw [hactive]
    exact ⟨_, rfl, hsame.note_again (hsame.found_eq ▸ hfound) _⟩
  · rw [hdone]
    exact ⟨_, rfl, rfl, rfl, hsame.found_eq⟩

/-- In the graph with an edge added again a walk takes the same course, but for the events. -/
theorem same_run (huv : g.Adj u v) (h : w.Invariant g starts) :
    ∀ w', w.Same w' → (run g w).Same (run (g.addEdge u v) w') := by
  -- the two walks take step for step together; the second one may have one edge more to pass
  fun_induction run g w with
  | case1 w hf =>
    -- there is nothing left on either walk
    intro w' hsame
    rw [run_eq, ← hsame.frames_eq, hf]
    exact hsame
  | case2 w f rest hf ht ih =>
    intro w' hsame
    have hfinish := h.finish hf ht
    -- the edges of the block are at their end, and with the edge added again they may not be
    rcases Graph.getElem?_successors_addEdge_end (u := u) (v := v) ht with hnone | ⟨rfl, hv, hnone⟩
    · rw [run_eq (g.addEdge u v), ← hsame.frames_eq, hf]
      dsimp only
      rw [hnone]
      exact ih hfinish _ (hsame.mark f.node .done rest _ _)
    · -- one step more, over the edge that was added again
      have hagain : v ∈ (g.successors f.node).take f.next := by
        rw [List.take_of_length_le (List.getElem?_eq_none_iff.1 ht)]
        exact huv
      obtain ⟨w'', hrun, hsame'⟩ := exists_run_eq_of_again h hsame hf hagain hv
      rw [hrun, run_eq (g.addEdge f.node v), ← hsame'.frames_eq]
      dsimp only
      rw [hnone]
      exact ih hfinish _ (hsame'.mark f.node .done rest _ _)
  | case3 w f rest hf t ht frames hp ih =>
    -- the next block was not met, so that both walks enter it
    intro w' hsame
    rw [run_eq (g.addEdge u v), ← hsame.frames_eq, hf]
    dsimp only
    rw [Graph.getElem?_successors_addEdge ht]
    dsimp only
    rw [← hsame.detector_eq, hp]
    exact ih (h.enter hf ht (fun hm => hm hp) _) _ (hsame.mark t .active _ _ _)
  | case4 w f rest hf t ht frames hp ih =>
    -- the next block is on the walk, so that both note a back edge
    intro w' hsame
    have hnoted := h.note hf (List.mem_of_getElem? ht) hp
    have hlisted : Edge.mk f.node t ∈ (w.noteBackEdge ⟨f.node, t⟩).detector.backEdges :=
      hnoted.listed _ (mem_found_noteBackEdge.2 (.inr rfl))
    rw [run_eq (g.addEdge u v), ← hsame.frames_eq, hf]
    dsimp only
    rw [Graph.getElem?_successors_addEdge ht]
    dsimp only
    rw [← hsame.detector_eq, hp]
    exact ih (hnoted.advance ((frames_noteBackEdge w _).trans hf) ht (.inl hlisted)) _
      (hsame.note ⟨f.node, t⟩ frames)
  | case5 w f rest hf t ht frames hp ih =>
    -- the next block is done, so that both pass the edge
    intro w' hsame
    rw [run_eq (g.addEdge u v), ← hsame.frames_eq, hf]
    dsimp only
    rw [Graph.getElem?_successors_addEdge ht]
    dsimp only
    rw [← hsame.detector_eq, hp]
    exact ih (h.advance hf ht (.inr hp)) _ ⟨rfl, rfl, hsame.found_eq⟩

end LoopWalk

/-- A detector at rest finds the same in the graph with an edge added again. -/
theorem LoopDetector.AtRest.detect_addEdge_again {g : Graph} {u v : BlockId} {starts : List BlockId}
    {d : LoopDetector} (h : d.AtRest g starts) (hg : g.Linked) (huv : g.Adj u v) (s : BlockId) :
    (d.detect (g.addEdge u v) s).found = (d.detect g s).found ∧
      (d.detect (g.addEdge u v) s).detector = (d.detect g s).detector := by
  have hbody : Loop.findBody (g.addEdge u v) = Loop.findBody g :=
    (Graph.sameEdges_addEdge_again huv).findBody_eq (hg.addEdge u v) hg
  unfold LoopDetector.detect
  by_cases hs : d.progress.contains s
  · rw [if_pos hs, if_pos hs]
    exact ⟨rfl, rfl⟩
  · have hunmet : ¬ d.Met s := fun hm => hs (Option.isSome_iff_ne_none.2 hm)
    have hsame := LoopWalk.same_run huv (LoopWalk.invariant_start h hunmet) _ (.refl _)
    rw [if_neg hs, if_neg hs]
    dsimp only
    rw [hbody, ← hsame.found_eq, ← hsame.detector_eq]
    exact ⟨rfl, rfl⟩

namespace Traversal

variable {g : Graph} {u v : BlockId}

/-- Following edges notes what is noted of the predecessors, and nothing else of the graph. -/
theorem follow_addEdge_again (hg : g.Linked) (huv : g.Adj u v) :
    follow (g.addEdge u v) = follow g := by
  funext source t target
  have hadvance : t.visits.advance (g.addEdge u v) source target =
      t.visits.advance g source target := by
    unfold Visits.advance Visits.enterWith Visits.unfollowed
    rw [Graph.predecessors_addEdge_again hg huv]
  unfold follow
  rw [hadvance]

/-- An edge that was followed stays followed. -/
theorem followed_foldl_follow {ts : List BlockId} {t : Traversal} (hv : v ∈ ts) :
    (ts.foldl (follow g u) t).visits.followed u v = true := by
  have hgrows : ∀ (ts : List BlockId) (t : Traversal), t.Grows (ts.foldl (follow g u) t) := by
    intro ts
    induction ts with
    | nil => exact fun t => .refl t
    | cons a ts ih => exact fun t => (grows_follow g t u a).trans (ih _)
  induction ts generalizing t with
  | nil => exact absurd hv List.not_mem_nil
  | cons a ts ih =>
    rw [List.foldl_cons]
    rcases List.mem_cons.1 hv with rfl | hv
    · exact (hgrows ts _).followed u v followed_follow
    · exact ih hv

/-- The edges of a block are followed as before, since its last one was followed already. -/
theorem foldl_follow_addEdge_again (hg : g.Linked) (huv : g.Adj u v) (n : BlockId)
    (t : Traversal) :
    ((g.addEdge u v).successors n).foldl (follow (g.addEdge u v) n) t =
      (g.successors n).foldl (follow g n) t := by
  rw [follow_addEdge_again hg huv, Graph.successors_addEdge]
  by_cases hn : n = u
  · rw [if_pos hn, hn, List.foldl_append]
    exact follow_of_followed (followed_foldl_follow huv)
  · rw [if_neg hn]

/-- An edge that is added again is not followed again. -/
theorem run_addEdge_again (hg : g.Linked) (huv : g.Adj u v) (t : Traversal) :
    run (g.addEdge u v) t = run g t := by
  fun_induction run g t with
  | case1 t hqueue =>
    rw [run]
    split
    next => rfl
    next n rest hq => exact absurd (hq.symm.trans hqueue) (List.cons_ne_nil _ _)
  | case2 t n rest hqueue ih =>
    rw [run]
    split
    next hq => exact absurd (hqueue.symm.trans hq) (List.cons_ne_nil _ _)
    next m rest' hq =>
      obtain ⟨rfl, rfl⟩ := List.cons.inj (hq.symm.trans hqueue)
      rw [foldl_follow_addEdge_again hg huv]
      exact ih

end Traversal

/-- A traversal does not change if an edge is added again. -/
theorem Graph.traverse_addEdge_again {g : Graph} {u v : BlockId} (hg : g.Linked)
    (huv : g.Adj u v) (s : BlockId) : (g.addEdge u v).traverse s = g.traverse s := by
  have henter : Visits.empty.enter (g.addEdge u v) s = Visits.empty.enter g s := by
    unfold Visits.enter Visits.enterWith Visits.unfollowed
    rw [predecessors_addEdge_again hg huv]
  unfold traverse
  rw [henter, Traversal.run_addEdge_again hg huv]

/-! ## The searches of a graph -/

namespace Graph

/-- Graphs of the same edges, added in any order and any number of times, have the same paths from
each block, whatever the order of candidates. Their paths converge at the same block, strictly or
not, and meet at the same blocks after the same beginnings. If an edge of a built graph is added
again, a new detector finds the same back edges and loops from each block, and a traversal follows
the same edges in the same order. -/
theorem repetition_unseen :
    (∀ es es' : List Edge, (∀ e, e ∈ es ↔ e ∈ es') →
      ∀ (order order' : CandidateOrder) (s : BlockId),
        ((ofEdges es).pathsWith order s).same ((ofEdges es').pathsWith order' s) = true ∧
        (∃ node?, ((ofEdges es).convergenceWith order false s).map (·.node?) = .ok node? ∧
          ((ofEdges es').convergenceWith order' false s).map (·.node?) = .ok node?) ∧
        ((ofEdges es).convergenceWith order true s).map (·.node?) =
          ((ofEdges es').convergenceWith order' true s).map (·.node?) ∧
        ((ofEdges es).pathsWith order s).mergeNodes =
          ((ofEdges es').pathsWith order' s).mergeNodes ∧
        ∀ n, ((ofEdges es).pathsWith order s).pathsTo n =
          ((ofEdges es').pathsWith order' s).pathsTo n) ∧
    (∀ g : Graph, g.Built → ∀ u v, v ∈ g.successors u → ∀ s,
      (LoopDetector.empty.detect (g.addEdge u v) s).found =
        (LoopDetector.empty.detect g s).found ∧
      (LoopDetector.empty.detect (g.addEdge u v) s).detector.allLoops =
        (LoopDetector.empty.detect g s).detector.allLoops ∧
      ((g.addEdge u v).traverse s).edges = (g.traverse s).edges) := by
  refine ⟨fun es es' h order order' s => ?_, fun g hg u v huv s => ?_⟩
  · have hedges : (ofEdges es).SameEdges (ofEdges es') := by
      intro u v
      rw [adj_ofEdges, adj_ofEdges]
      exact h ⟨u, v⟩
    have hperm := hedges.pathsWith_perm order order' s
    have hne : ∀ p ∈ (ofEdges es).pathsWith order s, p ≠ [] :=
      fun p hp => ne_nil_of_mem_pathsWith hp
    have hconverge := Convergence.node?_conclude_of_perm hperm hne
    have harrivals := Paths.arrivals_eq_of_perm hperm
    refine ⟨?_, ?_, hconverge true s, ?_, fun n => ?_⟩
    · unfold Paths.same
      rw [Paths.sorted_eq_of_perm hperm]
      exact beq_self_eq_true _
    · obtain ⟨c, hc, -⟩ := Convergence.conclude_eq_ok hne s
      have hok : ((ofEdges es).convergenceWith order false s).map (·.node?) = .ok c.node? :=
        congrArg (Except.map (·.node?)) hc
      exact ⟨c.node?, hok, (hconverge false s).symm.trans hok⟩
    · unfold Paths.mergeNodes
      rw [harrivals]
    · unfold Paths.pathsTo
      rw [harrivals]
  · have hlinked := hg.linked
    obtain ⟨hfound, hdetector⟩ :=
      (LoopDetector.atRest_empty g).detect_addEdge_again hlinked huv s
    exact ⟨hfound, congrArg LoopDetector.allLoops hdetector,
      congrArg Traversal.edges (traverse_addEdge_again hlinked huv s)⟩

/-- A loop with a way out of each of its two blocks. -/
def loopWithExits : List Edge := [⟨0, 1⟩, ⟨1, 2⟩, ⟨2, 1⟩, ⟨1, 3⟩, ⟨2, 3⟩]

/-- The edges backwards, one of them twice, make the same merge. The back edge added again, which is
an edge into a block on the walk both times, is found once. -/
theorem repetition_unseen_loopWithExits :
    (∀ e, e ∈ loopWithExits ↔ e ∈ ⟨2, 3⟩ :: loopWithExits.reverse) ∧
      ((ofEdges loopWithExits).paths 0).mergeNodes = [3] ∧
      ((ofEdges (⟨2, 3⟩ :: loopWithExits.reverse)).paths 0).mergeNodes = [3] ∧
      1 ∈ (ofEdges loopWithExits).successors 2 ∧
      (LoopDetector.empty.detect ((ofEdges loopWithExits).addEdge 2 1) 0).found = [⟨2, 1⟩] := by
  have hmem : ∀ e, e ∈ loopWithExits ↔ e ∈ ⟨2, 3⟩ :: loopWithExits.reverse := by
    intro e
    rw [List.mem_cons, List.mem_reverse]
    refine (or_iff_right_of_imp ?_).symm
    rintro rfl
    decide
  have hmerge : ((ofEdges loopWithExits).paths 0).mergeNodes = [3] := by cbv
  have hfound : (LoopDetector.empty.detect (ofEdges loopWithExits) 0).found = [⟨2, 1⟩] := by cbv
  have hsucc : 1 ∈ (ofEdges loopWithExits).successors 2 := by decide
  obtain ⟨hpaths, hagain⟩ := repetition_unseen
  obtain ⟨-, -, -, hsame, -⟩ := hpaths loopWithExits _ hmem .insertion .insertion 0
  obtain ⟨hsame', -, -⟩ := hagain _ (built_ofEdges loopWithExits) 2 1 hsucc 0
  exact ⟨hmem, hmerge, hsame.symm.trans hmerge, hsucc, hsame'.trans hfound⟩

end Graph

end StackFlow
