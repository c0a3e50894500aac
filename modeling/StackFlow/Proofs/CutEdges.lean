import Mathlib.Data.List.Permutation
import StackFlow.Proofs.BackEdges
import StackFlow.Proofs.ReachableLeaves

/-!
# Back edges that paths do not take

A back edge leads from the last block of a depth-first walk to a block on that walk. The blocks of
the walk are an open path of the search for leaves, and there the edge is cut: its target is no
candidate. Another path may come to the source of the edge without passing the target, though, and
take the edge (`twoEntrances_takes_backEdge`). So no path takes a back edge whose target lies on
every walk to its source (`dominated_backEdge_not_taken`), which is so for the loops with one
entrance.
-/

namespace StackFlow

/-- Every walk from `s` to `n` passes `d`. -/
def Graph.Dominates (g : Graph) (s d n : BlockId) : Prop := ∀ p, g.IsWalk s n p → d ∈ p

/-- The ends of an edge are next to each other on a path. -/
def Path.Takes (p : Path) (e : Edge) : Prop := [e.source, e.target] <:+: p

/-- An edge leads back onto a walk from `s` without repetition that ends at its source. -/
def Graph.ClosesWalk (g : Graph) (s : BlockId) (e : Edge) : Prop :=
  g.Adj e.source e.target ∧ ∃ p, g.IsWalk s e.source p ∧ p.Nodup ∧ e.target ∈ p

/-- A block is on every walk to another if all edges into that come from it. -/
theorem Graph.dominates_of_adj {g : Graph} {s d n : BlockId} (hne : s ≠ n)
    (h : ∀ m, g.Adj m n → m = d) : g.Dominates s d n := by
  intro p hp
  obtain ⟨before, hbefore⟩ := List.getLast?_eq_some_iff.1 hp.last
  subst hbefore
  cases hlast : before.getLast? with
  | none =>
    rw [List.getLast?_eq_none_iff.1 hlast] at hp
    exact absurd (Option.some.inj hp.head).symm hne
  | some m =>
    have hadj := (List.isChain_append.1 hp.steps).2.2 m hlast n rfl
    exact List.mem_append_left _ (h m hadj ▸ List.mem_of_getLast? hlast)

/-- A path without repetition that takes an edge comes to its source without passing its target. -/
theorem Graph.IsLeafPath.not_dominates {g : Graph} {s : BlockId} {p : Path} {e : Edge}
    (hp : g.IsLeafPath s p) (htakes : p.Takes e) : ¬ g.Dominates s e.target e.source := by
  obtain ⟨before, after, rfl⟩ := htakes
  obtain ⟨-, hnodup, n, hwalk, -⟩ := isLeafPath_iff.1 hp
  have hprefix : before ++ [e.source] <+: before ++ [e.source, e.target] ++ after :=
    ⟨e.target :: after, by simp⟩
  intro hdominates
  -- the target would be on the path twice
  have hbefore := hdominates _ (hwalk.of_prefix hprefix List.getLast?_concat)
  have hsplit : before ++ [e.source, e.target] ++ after =
      (before ++ [e.source]) ++ e.target :: after := by simp
  rw [hsplit] at hnodup
  exact (List.nodup_append.1 hnodup).2.2 _ hbefore _ List.mem_cons_self rfl

namespace LoopWalk

variable {g : Graph} {starts : List BlockId} {s t : BlockId} {w : LoopWalk} {f : WalkFrame}
  {rest : List WalkFrame}

/-- The blocks on a walk, the first one first. -/
def nodes (fs : List WalkFrame) : Path := (fs.map (·.node)).reverse

/-- The top frame is the last block of the walk. -/
theorem nodes_cons (f : WalkFrame) (rest : List WalkFrame) :
    nodes (f :: rest) = nodes rest ++ [f.node] := by
  rw [nodes, List.map_cons, List.reverse_cons, nodes]

/-- What holds at each point of a walk from `s`: its blocks are a walk, and what it found closes
such a walk. -/
structure StartsAt (g : Graph) (s : BlockId) (w : LoopWalk) : Prop where
  /-- The blocks of the frames lead from the start to the last frame. -/
  isWalk : ∀ f ∈ w.frames.head?, g.IsWalk s f.node (nodes w.frames)
  /-- The edges found so far each close a walk. -/
  closes : ∀ e ∈ w.found, g.ClosesWalk s e

namespace StartsAt

/-- Going back from a block keeps the start of the walk. -/
theorem finish (h : w.StartsAt g s) (hf : w.frames = f :: rest) :
    StartsAt g s { w.mark f.node .done with frames := rest } := by
  refine ⟨fun e he => ?_, h.closes⟩
  have hwalk := h.isWalk f (by rw [hf]; rfl)
  rw [hf, nodes_cons] at hwalk
  cases rest with
  | nil => cases he
  | cons b rest =>
    obtain rfl : b = e := Option.some.inj he
    refine hwalk.of_prefix (List.prefix_append _ _) ?_
    rw [nodes_cons]
    exact List.getLast?_concat

/-- Entering a block keeps the start of the walk. -/
theorem enter (h : w.StartsAt g s) (hf : w.frames = f :: rest) (hadj : g.Adj f.node t)
    (events : List WalkEvent) :
    StartsAt g s { w.mark t .active with
      frames := ⟨t, 0⟩ :: { f with next := f.next + 1 } :: rest, events := events } := by
  refine ⟨fun e he => ?_, h.closes⟩
  obtain rfl : ⟨t, 0⟩ = e := Option.some.inj he
  have hwalk := h.isWalk f (by rw [hf]; rfl)
  rw [hf, nodes_cons] at hwalk
  rw [nodes_cons, nodes_cons]
  exact hwalk.concat hadj

/-- Passing an edge keeps the start of the walk. -/
theorem advance (h : w.StartsAt g s) (hf : w.frames = f :: rest) :
    StartsAt g s { w with frames := { f with next := f.next + 1 } :: rest } := by
  refine ⟨fun e he => ?_, h.closes⟩
  obtain rfl : { f with next := f.next + 1 } = e := Option.some.inj he
  have hwalk := h.isWalk f (by rw [hf]; rfl)
  rw [hf, nodes_cons] at hwalk
  rw [nodes_cons]
  exact hwalk

/-- An edge into a block on the walk closes the walk. -/
theorem note (h : w.StartsAt g s) (hinv : w.Invariant g starts) (hf : w.frames = f :: rest)
    (hadj : g.Adj f.node t) (hactive : w.detector.Active t) :
    StartsAt g s (w.noteBackEdge ⟨f.node, t⟩) := by
  constructor
  case isWalk =>
    rw [frames_noteBackEdge]
    exact h.isWalk
  case closes =>
    intro e he
    rcases mem_found_noteBackEdge.1 he with he | rfl
    · exact h.closes e he
    · exact ⟨hadj, nodes w.frames, h.isWalk f (by rw [hf]; rfl),
        List.nodup_reverse.2 hinv.nodupNodes,
        List.mem_reverse.2 ((hinv.active_iff t).1 hactive)⟩

end StartsAt

/-- A walk keeps its start to the end. -/
theorem startsAt_run (h : w.StartsAt g s) (hinv : w.Invariant g starts) :
    (run g w).StartsAt g s := by
  fun_induction run g w with
  | case1 w hf => exact h
  | case2 w f rest hf ht ih => exact ih (h.finish hf) (hinv.finish hf ht)
  | case3 w f rest hf t ht frames hp ih =>
    exact ih (h.enter hf (List.mem_of_getElem? ht) _) (hinv.enter hf ht (fun hm => hm hp) _)
  | case4 w f rest hf t ht frames hp ih =>
    have hframes := (frames_noteBackEdge w ⟨f.node, t⟩).trans hf
    have hadj : g.Adj f.node t := List.mem_of_getElem? ht
    have hnoted := hinv.note hf hadj hp
    have hlisted := hnoted.listed _ (mem_found_noteBackEdge.2 (.inr rfl))
    exact ih ((h.note hinv hf hadj hp).advance hframes) (hnoted.advance hframes ht (.inl hlisted))
  | case5 w f rest hf t ht frames hp ih => exact ih (h.advance hf) (hinv.advance hf ht (.inr hp))

end LoopWalk

namespace LoopDetector

/-- The edges that a new detector finds from a start close walks from there. -/
theorem closesWalk_of_mem_found {g : Graph} {s : BlockId} {e : Edge}
    (he : e ∈ (empty.detect g s).found) : g.ClosesWalk s e := by
  have hunmet : ¬ empty.Met s := fun hm => hm (SortedMap.get?_empty s)
  have hstart : LoopWalk.StartsAt g s
      ({ detector := empty, frames := [⟨s, 0⟩], found := [], events := [] : LoopWalk }.mark s
        .active) := by
    refine ⟨fun f hf => ?_, fun e he => absurd he List.not_mem_nil⟩
    obtain rfl : ⟨s, 0⟩ = f := Option.some.inj hf
    exact g.isWalk_singleton s
  have hinv := LoopWalk.invariant_start (atRest_empty g) hunmet
  exact (LoopWalk.startsAt_run hstart hinv).closes e he

/-- A back edge that a new detector finds is cut where it was found: an open path without repetition
leads to its source, and its target is no candidate there. No path takes the edge if every walk to
its source passes its target. -/
theorem dominated_backEdge_not_taken (g : Graph) (order : CandidateOrder) (s : BlockId) (e : Edge)
    (he : e ∈ (empty.detect g s).found) :
    (∃ q, g.IsWalk s e.source q ∧ q.Nodup ∧ e.target ∈ g.successors e.source ∧
      e.target ∉ OpenPath.candidates g ⟨e.source, q⟩) ∧
    (g.Dominates s e.target e.source → ∀ p ∈ g.pathsWith order s, ¬ p.Takes e) := by
  constructor
  · obtain ⟨hadj, q, hwalk, hnodup, htarget⟩ := closesWalk_of_mem_found he
    exact ⟨q, hwalk, hnodup, hadj, fun hmem => (OpenPath.mem_candidates.1 hmem).2 htarget⟩
  · intro hdominates p hp htakes
    exact (Graph.mem_pathsWith.1 hp).not_dominates htakes hdominates

/-- Block 0 leads into a loop of blocks 1 and 2 at both of them. -/
def twoEntrances : Graph := Graph.ofEdges [⟨0, 1⟩, ⟨0, 2⟩, ⟨1, 2⟩, ⟨2, 1⟩, ⟨1, 3⟩]

/-- A path that comes into a loop by its other entrance takes the back edge. -/
theorem twoEntrances_takes_backEdge :
    ⟨2, 1⟩ ∈ (empty.detect twoEntrances 0).found ∧ [0, 2, 1, 3] ∈ twoEntrances.paths 0 ∧
      Path.Takes [0, 2, 1, 3] ⟨2, 1⟩ := by
  have hfound : (empty.detect twoEntrances 0).found = [⟨2, 1⟩] := by cbv
  have hpaths : twoEntrances.paths 0 = [[0, 2, 1, 3], [0, 1, 3]] := by cbv
  rw [hfound, hpaths]
  exact ⟨List.mem_singleton_self _, by decide, [0], [3], rfl⟩

/-- A loop of blocks 1 and 2 that is entered at block 1 only. -/
def oneEntrance : Graph := Graph.ofEdges [⟨0, 1⟩, ⟨1, 2⟩, ⟨2, 1⟩, ⟨1, 3⟩]

/-- No path takes the edge back to the only entrance of the loop, though there is a path through it.
-/
theorem dominated_backEdge_not_taken_oneEntrance :
    ⟨2, 1⟩ ∈ (empty.detect oneEntrance 0).found ∧ oneEntrance.Dominates 0 1 2 ∧
      [0, 1, 3] ∈ oneEntrance.paths 0 ∧ ∀ p ∈ oneEntrance.paths 0, ¬ p.Takes ⟨2, 1⟩ := by
  have hfound : (empty.detect oneEntrance 0).found = [⟨2, 1⟩] := by cbv
  have hpaths : oneEntrance.paths 0 = [[0, 1, 3]] := by cbv
  have hmem : ⟨2, 1⟩ ∈ (empty.detect oneEntrance 0).found := by
    rw [hfound]
    exact List.mem_singleton_self _
  have hdominates : oneEntrance.Dominates 0 1 2 := by
    refine Graph.dominates_of_adj (by decide) (fun m hm => ?_)
    have hedge := Graph.adj_ofEdges.1 hm
    simp only [List.mem_cons, List.not_mem_nil, or_false, Edge.mk.injEq] at hedge
    rcases hedge with ⟨-, h⟩ | ⟨h, -⟩ | ⟨-, h⟩ | ⟨-, h⟩
    · exact absurd h (by decide)
    · exact h
    · exact absurd h (by decide)
    · exact absurd h (by decide)
  obtain ⟨-, huntaken⟩ := dominated_backEdge_not_taken oneEntrance .insertion 0 ⟨2, 1⟩ hmem
  exact ⟨hmem, hdominates, by rw [hpaths]; exact List.mem_singleton_self _, huntaken hdominates⟩

end LoopDetector

end StackFlow
