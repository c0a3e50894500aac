import Mathlib.Logic.Function.Iterate
import StackFlow.Proofs.EdgeTraversal

/-!
# A traversal with a queue of edges

`Graph.traverse` queues blocks and follows all edges of a block at once. The same traversal can keep
the edges themselves in its queue: it follows the oldest edge with `Visits.follow`, which may refuse
it, and queues the edges of a block that is entered for the first time. The edges in the queue are
those of the blocks that `Graph.traverse` has in its queue (`EdgeQueue.ofTraversal`). A step for
each edge of a block is then the same as following the block's edges (`iterate_step_block`), so that
both end with the same record and the same edges (`exists_iterate_step_start`). No edge is ever
refused (`ready_iterate_step`).
-/

namespace StackFlow

/-- The state of a traversal that queues edges. -/
structure EdgeQueue where
  /-- The blocks entered and edges followed. -/
  visits : Visits
  /-- The edges in the order in which they were passed on. -/
  edges : List Edge
  /-- The edges that are still to be followed, oldest first. -/
  queue : List Edge

/-- The edges of a block in the order of its successors. -/
def Graph.edgesFrom (g : Graph) (n : BlockId) : List Edge := (g.successors n).map (Edge.mk n)

namespace EdgeQueue

/-- The edges of the start are queued. -/
def start (g : Graph) (n : BlockId) : EdgeQueue := ⟨Visits.empty.enter g n, [], g.edgesFrom n⟩

/-- Takes the oldest edge from the queue. Unless it was followed before, it is passed on, even if
the record of visits refuses it, and the edges of a block that was not entered before are queued.
Nothing happens if the queue is empty. -/
def step (g : Graph) (s : EdgeQueue) : EdgeQueue :=
  match s.queue with
  | [] => s
  | e :: rest =>
    if s.visits.followed e.source e.target then { s with queue := rest }
    else {
      visits := (s.visits.follow g e.source e.target).toOption.getD s.visits
      edges := s.edges ++ [e]
      queue := if s.visits.entered e.target then rest else rest ++ g.edgesFrom e.target }

/-- A traversal that queues blocks, with their edges in place of the blocks. -/
def ofTraversal (g : Graph) (t : Traversal) : EdgeQueue :=
  ⟨t.visits, t.edges, t.queue.flatMap g.edgesFrom⟩

variable {g : Graph} {u v : BlockId} {t : Traversal}

/-- A step follows the oldest edge as a traversal does that queues blocks. -/
theorem step_edge (hu : t.visits.entered u = true) (es : List Edge) :
    step g ⟨t.visits, t.edges, ⟨u, v⟩ :: es ++ t.queue.flatMap g.edgesFrom⟩ =
      ⟨(t.follow g u v).visits, (t.follow g u v).edges,
        es ++ (t.follow g u v).queue.flatMap g.edgesFrom⟩ := by
  cases hf : t.visits.followed u v with
  | true =>
    rw [Traversal.follow_of_followed hf]
    simp [step, hf]
  | false =>
    have hfollow : t.visits.follow g u v = .ok (t.visits.advance g u v) :=
      Visits.follow_of_entered hu v
    rw [Traversal.follow_of_not_followed hf]
    cases hv : t.visits.entered v <;> simp [step, hf, hfollow, hv, Except.toOption]

/-- Steps over the edges of a block follow them one after the other. -/
theorem iterate_step_block (vs : List BlockId) (hu : t.visits.entered u = true) :
    (step g)^[vs.length] ⟨t.visits, t.edges, vs.map (Edge.mk u) ++ t.queue.flatMap g.edgesFrom⟩ =
      ofTraversal g (vs.foldl (Traversal.follow g u) t) := by
  induction vs generalizing t with
  | nil => rfl
  | cons v vs ih =>
    rw [List.length_cons, Function.iterate_succ_apply, List.map_cons, step_edge hu,
      ih ((Traversal.grows_follow g t u v).entered u hu), List.foldl_cons]

/-- Some steps lead from where a traversal stands to its end. -/
theorem exists_iterate_step_run {start : BlockId} (h : t.Sound g start) :
    ∃ k, (step g)^[k] (ofTraversal g t) = ofTraversal g (t.run g) := by
  fun_induction Traversal.run g t with
  | case1 t hqueue => exact ⟨0, rfl⟩
  | case2 t n rest hqueue ih =>
    obtain ⟨hentered, hrest⟩ := h.pop hqueue
    obtain ⟨hsound, -, -⟩ := hrest.foldl_follow hentered (g.successors n) (fun _ hv => hv)
    obtain ⟨k, hk⟩ := ih hsound
    refine ⟨k + (g.successors n).length, ?_⟩
    rw [Function.iterate_add_apply, ofTraversal, hqueue, List.flatMap_cons, Graph.edgesFrom,
      iterate_step_block (t := { t with queue := rest }) _ hentered, hk]

/-- A traversal that queues edges ends with the record and the edges of one that queues blocks. -/
theorem exists_iterate_step_start (g : Graph) (n : BlockId) :
    ∃ k, (step g)^[k] (start g n) = ⟨(g.traverse n).visits, (g.traverse n).edges, []⟩ := by
  obtain ⟨k, hk⟩ := exists_iterate_step_run (Traversal.sound_start g n)
  have hstart : ofTraversal g ⟨Visits.empty.enter g n, [], [n]⟩ = start g n := by
    simp [ofTraversal, start]
  have hend : ofTraversal g (g.traverse n) = ⟨(g.traverse n).visits, (g.traverse n).edges, []⟩ := by
    rw [ofTraversal, (g.traverse_spec n).2.1, List.flatMap_nil]
  exact ⟨k, by rw [← hstart, hk, ← hend]; rfl⟩

/-- The source of every edge in the queue was entered. -/
def Ready (s : EdgeQueue) : Prop := ∀ e ∈ s.queue, s.visits.entered e.source = true

/-- A step keeps the sources of queued edges entered. -/
theorem Ready.step {s : EdgeQueue} (h : s.Ready) : (s.step g).Ready := by
  obtain ⟨visits, edges, queue⟩ := s
  cases queue with
  | nil => exact h
  | cons e rest =>
    have hsource : visits.entered e.source = true := h e List.mem_cons_self
    have hrest : ∀ e' ∈ rest, visits.entered e'.source = true :=
      fun e' he' => h e' (List.mem_cons_of_mem e he')
    cases hf : visits.followed e.source e.target with
    | true => simpa [EdgeQueue.step, hf, Ready] using hrest
    | false =>
      have hstep : EdgeQueue.step g ⟨visits, edges, e :: rest⟩ =
          ⟨visits.advance g e.source e.target, edges ++ [e],
            if visits.entered e.target then rest else rest ++ g.edgesFrom e.target⟩ := by
        simp [EdgeQueue.step, hf, Visits.follow_of_entered hsource, Except.toOption]
      rw [hstep]
      intro e' he'
      rw [Visits.entered_advance]
      -- an edge that joins the queue begins at the block that is entered now
      have hmem : e' ∈ rest ∨ e' ∈ g.edgesFrom e.target := by
        dsimp only at he'
        split at he'
        · exact .inl he'
        · exact List.mem_append.1 he'
      rcases hmem with hmem | hmem
      · exact .inl (hrest e' hmem)
      · obtain ⟨v, -, rfl⟩ := List.mem_map.1 hmem
        exact .inr rfl

/-- No edge is refused: at each point the source of every queued edge was entered. -/
theorem ready_iterate_step (g : Graph) (n : BlockId) (k : Nat) :
    ((step g)^[k] (start g n)).Ready := by
  induction k with
  | zero =>
    intro e he
    obtain ⟨v, -, rfl⟩ := List.mem_map.1 he
    exact Visits.entered_enter.2 (.inr rfl)
  | succ k ih =>
    rw [Function.iterate_succ_apply']
    exact ih.step

end EdgeQueue

end StackFlow
