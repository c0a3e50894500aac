import StackFlow.Graph

/-!
# Visits

A record of which edges an analysis has followed. A block is entered either on its own or through
an edge from a block entered before. On first entry the block's incoming edges are noted as not
followed, and the block counts as fully visited once all of them are followed.
-/

namespace StackFlow

/-- The blocks entered so far and the edges followed into them. -/
structure Visits where
  /-- The blocks in the order in which they were entered. -/
  trace : List BlockId
  /-- For each block entered, its incoming edges by source, and whether each was followed. -/
  incoming : SortedMap BlockId (SortedMap BlockId Bool)

/-- Why an edge cannot be followed. -/
inductive VisitError where
  /-- The edge's source was never entered. -/
  | notVisited
  deriving DecidableEq

/-- The text of a refused visit. -/
def VisitError.message : VisitError → String
  | .notVisited => "visitgraph: node not visited"

namespace Visits

/-- No block entered. -/
def empty : Visits := ⟨[], .empty⟩

/-- Whether a block was entered at least once. -/
def entered (v : Visits) (n : BlockId) : Bool := v.incoming.contains n

/-- Whether an edge was followed. -/
def followed (v : Visits) (source target : BlockId) : Bool :=
  match v.incoming.get? target with
  | none => false
  | some sources => (sources.get? source).getD false

/-- The incoming edges of a block, none of them followed. -/
def unfollowed (g : Graph) (n : BlockId) : SortedMap BlockId Bool :=
  (g.predecessors n).foldl (fun m p => m.insert p false) .empty

/-- Enters a block, after `note` on its incoming edges. -/
def enterWith (g : Graph) (v : Visits) (n : BlockId)
    (note : SortedMap BlockId Bool → SortedMap BlockId Bool) : Visits where
  trace := v.trace ++ [n]
  incoming := v.incoming.upsert n (fun sources => note (sources.getD (unfollowed g n)))

/-- Enters a block on its own. -/
def enter (g : Graph) (v : Visits) (n : BlockId) : Visits := v.enterWith g n id

/-- Enters a block through an edge, whether or not the source was entered. -/
def advance (g : Graph) (v : Visits) (source target : BlockId) : Visits :=
  v.enterWith g target (·.insert source true)

/-- Enters a block through an edge from a block entered before. -/
def follow (g : Graph) (v : Visits) (source target : BlockId) : Except VisitError Visits :=
  if v.entered source then .ok (v.advance g source target) else .error .notVisited

/-- The block entered last. -/
def last? (v : Visits) : Option BlockId := v.trace.getLast?

/-- Whether a block was entered and all its incoming edges were followed. -/
def visited (v : Visits) (n : BlockId) : Bool :=
  match v.incoming.get? n with
  | none => false
  | some sources => sources.values.all id

/-- The predecessors of a block whose edge into it was not followed. -/
def unvisited (g : Graph) (v : Visits) (n : BlockId) : List BlockId :=
  (g.predecessors n).filter (fun p => !v.followed p n)

/-- The trace as text. -/
def text (v : Visits) : String := arrows v.trace

/-- Entering a block keeps the blocks entered and adds that block. -/
theorem entered_enterWith (g : Graph) (v : Visits) (n m : BlockId)
    (note : SortedMap BlockId Bool → SortedMap BlockId Bool) :
    (v.enterWith g n note).entered m = (decide (m = n) || v.entered m) := by
  by_cases h : m = n <;> simp [entered, enterWith, SortedMap.contains, SortedMap.get?_upsert, h]

end Visits

/-- The state of a traversal: what was visited, the edges in the order in which they were
followed, and the blocks whose own edges come next. -/
structure Traversal where
  /-- The blocks entered and edges followed. -/
  visits : Visits
  /-- The edges in the order in which they were followed. -/
  edges : List Edge
  /-- Entered blocks whose edges are still to be followed, oldest first. -/
  queue : List BlockId

namespace Traversal

/-- Follows one edge, unless it was followed before; a block entered for the first time joins the
queue. -/
def follow (g : Graph) (source : BlockId) (t : Traversal) (target : BlockId) : Traversal :=
  if t.visits.followed source target then t
  else {
    visits := t.visits.advance g source target
    edges := t.edges ++ [⟨source, target⟩]
    queue := if t.visits.entered target then t.queue else t.queue ++ [target] }

/-- How many edge targets of the graph were not entered. -/
def pending (g : Graph) (t : Traversal) : Nat := g.targets.countP (fun n => !t.visits.entered n)

/-- Following an edge either enters a new block or leaves the queue as it is. -/
theorem pending_follow (g : Graph) (source target : BlockId) (t : Traversal)
    (ht : target ∈ g.targets) :
    (t.follow g source target).pending g < t.pending g ∨
      (t.follow g source target).pending g = t.pending g ∧
        (t.follow g source target).queue = t.queue := by
  unfold follow
  split
  · exact .inr ⟨rfl, rfl⟩
  · by_cases he : t.visits.entered target = true
    · refine .inr ⟨?_, by simp [he]⟩
      unfold pending
      congr 1
      funext n
      by_cases hn : n = target <;>
        simp [Visits.advance, Visits.entered_enterWith, hn, he]
    · refine .inl ?_
      unfold pending
      refine countP_lt_countP (a := target) (fun n _ h => ?_) ht (by simp [he]) ?_
      · simp only [Visits.advance, Visits.entered_enterWith] at h
        simp_all
      · simp [Visits.advance, Visits.entered_enterWith]

/-- Following a block's edges either enters a new block or leaves the queue as it is. -/
theorem pending_foldl_follow (g : Graph) (source : BlockId) (ts : List BlockId) (t : Traversal)
    (hts : ∀ n ∈ ts, n ∈ g.targets) :
    (ts.foldl (follow g source) t).pending g < t.pending g ∨
      (ts.foldl (follow g source) t).pending g = t.pending g ∧
        (ts.foldl (follow g source) t).queue = t.queue := by
  induction ts generalizing t with
  | nil => exact .inr ⟨rfl, rfl⟩
  | cons n ts ih =>
    have h1 := pending_follow g source n t (hts n (by simp))
    have h2 := ih (t.follow g source n) (fun m hm => hts m (by simp [hm]))
    simp only [List.foldl_cons]
    rcases h1 with h1 | ⟨h1, q1⟩ <;> rcases h2 with h2 | ⟨h2, q2⟩
    · exact .inl (by omega)
    · exact .inl (by omega)
    · exact .inl (by omega)
    · exact .inr ⟨by omega, by rw [q2, q1]⟩

/-- Follows the edges of the queued blocks, oldest block first, until none is left. -/
def run (g : Graph) (t : Traversal) : Traversal :=
  match _h : t.queue with
  | [] => t
  | n :: rest => run g ((g.successors n).foldl (follow g n) { t with queue := rest })
termination_by (t.pending g, t.queue.length)
decreasing_by
  have := pending_foldl_follow g n (g.successors n) { t with queue := rest }
    (fun m hm => Graph.mem_targets_of_mem_successors hm)
  rcases this with h' | ⟨h', hq⟩
  · exact Prod.Lex.left _ _ h'
  · rw [h', hq]
    exact Prod.Lex.right _ (by simp [_h])

end Traversal

/-- Follows every edge reachable from a block once, nearer blocks first. -/
def Graph.traverse (g : Graph) (start : BlockId) : Traversal :=
  Traversal.run g ⟨Visits.empty.enter g start, [], [start]⟩

end StackFlow
