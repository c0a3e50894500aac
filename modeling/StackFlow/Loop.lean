import StackFlow.Graph

/-!
# Loops

A depth-first walk from a start block finds back edges: edges into a block whose exploration has
not ended. The target of a back edge heads a loop, whose body are the header and the blocks that
reach one of its back edges without passing the header. A detector keeps what it explored, so that
further starts explore only what is new.
-/

namespace StackFlow

/-- The loop of the back edges into one block. -/
structure Loop where
  /-- The target of the back edges. -/
  header : BlockId
  /-- The sources of the back edges in the order found. -/
  latches : List BlockId
  /-- The blocks of the loop in ascending order, the header among them. -/
  body : List BlockId
  deriving DecidableEq

/-- The members of `fresh` that are reached from `work`, stepping by `next` through members of
`fresh` only. -/
def gather (next : BlockId → List BlockId) (fresh work : List BlockId) : List BlockId :=
  match work with
  | [] => []
  | n :: rest =>
    if n ∈ fresh then n :: gather next (fresh.erase n) (next n ++ rest)
    else gather next fresh rest
termination_by (fresh.length, work.length)
decreasing_by
  · next h =>
      have := List.length_erase_of_mem h
      have := List.length_pos_of_mem h
      exact Prod.Lex.left _ _ (by omega)
  · exact Prod.Lex.right _ (by simp)

/-- The blocks reachable from a block, which is one of them. -/
def Graph.reachable (g : Graph) (n : BlockId) : List BlockId :=
  gather g.successors (firsts (n :: g.targets)) [n]

namespace Loop

/-- A loop without latches. -/
def new (header : BlockId) : Loop := ⟨header, [], []⟩

/-- Records the source of a back edge. -/
def addLatch (l : Loop) (n : BlockId) : Loop := { l with latches := appendNew l.latches n }

/-- Whether a block is part of the loop. -/
def contains (l : Loop) (n : BlockId) : Bool := n ∈ l.body

/-- The body of a loop: its header and what leads to a latch from within the blocks that the header
reaches. -/
def findBody (g : Graph) (l : Loop) : Loop :=
  let inside := gather g.predecessors ((g.reachable l.header).erase l.header) l.latches
  { l with body := (SortedSet.ofList (l.header :: inside)).toList }

/-- A loop as text. -/
def text (l : Loop) : String :=
  s!"loop@{decimal l.header} \x7b" ++ ",".intercalate (l.body.map decimal) ++ "\x7d"

end Loop

/-- How far the exploration of a block has come. -/
inductive Progress where
  /-- The block is on the current walk. -/
  | active
  /-- All edges of the block were explored. -/
  | done
  deriving DecidableEq

/-- A notable step of a walk. -/
inductive WalkEvent where
  /-- The walk went along an edge to a new block. -/
  | entered (edge : Edge)
  /-- The walk met an edge into a block on it. -/
  | backEdge (edge : Edge)
  /-- A block turned out to head a loop. -/
  | newLoop (header : BlockId)
  deriving DecidableEq

/-- A step as a line of a log. -/
def WalkEvent.message : WalkEvent → String
  | .entered e => s!"loopdetect: Detect: {e.source.text} → {e.target.text}"
  | .backEdge e => s!"loopdetect: Detect: back edge {e.source.text} → {e.target.text}"
  | .newLoop n => s!"loopdetect: registers new loop at {n.text}"

/-- What is known of the loops of a graph. -/
structure LoopDetector where
  /-- How far each block was explored; a block not listed was not met. -/
  progress : SortedMap BlockId Progress
  /-- The loops by header. -/
  loops : SortedMap BlockId Loop
  /-- The back edges in the order found. -/
  backEdges : List Edge

/-- A block on a walk, and the position of its next edge. -/
structure WalkFrame where
  /-- The block. -/
  node : BlockId
  /-- How many of its edges were explored. -/
  next : Nat

/-- A walk under way. -/
structure LoopWalk where
  /-- What is known so far. -/
  detector : LoopDetector
  /-- The blocks on the walk, the last one first. -/
  frames : List WalkFrame
  /-- The back edges that this walk found. -/
  found : List Edge
  /-- The notable steps in order. -/
  events : List WalkEvent

namespace LoopWalk

/-- Notes an edge into a block on the walk. -/
def noteBackEdge (w : LoopWalk) (e : Edge) : LoopWalk :=
  let seen := { w with events := w.events ++ [.backEdge e] }
  if e ∈ w.found then seen
  else
    let d := w.detector
    let isNew := !d.loops.contains e.target
    { seen with
      found := w.found ++ [e]
      events := seen.events ++ (if isNew then [.newLoop e.target] else [])
      detector := { d with
        backEdges := d.backEdges ++ [e]
        loops := d.loops.upsert e.target
          (fun l => (l.getD (Loop.new e.target)).addLatch e.source) } }

/-- Sets how far a block was explored. -/
def mark (w : LoopWalk) (n : BlockId) (p : Progress) : LoopWalk :=
  { w with detector := { w.detector with progress := w.detector.progress.insert n p } }

/-- How many edge targets were not met. -/
def unmet (g : Graph) (w : LoopWalk) : Nat :=
  g.targets.countP (fun n => !w.detector.progress.contains n)

/-- How many edges of the blocks on the walk are left, and a step for each block. -/
def left (g : Graph) (fs : List WalkFrame) : Nat :=
  total (fun f => (g.successors f.node).length - f.next + 1) fs

/-- Marking a block leaves no more blocks unmet. -/
theorem unmet_mark_le (g : Graph) (w : LoopWalk) (n : BlockId) (p : Progress)
    (fs : List WalkFrame) : unmet g { w.mark n p with frames := fs } ≤ unmet g w := by
  refine List.countP_mono_left (fun m _ h => ?_)
  by_cases hm : m = n
  · simp [mark, SortedMap.contains, SortedMap.get?_insert, hm] at h
  · simpa [mark, SortedMap.contains, SortedMap.get?_insert, hm] using h

/-- Marking an unmet edge target leaves fewer blocks unmet. -/
theorem unmet_mark_lt (g : Graph) (w : LoopWalk) (n : BlockId) (p : Progress)
    (fs : List WalkFrame) (es : List WalkEvent) (hn : n ∈ g.targets)
    (hp : w.detector.progress.get? n = none) :
    unmet g { w.mark n p with frames := fs, events := es } < unmet g w := by
  refine countP_lt_countP (a := n) (fun m _ h => ?_) hn (by simp [SortedMap.contains, hp]) ?_
  · by_cases hm : m = n
    · simp [mark, SortedMap.contains, SortedMap.get?_insert, hm] at h
    · simpa [mark, SortedMap.contains, SortedMap.get?_insert, hm] using h
  · simp [mark, SortedMap.contains, SortedMap.get?_insert]

/-- Noting a back edge meets no block. -/
theorem unmet_noteBackEdge (g : Graph) (w : LoopWalk) (e : Edge) (fs : List WalkFrame) :
    unmet g { w.noteBackEdge e with frames := fs } = unmet g w := by
  unfold unmet noteBackEdge
  simp only
  split <;> rfl

/-- Explores the blocks on the walk, edge by edge, until the walk is empty. -/
def run (g : Graph) (w : LoopWalk) : LoopWalk :=
  match _hf : w.frames with
  | [] => w
  | f :: rest =>
    match _ht : (g.successors f.node)[f.next]? with
    | none => run g { w.mark f.node .done with frames := rest }
    | some t =>
      let frames := { f with next := f.next + 1 } :: rest
      match _hp : w.detector.progress.get? t with
      | none =>
        run g { w.mark t .active with
          frames := ⟨t, 0⟩ :: frames
          events := w.events ++ [.entered ⟨f.node, t⟩] }
      | some .active => run g { w.noteBackEdge ⟨f.node, t⟩ with frames := frames }
      | some .done => run g { w with frames := frames }
termination_by (unmet g w, left g w.frames)
decreasing_by
  · have h := unmet_mark_le g w f.node .done rest
    rcases Nat.lt_or_eq_of_le h with h | h
    · exact Prod.Lex.left _ _ h
    · rw [h]
      exact Prod.Lex.right _ (by simp only [left, _hf, total]; omega)
  · exact Prod.Lex.left _ _ (unmet_mark_lt g w t .active _ _
      (Graph.mem_targets_of_mem_successors (List.mem_of_getElem? _ht)) _hp)
  · rw [unmet_noteBackEdge]
    have := (List.getElem?_eq_some_iff.1 _ht).1
    refine Prod.Lex.right _ ?_
    simp only [left, _hf, total]
    omega
  · have := (List.getElem?_eq_some_iff.1 _ht).1
    refine Prod.Lex.right _ ?_
    simp only [left, _hf, total]
    omega

end LoopWalk

/-- What one call of a detector found. -/
structure Detection where
  /-- The back edges found by the call, in order. -/
  found : List Edge
  /-- The notable steps of the call. -/
  events : List WalkEvent
  /-- The detector after the call. -/
  detector : LoopDetector

namespace LoopDetector

/-- Nothing explored. -/
def empty : LoopDetector := ⟨.empty, .empty, []⟩

/-- Explores a graph from a start block, unless an earlier call met it, and finds the bodies of the
loops that gained a back edge. -/
def detect (d : LoopDetector) (g : Graph) (start : BlockId) : Detection :=
  if d.progress.contains start then ⟨[], [], d⟩
  else
    let w := LoopWalk.run g
      ({ detector := d, frames := [⟨start, 0⟩], found := [], events := [] : LoopWalk }.mark
        start .active)
    let loops := w.found.foldl (fun loops e => loops.modify e.target (Loop.findBody g))
      w.detector.loops
    ⟨w.found, w.events, { w.detector with loops := loops }⟩

/-- The loops found so far, by ascending header. -/
def allLoops (d : LoopDetector) : List Loop := d.loops.values

end LoopDetector

/-- A stack of blocks. -/
structure BlockStack where
  /-- The blocks, the top one first. -/
  blocks : List BlockId

/-- Why a stack gives no block. -/
inductive StackError where
  /-- The stack is empty. -/
  | empty
  deriving DecidableEq

/-- The text of a stack error. -/
def StackError.message : StackError → String
  | .empty => "loop: empty stack"

namespace BlockStack

/-- Whether no block is on the stack. -/
def isEmpty (s : BlockStack) : Bool := s.blocks.isEmpty

/-- Puts a block on the stack. -/
def push (s : BlockStack) (n : BlockId) : BlockStack := ⟨n :: s.blocks⟩

/-- Takes the top block off the stack. -/
def pop (s : BlockStack) : Except StackError (BlockId × BlockStack) :=
  match s.blocks with
  | [] => .error .empty
  | n :: rest => .ok (n, ⟨rest⟩)

end BlockStack

end StackFlow
