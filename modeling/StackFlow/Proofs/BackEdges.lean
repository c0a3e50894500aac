import Mathlib.Data.List.Chain
import Mathlib.Data.List.Nodup
import StackFlow.Loop
import StackFlow.Proofs.Reachability

/-!
# Back edges meet every cycle

A detector is called for one start after the other and keeps its marks in between. The module shows
that the back edges found are edges of cycles, each listed once, and that no cycle which a start
reaches avoids them all. `LoopWalk.Invariant` is what holds at each point of a walk and
`LoopDetector.AtRest` what holds between the calls. Both extend `LoopDetector.Explored`, the part
that does not speak of the blocks on the walk.
-/

namespace StackFlow

namespace LoopDetector

/-- The block was met by some walk. -/
def Met (d : LoopDetector) (n : BlockId) : Prop := d.progress.get? n ≠ none

/-- The block is on the current walk. -/
def Active (d : LoopDetector) (n : BlockId) : Prop := d.progress.get? n = some .active

/-- All edges of the block were explored. -/
def Done (d : LoopDetector) (n : BlockId) : Prop := d.progress.get? n = some .done

/-- The edge needs no further look: it is a back edge, or its target is explored. -/
def Settled (d : LoopDetector) (m t : BlockId) : Prop := Edge.mk m t ∈ d.backEdges ∨ d.Done t

/-- The frame `f` was entered from the frame `e`, whose other explored edges are settled. -/
def EnteredFrom (d : LoopDetector) (g : Graph) (f e : WalkFrame) : Prop :=
  g.Adj e.node f.node ∧
    ∀ t ∈ (g.successors e.node).take e.next, d.Settled e.node t ∨ t = f.node

/-- What was explored, and what is known of it at each point of a walk. -/
structure Explored (g : Graph) (starts : List BlockId) (d : LoopDetector) : Prop where
  /-- Only what a start reaches is met. -/
  reached : ∀ n, d.Met n → ∃ s ∈ starts, g.Reach s n
  /-- An explored block has no unmet successor. -/
  closed : ∀ n, d.Done n → ∀ t, g.Adj n t → d.Met t
  /-- Without the back edges, every walk from an explored block ends. -/
  ends : ∀ n, d.Done n → Acc (fun t m => g.AdjExcept d.backEdges m t) n
  /-- A back edge is an edge of a cycle. -/
  cyclic : ∀ e ∈ d.backEdges, g.Adj e.source e.target ∧ g.Reach e.target e.source
  /-- Both ends of a back edge are met. -/
  metEnds : ∀ e ∈ d.backEdges, d.Met e.source ∧ d.Met e.target
  /-- A back edge is listed once. -/
  nodup : d.backEdges.Nodup

/-- What holds between two calls, once there were calls for the starts. -/
structure AtRest (g : Graph) (starts : List BlockId) (d : LoopDetector) : Prop
    extends Explored g starts d where
  /-- No block is left on a walk. -/
  notActive : ∀ n, ¬ d.Active n
  /-- Every start was met. -/
  startsMet : ∀ s ∈ starts, d.Met s

/-- What no step of a walk takes back. -/
structure Grows (d d' : LoopDetector) : Prop where
  /-- A block stays met. -/
  met : ∀ n, d.Met n → d'.Met n
  /-- A block stays explored. -/
  done : ∀ n, d.Done n → d'.Done n
  /-- A back edge stays listed. -/
  backEdges : ∀ e ∈ d.backEdges, e ∈ d'.backEdges

/-- A block that is done was met. -/
theorem Done.met {d : LoopDetector} {n : BlockId} (h : d.Done n) : d.Met n := by
  unfold Met
  rw [h]
  exact Option.some_ne_none _

/-- A block on the current walk was met. -/
theorem Active.met {d : LoopDetector} {n : BlockId} (h : d.Active n) : d.Met n := by
  unfold Met
  rw [h]
  exact Option.some_ne_none _

/-- A block on the walk is not explored yet. -/
theorem Active.not_done {d : LoopDetector} {n : BlockId} (h : d.Active n) : ¬ d.Done n := by
  intro hd
  have hsame : some Progress.active = some Progress.done := h.symm.trans hd
  cases hsame

/-- What was met is on the walk or explored. -/
theorem Met.active_or_done {d : LoopDetector} {n : BlockId} (h : d.Met n) :
    d.Active n ∨ d.Done n := by
  unfold Active Done
  obtain ⟨p, hp⟩ := Option.ne_none_iff_exists'.1 h
  cases p with
  | active => exact .inl hp
  | done => exact .inr hp

/-- An edge that is settled stays so. -/
theorem Settled.mono {d d' : LoopDetector} (hg : d.Grows d') {m t : BlockId}
    (h : d.Settled m t) : d'.Settled m t :=
  h.imp (hg.backEdges _) (hg.done t)

/-- A frame stays entered from the one below it. -/
theorem EnteredFrom.mono {d d' : LoopDetector} (hg : d.Grows d') {g : Graph} {f e : WalkFrame}
    (h : d.EnteredFrom g f e) : d'.EnteredFrom g f e :=
  ⟨h.1, fun t ht => (h.2 t ht).imp_left (Settled.mono hg)⟩

/-- More back edges leave fewer walks, so those from a block still end. -/
theorem acc_mono {g : Graph} {es es' : List Edge} (hes : ∀ e ∈ es, e ∈ es') {n : BlockId}
    (h : Acc (fun t m => g.AdjExcept es m t) n) : Acc (fun t m => g.AdjExcept es' m t) n :=
  Subrelation.accessible (fun ht => ⟨ht.1, fun he => ht.2 (hes _ he)⟩) h

/-- With one start more, what was reached still is. -/
theorem Explored.append_start {g : Graph} {starts : List BlockId} {d : LoopDetector}
    (h : d.Explored g starts) (s : BlockId) : d.Explored g (starts ++ [s]) := by
  refine { h with reached := fun n hn => ?_ }
  obtain ⟨r, hr, hreach⟩ := h.reached n hn
  exact ⟨r, List.mem_append_left _ hr, hreach⟩

/-- A settled edge has a met target. -/
theorem Explored.met_of_settled {g : Graph} {starts : List BlockId} {d : LoopDetector}
    (h : d.Explored g starts) {m t : BlockId} (ht : d.Settled m t) : d.Met t :=
  ht.elim (fun he => (h.metEnds _ he).2) Done.met

/-- A block is on no walk without end once all its edges are settled. -/
theorem Explored.acc_of_settled {g : Graph} {starts : List BlockId} {d : LoopDetector}
    (h : d.Explored g starts) {n : BlockId} (hn : ∀ t, g.Adj n t → d.Settled n t) :
    Acc (fun t m => g.AdjExcept d.backEdges m t) n := by
  refine Acc.intro n (fun t ht => ?_)
  obtain ⟨hadj, hout⟩ := ht
  have hdone : d.Done t := (hn t hadj).resolve_left hout
  exact h.ends t hdone

end LoopDetector

namespace LoopWalk

/-! ## Marks and notes -/

/-- Marking a block changes the progress of that block only. -/
theorem get?_mark (w : LoopWalk) (n j : BlockId) (p : Progress) :
    (w.mark n p).detector.progress.get? j =
      if j = n then some p else w.detector.progress.get? j :=
  SortedMap.get?_insert _ _ _ _

/-- A block that is marked was met. -/
theorem met_mark {w : LoopWalk} {n j : BlockId} {p : Progress} :
    (w.mark n p).detector.Met j ↔ j = n ∨ w.detector.Met j := by
  unfold LoopDetector.Met
  rw [get?_mark]
  by_cases h : j = n <;> simp [h]

/-- A block that is marked as done is done. -/
theorem done_mark_done {w : LoopWalk} {n j : BlockId} :
    (w.mark n .done).detector.Done j ↔ j = n ∨ w.detector.Done j := by
  unfold LoopDetector.Done
  rw [get?_mark]
  by_cases h : j = n <;> simp [h]

/-- A block that is marked as active is not done any more. -/
theorem done_mark_active {w : LoopWalk} {n j : BlockId} :
    (w.mark n .active).detector.Done j ↔ j ≠ n ∧ w.detector.Done j := by
  unfold LoopDetector.Done
  rw [get?_mark]
  by_cases h : j = n <;> simp [h]

/-- A block that is marked as done is not on the walk any more. -/
theorem active_mark_done {w : LoopWalk} {n j : BlockId} :
    (w.mark n .done).detector.Active j ↔ j ≠ n ∧ w.detector.Active j := by
  unfold LoopDetector.Active
  rw [get?_mark]
  by_cases h : j = n <;> simp [h]

/-- A block that is marked as active is on the walk. -/
theorem active_mark_active {w : LoopWalk} {n j : BlockId} :
    (w.mark n .active).detector.Active j ↔ j = n ∨ w.detector.Active j := by
  unfold LoopDetector.Active
  rw [get?_mark]
  by_cases h : j = n <;> simp [h]

/-- Marking a block as done takes nothing back. -/
theorem grows_mark_done (w : LoopWalk) (n : BlockId) :
    w.detector.Grows (w.mark n .done).detector :=
  ⟨fun _ h => met_mark.2 (.inr h), fun _ h => done_mark_done.2 (.inr h), fun _ h => h⟩

/-- A block that is not explored may become active. -/
theorem grows_mark_active {w : LoopWalk} {n : BlockId} (hn : ¬ w.detector.Done n) :
    w.detector.Grows (w.mark n .active).detector := by
  refine ⟨fun _ h => met_mark.2 (.inr h), fun j h => done_mark_active.2 ⟨?_, h⟩, fun _ h => h⟩
  rintro rfl
  exact hn h

/-- Noting a back edge leaves the progress of all blocks as it is. -/
theorem progress_noteBackEdge (w : LoopWalk) (e : Edge) :
    (w.noteBackEdge e).detector.progress = w.detector.progress := by
  unfold noteBackEdge
  dsimp only
  split <;> rfl

/-- Noting a back edge leaves the walk where it is. -/
theorem frames_noteBackEdge (w : LoopWalk) (e : Edge) : (w.noteBackEdge e).frames = w.frames := by
  unfold noteBackEdge
  dsimp only
  split <;> rfl

/-- Noting a back edge meets no block. -/
theorem met_noteBackEdge {w : LoopWalk} {e : Edge} {n : BlockId} :
    (w.noteBackEdge e).detector.Met n ↔ w.detector.Met n := by
  unfold LoopDetector.Met
  rw [progress_noteBackEdge]

/-- Noting a back edge finishes no block. -/
theorem done_noteBackEdge {w : LoopWalk} {e : Edge} {n : BlockId} :
    (w.noteBackEdge e).detector.Done n ↔ w.detector.Done n := by
  unfold LoopDetector.Done
  rw [progress_noteBackEdge]

/-- Noting a back edge puts no block on the walk. -/
theorem active_noteBackEdge {w : LoopWalk} {e : Edge} {n : BlockId} :
    (w.noteBackEdge e).detector.Active n ↔ w.detector.Active n := by
  unfold LoopDetector.Active
  rw [progress_noteBackEdge]

/-- An edge that this walk noted before is not listed again. -/
theorem noteBackEdge_of_mem {w : LoopWalk} {e : Edge} (h : e ∈ w.found) :
    (w.noteBackEdge e).detector.backEdges = w.detector.backEdges ∧
      (w.noteBackEdge e).found = w.found := by
  unfold noteBackEdge
  dsimp only
  rw [if_pos h]
  exact ⟨rfl, rfl⟩

/-- Any other edge is listed last. -/
theorem noteBackEdge_of_notMem {w : LoopWalk} {e : Edge} (h : e ∉ w.found) :
    (w.noteBackEdge e).detector.backEdges = w.detector.backEdges ++ [e] ∧
      (w.noteBackEdge e).found = w.found ++ [e] := by
  unfold noteBackEdge
  dsimp only
  rw [if_neg h]
  exact ⟨rfl, rfl⟩

/-- The edge that is noted is found, and no other. -/
theorem mem_found_noteBackEdge {w : LoopWalk} {e x : Edge} :
    x ∈ (w.noteBackEdge e).found ↔ x ∈ w.found ∨ x = e := by
  by_cases he : e ∈ w.found
  · rw [(noteBackEdge_of_mem he).2]
    refine (or_iff_left_of_imp ?_).symm
    rintro rfl
    exact he
  · rw [(noteBackEdge_of_notMem he).2, List.mem_append, List.mem_singleton]

/-- A noted edge is listed, if those that the walk noted before are. -/
theorem mem_backEdges_noteBackEdge {w : LoopWalk} {e x : Edge}
    (hlisted : e ∈ w.found → e ∈ w.detector.backEdges) :
    x ∈ (w.noteBackEdge e).detector.backEdges ↔ x ∈ w.detector.backEdges ∨ x = e := by
  by_cases he : e ∈ w.found
  · rw [(noteBackEdge_of_mem he).1]
    refine (or_iff_left_of_imp ?_).symm
    rintro rfl
    exact hlisted he
  · rw [(noteBackEdge_of_notMem he).1, List.mem_append, List.mem_singleton]

/-- Noting a back edge takes nothing back, if an edge that was found before is listed. -/
theorem grows_noteBackEdge {w : LoopWalk} {e : Edge}
    (hlisted : e ∈ w.found → e ∈ w.detector.backEdges) :
    w.detector.Grows (w.noteBackEdge e).detector :=
  ⟨fun _ => met_noteBackEdge.2, fun _ => done_noteBackEdge.2,
    fun _ hx => (mem_backEdges_noteBackEdge hlisted).2 (.inl hx)⟩

/-- A walk looks only among its own edges before it lists one. The list has no repetition all the
same, if no earlier walk listed the edge. -/
theorem nodup_noteBackEdge {w : LoopWalk} {e : Edge} (hnodup : w.detector.backEdges.Nodup)
    (hnew : e ∈ w.detector.backEdges → e ∈ w.found) :
    (w.noteBackEdge e).detector.backEdges.Nodup := by
  by_cases he : e ∈ w.found
  · rw [(noteBackEdge_of_mem he).1]
    exact hnodup
  · rw [(noteBackEdge_of_notMem he).1]
    refine List.Nodup.append hnodup (List.nodup_singleton e) ?_
    rw [List.disjoint_singleton]
    exact fun hmem => he (hnew hmem)

/-! ## The invariant of a walk -/

/-- What holds at each point of a walk: the active blocks are those of the frames, which form a
path, and all explored edges are settled but the one into the next frame. -/
structure Invariant (g : Graph) (starts : List BlockId) (w : LoopWalk) : Prop
    extends LoopDetector.Explored g starts w.detector where
  /-- The active blocks are the blocks of the frames. -/
  active_iff : ∀ n, w.detector.Active n ↔ n ∈ w.frames.map (·.node)
  /-- No block has two frames. -/
  nodupNodes : (w.frames.map (·.node)).Nodup
  /-- Each frame was entered from the one below. -/
  chain : w.frames.IsChain (w.detector.EnteredFrom g)
  /-- The explored edges of the last frame are settled. -/
  settled : ∀ f ∈ w.frames.head?,
    ∀ t ∈ (g.successors f.node).take f.next, w.detector.Settled f.node t
  /-- What this walk found is listed. -/
  listed : ∀ e ∈ w.found, e ∈ w.detector.backEdges
  /-- The back edges of earlier walks start at explored blocks. -/
  found_or_done : ∀ e ∈ w.detector.backEdges, e ∈ w.found ∨ w.detector.Done e.source
  /-- Every start was met, that of this walk among them. -/
  startsMet : ∀ s ∈ starts, w.detector.Met s

variable {g : Graph} {starts : List BlockId} {w : LoopWalk} {f : WalkFrame} {rest : List WalkFrame}
  {t : BlockId}

/-- The blocks of the frames all reach the last one. -/
theorem reach_head_of_isChain {d : LoopDetector}
    (h : (f :: rest).IsChain (d.EnteredFrom g)) {e : WalkFrame} (he : e ∈ f :: rest) :
    g.Reach e.node f.node := by
  induction rest generalizing f with
  | nil =>
    rw [List.mem_singleton.1 he]
    exact .refl
  | cons b rest ih =>
    obtain ⟨hfb, hrest⟩ := List.isChain_cons_cons.1 h
    rcases List.mem_cons.1 he with rfl | he
    · exact .refl
    · exact (ih hrest he).tail hfb.1

/-- A step to the next edge of the last frame leaves the path of frames as it is. -/
theorem isChain_advance {d : LoopDetector} (h : (f :: rest).IsChain (d.EnteredFrom g)) :
    ({ f with next := f.next + 1 } :: rest).IsChain (d.EnteredFrom g) := by
  cases rest with
  | nil => exact .singleton _
  | cons b rest =>
    obtain ⟨hfb, hrest⟩ := List.isChain_cons_cons.1 h
    exact List.isChain_cons_cons.2 ⟨hfb, hrest⟩

/-- The explored edges after one more are those before and that one. -/
theorem mem_take_next {u : BlockId} (ht : (g.successors f.node)[f.next]? = some t)
    (hu : u ∈ (g.successors f.node).take (f.next + 1)) :
    u ∈ (g.successors f.node).take f.next ∨ u = t := by
  rw [List.take_add_one, ht] at hu
  rcases List.mem_append.1 hu with hu | hu
  · exact .inl hu
  · exact .inr (List.mem_singleton.1 hu)

/-! ## The steps of a walk -/

/-- A met block whose edges are all settled can be marked as explored. -/
theorem explored_mark_done (h : w.detector.Explored g starts) (ht : w.detector.Met t)
    (hall : ∀ u, g.Adj t u → w.detector.Settled t u) :
    (w.mark t .done).detector.Explored g starts := by
  have hgrows := grows_mark_done w t
  constructor
  case reached =>
    intro n hn
    rcases met_mark.1 hn with rfl | hn
    · exact h.reached n ht
    · exact h.reached n hn
  case closed =>
    intro n hn u hu
    apply hgrows.met
    rcases done_mark_done.1 hn with rfl | hn
    · exact h.met_of_settled (hall u hu)
    · exact h.closed n hn u hu
  case ends =>
    intro n hn
    rcases done_mark_done.1 hn with rfl | hn
    · exact h.acc_of_settled hall
    · exact h.ends n hn
  case cyclic => exact h.cyclic
  case metEnds => exact fun e he => (h.metEnds e he).imp (hgrows.met _) (hgrows.met _)
  case nodup => exact h.nodup

/-- A block that is not explored can be marked as active once a start reaches it. -/
theorem explored_mark_active (h : w.detector.Explored g starts) (ht : ¬ w.detector.Done t)
    (hreach : ∃ s ∈ starts, g.Reach s t) : (w.mark t .active).detector.Explored g starts := by
  have hgrows := grows_mark_active ht
  constructor
  case reached =>
    intro n hn
    rcases met_mark.1 hn with rfl | hn
    · exact hreach
    · exact h.reached n hn
  case closed => exact fun n hn u hu => hgrows.met u (h.closed n (done_mark_active.1 hn).2 u hu)
  case ends => exact fun n hn => h.ends n (done_mark_active.1 hn).2
  case cyclic => exact h.cyclic
  case metEnds => exact fun e he => (h.metEnds e he).imp (hgrows.met _) (hgrows.met _)
  case nodup => exact h.nodup

/-- An edge of a cycle between met blocks can be noted. -/
theorem explored_noteBackEdge {e : Edge} (h : w.detector.Explored g starts)
    (hlisted : e ∈ w.found ↔ e ∈ w.detector.backEdges)
    (hcyclic : g.Adj e.source e.target ∧ g.Reach e.target e.source)
    (hmet : w.detector.Met e.source ∧ w.detector.Met e.target) :
    (w.noteBackEdge e).detector.Explored g starts := by
  have hgrows := grows_noteBackEdge hlisted.1
  constructor
  case reached => exact fun n hn => h.reached n (met_noteBackEdge.1 hn)
  case closed => exact fun n hn u hu => hgrows.met u (h.closed n (done_noteBackEdge.1 hn) u hu)
  case ends =>
    intro n hn
    exact LoopDetector.acc_mono hgrows.backEdges (h.ends n (done_noteBackEdge.1 hn))
  case cyclic =>
    intro x hx
    rcases (mem_backEdges_noteBackEdge hlisted.1).1 hx with hx | rfl
    · exact h.cyclic x hx
    · exact hcyclic
  case metEnds =>
    intro x hx
    rw [met_noteBackEdge, met_noteBackEdge]
    rcases (mem_backEdges_noteBackEdge hlisted.1).1 hx with hx | rfl
    · exact h.metEnds x hx
    · exact hmet
  case nodup => exact nodup_noteBackEdge h.nodup hlisted.2

namespace Invariant

/-- The block of a frame is active. -/
theorem active (h : w.Invariant g starts) (hf : w.frames = f :: rest) :
    w.detector.Active f.node := by
  rw [h.active_iff, hf]
  exact List.mem_cons_self

/-- A block whose edges are all explored is taken off the walk. -/
theorem finish (h : w.Invariant g starts) (hf : w.frames = f :: rest)
    (ht : (g.successors f.node)[f.next]? = none) :
    Invariant g starts { w.mark f.node .done with frames := rest } := by
  have hgrows := grows_mark_done w f.node
  -- no edge is left, so those explored are all
  have hall : ∀ u, g.Adj f.node u → w.detector.Settled f.node u := by
    intro u hu
    refine h.settled f (by rw [hf]; rfl) u ?_
    rw [List.take_of_length_le (List.getElem?_eq_none_iff.1 ht)]
    exact hu
  have hnodup := h.nodupNodes
  have hchain := h.chain
  rw [hf] at hnodup hchain
  rw [List.map_cons, List.nodup_cons] at hnodup
  constructor
  case toExplored => exact explored_mark_done h.toExplored (h.active hf).met hall
  case active_iff =>
    intro n
    rw [active_mark_done, h.active_iff, hf, List.map_cons, List.mem_cons]
    constructor
    · rintro ⟨hne, hn⟩
      exact hn.resolve_left hne
    · intro hn
      exact ⟨fun heq => hnodup.1 (heq ▸ hn), .inr hn⟩
  case nodupNodes => exact hnodup.2
  case chain => exact hchain.tail.imp (fun _ _ => LoopDetector.EnteredFrom.mono hgrows)
  case settled =>
    intro e he u hu
    -- the frame below was waiting for this block only
    cases rest with
    | nil => cases he
    | cons b rest =>
      obtain rfl : b = e := Option.some.inj he
      obtain ⟨hfb, -⟩ := List.isChain_cons_cons.1 hchain
      rcases hfb.2 u hu with hu | rfl
      · exact hu.mono hgrows
      · exact .inr (done_mark_done.2 (.inl rfl))
  case listed => exact h.listed
  case found_or_done => exact fun e he => (h.found_or_done e he).imp_right (hgrows.done _)
  case startsMet => exact fun s hs => hgrows.met s (h.startsMet s hs)

/-- The walk goes on to a block that was not met. -/
theorem enter (h : w.Invariant g starts) (hf : w.frames = f :: rest)
    (ht : (g.successors f.node)[f.next]? = some t) (hnew : ¬ w.detector.Met t)
    (events : List WalkEvent) :
    Invariant g starts { w.mark t .active with
      frames := ⟨t, 0⟩ :: { f with next := f.next + 1 } :: rest, events := events } := by
  have hgrows := grows_mark_active (w := w) (fun hd => hnew (LoopDetector.Done.met hd))
  have hadj : g.Adj f.node t := List.mem_of_getElem? ht
  have hnodup := h.nodupNodes
  have hchain := h.chain
  rw [hf] at hnodup hchain
  constructor
  case toExplored =>
    obtain ⟨s, hs, hreach⟩ := h.reached f.node (h.active hf).met
    exact explored_mark_active h.toExplored (fun hd => hnew hd.met) ⟨s, hs, hreach.tail hadj⟩
  case active_iff =>
    intro n
    rw [active_mark_active, h.active_iff, hf]
    simp only [List.map_cons, List.mem_cons]
  case nodupNodes =>
    rw [List.map_cons, List.nodup_cons]
    -- a block on the walk was met, and this one was not
    refine ⟨fun hmem => hnew ?_, hnodup⟩
    have hactive : w.detector.Active t := by
      rw [h.active_iff, hf]
      exact hmem
    exact hactive.met
  case chain =>
    -- the edges passed before this one are settled, and this one leads to the block on top
    refine List.isChain_cons_cons.2 ⟨⟨hadj, fun u hu => ?_⟩, ?_⟩
    · rcases mem_take_next ht hu with hu | rfl
      · exact .inl ((h.settled f (by rw [hf]; rfl) u hu).mono hgrows)
      · exact .inr rfl
    · exact (isChain_advance hchain).imp (fun _ _ => LoopDetector.EnteredFrom.mono hgrows)
  case settled =>
    intro e he u hu
    obtain rfl : ⟨t, 0⟩ = e := Option.some.inj he
    cases hu
  case listed => exact h.listed
  case found_or_done => exact fun e he => (h.found_or_done e he).imp_right (hgrows.done _)
  case startsMet => exact fun s hs => hgrows.met s (h.startsMet s hs)

/-- The walk passes over an edge that is settled. -/
theorem advance (h : w.Invariant g starts) (hf : w.frames = f :: rest)
    (ht : (g.successors f.node)[f.next]? = some t) (hs : w.detector.Settled f.node t) :
    Invariant g starts { w with frames := { f with next := f.next + 1 } :: rest } := by
  have hnodup := h.nodupNodes
  have hchain := h.chain
  rw [hf] at hnodup hchain
  constructor
  case toExplored => exact h.toExplored
  case active_iff =>
    intro n
    rw [h.active_iff, hf, List.map_cons, List.map_cons]
  case nodupNodes => exact hnodup
  case chain => exact isChain_advance hchain
  case settled =>
    intro e he u hu
    obtain rfl : { f with next := f.next + 1 } = e := Option.some.inj he
    rcases mem_take_next ht hu with hu | rfl
    · exact h.settled f (by rw [hf]; rfl) u hu
    · exact hs
  case listed => exact h.listed
  case found_or_done => exact h.found_or_done
  case startsMet => exact h.startsMet

/-- The walk notes an edge into a block that is on it. -/
theorem note (h : w.Invariant g starts) (hf : w.frames = f :: rest) (hadj : g.Adj f.node t)
    (hactive : w.detector.Active t) : Invariant g starts (w.noteBackEdge ⟨f.node, t⟩) := by
  have hsource := h.active hf
  -- an edge listed by an earlier walk starts at an explored block, and this one does not
  have hlisted : Edge.mk f.node t ∈ w.found ↔ Edge.mk f.node t ∈ w.detector.backEdges :=
    ⟨h.listed _, fun hx => (h.found_or_done _ hx).resolve_right hsource.not_done⟩
  have hgrows := grows_noteBackEdge hlisted.1
  -- the frames lead from the target, which has one of them, to the source
  have hreach : g.Reach t f.node := by
    have hframe := (h.active_iff t).1 hactive
    have hchain := h.chain
    rw [hf] at hframe hchain
    obtain ⟨e, he, rfl⟩ := List.mem_map.1 hframe
    exact reach_head_of_isChain hchain he
  constructor
  case toExplored =>
    exact explored_noteBackEdge h.toExplored hlisted ⟨hadj, hreach⟩ ⟨hsource.met, hactive.met⟩
  case active_iff =>
    intro n
    rw [frames_noteBackEdge, active_noteBackEdge]
    exact h.active_iff n
  case nodupNodes =>
    rw [frames_noteBackEdge]
    exact h.nodupNodes
  case chain =>
    rw [frames_noteBackEdge]
    exact h.chain.imp (fun _ _ => LoopDetector.EnteredFrom.mono hgrows)
  case settled =>
    rw [frames_noteBackEdge]
    exact fun e he u hu => (h.settled e he u hu).mono hgrows
  case listed =>
    intro e he
    rw [mem_backEdges_noteBackEdge hlisted.1]
    exact (mem_found_noteBackEdge.1 he).imp_left (h.listed e)
  case found_or_done =>
    intro e he
    rw [mem_found_noteBackEdge, done_noteBackEdge]
    rcases (mem_backEdges_noteBackEdge hlisted.1).1 he with he | rfl
    · exact (h.found_or_done e he).imp_left .inl
    · exact .inl (.inr rfl)
  case startsMet => exact fun s hs => hgrows.met s (h.startsMet s hs)

end Invariant

/-- A walk ends with no block left on it, and the invariant holds to its end. -/
theorem invariant_run (h : w.Invariant g starts) :
    (run g w).Invariant g starts ∧ (run g w).frames = [] := by
  fun_induction run g w with
  | case1 w hf => exact ⟨h, hf⟩
  | case2 w f rest hf ht ih => exact ih (h.finish hf ht)
  | case3 w f rest hf t ht frames hp ih => exact ih (h.enter hf ht (fun hm => hm hp) _)
  | case4 w f rest hf t ht frames hp ih =>
    have hnoted := h.note hf (List.mem_of_getElem? ht) hp
    have hlisted : Edge.mk f.node t ∈ (w.noteBackEdge ⟨f.node, t⟩).detector.backEdges :=
      hnoted.listed _ (mem_found_noteBackEdge.2 (.inr rfl))
    exact ih (hnoted.advance ((frames_noteBackEdge w _).trans hf) ht (.inl hlisted))
  | case5 w f rest hf t ht frames hp ih => exact ih (h.advance hf ht (.inr hp))

/-- A walk begins with its start alone. -/
theorem invariant_start {d : LoopDetector} {s : BlockId} (h : d.AtRest g starts)
    (hs : ¬ d.Met s) :
    Invariant g (starts ++ [s])
      ({ detector := d, frames := [⟨s, 0⟩], found := [], events := [] : LoopWalk }.mark s .active)
    := by
  have hself : ∃ r ∈ starts ++ [s], g.Reach r s :=
    ⟨s, List.mem_append_right _ List.mem_cons_self, .refl⟩
  have hnotDone : ¬ d.Done s := fun hd => hs hd.met
  constructor
  case toExplored => exact explored_mark_active (h.append_start s) hnotDone hself
  case active_iff =>
    intro n
    rw [active_mark_active]
    exact (or_iff_left (h.notActive n)).trans List.mem_singleton.symm
  case nodupNodes => exact List.nodup_singleton s
  case chain => exact .singleton _
  case settled =>
    intro e he u hu
    obtain rfl : ⟨s, 0⟩ = e := Option.some.inj he
    cases hu
  case listed => exact fun e he => absurd he List.not_mem_nil
  case found_or_done =>
    -- the back edges of earlier walks begin at blocks that are done
    intro e he
    have hsource := (h.metEnds e he).1.active_or_done.resolve_left (h.notActive _)
    exact .inr ((grows_mark_active hnotDone).done _ hsource)
  case startsMet =>
    intro r hr
    rcases List.mem_append.1 hr with hr | hr
    · exact met_mark.2 (.inr (h.startsMet r hr))
    · exact met_mark.2 (.inl (List.mem_singleton.1 hr))

end LoopWalk

namespace LoopDetector

/-! ## The calls of a detector -/

/-- The detector that has seen nothing is at rest. -/
theorem atRest_empty (g : Graph) : empty.AtRest g [] := by
  have hunmet : ∀ n, ¬ empty.Met n := fun n hn => hn (SortedMap.get?_empty n)
  constructor
  case toExplored =>
    constructor
    case reached => exact fun n hn => absurd hn (hunmet n)
    case closed => exact fun n hn => absurd hn.met (hunmet n)
    case ends => exact fun n hn => absurd hn.met (hunmet n)
    case cyclic => exact fun e he => absurd he List.not_mem_nil
    case metEnds => exact fun e he => absurd he List.not_mem_nil
    case nodup => exact List.nodup_nil
  case notActive => exact fun n hn => hunmet n hn.met
  case startsMet => exact fun s hs => absurd hs List.not_mem_nil

/-- A call leaves the detector at rest, with one start more. -/
theorem AtRest.detect {g : Graph} {starts : List BlockId} {d : LoopDetector}
    (h : d.AtRest g starts) (s : BlockId) : (d.detect g s).detector.AtRest g (starts ++ [s]) := by
  unfold LoopDetector.detect
  by_cases hs : d.progress.contains s
  · have hmet : d.Met s := Option.isSome_iff_ne_none.1 hs
    rw [if_pos hs]
    refine { h.append_start s with notActive := h.notActive, startsMet := fun r hr => ?_ }
    rcases List.mem_append.1 hr with hr | hr
    · exact h.startsMet r hr
    · rw [List.mem_singleton.1 hr]
      exact hmet
  · have hunmet : ¬ d.Met s := fun hm => hs (Option.isSome_iff_ne_none.2 hm)
    rw [if_neg hs]
    obtain ⟨hinv, hframes⟩ := LoopWalk.invariant_run (LoopWalk.invariant_start h hunmet)
    have hidle := hinv.active_iff
    rw [hframes] at hidle
    -- the bodies of the loops are found last, and nothing here is about them
    exact {
      reached := hinv.reached
      closed := hinv.closed
      ends := hinv.ends
      cyclic := hinv.cyclic
      metEnds := hinv.metEnds
      nodup := hinv.nodup
      notActive := fun n hn => absurd ((hidle n).1 hn) List.not_mem_nil
      startsMet := hinv.startsMet }

/-- A new detector after one call for each start, in order. -/
def detectAll (g : Graph) (starts : List BlockId) : LoopDetector :=
  starts.foldl (fun d s => (d.detect g s).detector) empty

/-- After all start blocks the detector is at rest. -/
theorem atRest_detectAll (g : Graph) (starts : List BlockId) :
    (detectAll g starts).AtRest g starts := by
  induction starts using List.reverseRecOn with
  | nil => exact atRest_empty g
  | append_singleton starts s ih =>
    unfold detectAll at ih ⊢
    rw [List.foldl_append]
    exact ih.detect s

namespace AtRest

variable {g : Graph} {starts : List BlockId} {d : LoopDetector} {s n : BlockId}

/-- At rest, all that a start reaches is explored. -/
theorem done_of_reach (h : d.AtRest g starts) (hs : s ∈ starts) (hn : g.Reach s n) : d.Done n := by
  have hdone : ∀ m, d.Met m → d.Done m :=
    fun m hm => hm.active_or_done.resolve_left (h.notActive m)
  refine hn.closed (fun m t hm hmt => ?_) (hdone s (h.startsMet s hs))
  exact hdone t (h.closed m hm t hmt)

/-- Without the back edges, nothing that a start reaches is on a cycle. -/
theorem not_cycle_except (h : d.AtRest g starts) (hs : s ∈ starts) (hn : g.Reach s n) :
    ¬ Relation.TransGen (g.AdjExcept d.backEdges) n n :=
  Graph.not_transGen_self_of_acc (h.ends n (h.done_of_reach hs hn))

/-- The source of a back edge is reached and on a cycle. -/
theorem exists_onCycle (h : d.AtRest g starts) {e : Edge} (he : e ∈ d.backEdges) :
    ∃ s ∈ starts, g.Reach s e.source ∧ g.OnCycle e.source := by
  obtain ⟨s, hs, hreach⟩ := h.reached e.source (h.metEnds e he).1
  obtain ⟨hadj, hback⟩ := h.cyclic e he
  exact ⟨s, hs, hreach, Relation.TransGen.head' hadj hback⟩

end AtRest

/-- However a detector is called for starts in a graph, each call ends with no block left on its
walk. The back edges are listed once, lie on cycles, and are enough of them: without them no cycle
is left among what the starts reach. So there are none exactly if the starts reach no cycle. -/
theorem backEdges_cut_all_cycles (g : Graph) (starts : List BlockId) :
    (∀ n, ¬ (detectAll g starts).Active n) ∧
      (detectAll g starts).backEdges.Nodup ∧
      (∀ e ∈ (detectAll g starts).backEdges,
        g.Adj e.source e.target ∧ g.Reach e.target e.source) ∧
      (∀ s ∈ starts, ∀ n, g.Reach s n →
        ¬ Relation.TransGen (g.AdjExcept (detectAll g starts).backEdges) n n) ∧
      ((detectAll g starts).backEdges = [] ↔
        ∀ s ∈ starts, ∀ n, g.Reach s n → ¬ g.OnCycle n) := by
  have h := atRest_detectAll g starts
  refine ⟨h.notActive, h.nodup, h.cyclic, fun s hs n hn => h.not_cycle_except hs hn, ?_⟩
  constructor
  · intro hnil s hs n hn hcycle
    apply h.not_cycle_except hs hn
    rw [hnil]
    exact Relation.TransGen.mono (fun _ _ hadj => ⟨hadj, List.not_mem_nil⟩) _ _ hcycle
  · intro hacyclic
    rw [List.eq_nil_iff_forall_not_mem]
    intro e he
    obtain ⟨s, hs, hreach, hcycle⟩ := h.exists_onCycle he
    exact hacyclic s hs e.source hreach hcycle

/-- Two blocks in a cycle, the first of them called for twice: there is a back edge, and the cycle
ends without it. -/
theorem backEdges_cut_all_cycles_twoBlocks :
    (Graph.ofEdges [⟨0, 1⟩, ⟨1, 0⟩]).OnCycle 0 ∧
      (detectAll (Graph.ofEdges [⟨0, 1⟩, ⟨1, 0⟩]) [0, 0]).backEdges ≠ [] ∧
      ¬ Relation.TransGen ((Graph.ofEdges [⟨0, 1⟩, ⟨1, 0⟩]).AdjExcept
        (detectAll (Graph.ofEdges [⟨0, 1⟩, ⟨1, 0⟩]) [0, 0]).backEdges) 0 0 := by
  have hthere : (Graph.ofEdges [⟨0, 1⟩, ⟨1, 0⟩]).Adj 0 1 := by
    unfold Graph.Adj
    decide
  have hback : (Graph.ofEdges [⟨0, 1⟩, ⟨1, 0⟩]).Adj 1 0 := by
    unfold Graph.Adj
    decide
  have hcycle : (Graph.ofEdges [⟨0, 1⟩, ⟨1, 0⟩]).OnCycle 0 := .tail (.single hthere) hback
  have hstart : (0 : BlockId) ∈ [(0 : BlockId), 0] := List.mem_cons_self
  obtain ⟨-, -, -, hcut, hempty⟩ :=
    backEdges_cut_all_cycles (Graph.ofEdges [⟨0, 1⟩, ⟨1, 0⟩]) [0, 0]
  exact ⟨hcycle, fun hnil => hempty.1 hnil 0 hstart 0 .refl hcycle, hcut 0 hstart 0 .refl⟩

end LoopDetector

end StackFlow
