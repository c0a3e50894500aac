import Mathlib.Data.List.Nodup
import StackFlow.Proofs.GraphConstruction
import StackFlow.Proofs.VisitRecords

/-!
# A traversal follows every reachable edge once

`Graph.traverse` takes entered blocks from a queue and follows their edges. It follows each edge
between reachable blocks once and no other, and the module says what its record of visits then has
of blocks and edges.

`Sound` holds at each point of a traversal: whatever was entered or followed is reachable, and the
edges listed are those that the record has as followed. Following an edge keeps it and only adds to
what was entered, followed and queued (`Grows`). Between two blocks of the queue, an entered block
is either still queued or all its edges were followed (`Settled`), so nothing is missing when the
queue is empty.
-/

namespace StackFlow

namespace Traversal

/-- The traversal has entered and followed only what the start reaches, and lists the edges that it
followed. -/
structure Sound (g : Graph) (start : BlockId) (t : Traversal) : Prop where
  /-- The notes of the record are the incoming edges that were not followed. -/
  noted : t.visits.Noted g
  /-- The start was entered. -/
  start_entered : t.visits.entered start = true
  /-- What was entered is reachable. -/
  reached : ∀ n, t.visits.entered n = true → g.Reach start n
  /-- What is queued was entered. -/
  queued : ∀ n ∈ t.queue, t.visits.entered n = true
  /-- The edges followed are those listed. -/
  followed_iff : ∀ u v, t.visits.followed u v = true ↔ Edge.mk u v ∈ t.edges
  /-- What was followed is an edge between entered blocks. -/
  adj : ∀ e ∈ t.edges, g.Adj e.source e.target ∧ t.visits.entered e.source = true ∧
    t.visits.entered e.target = true
  /-- No edge is listed twice. -/
  nodup : t.edges.Nodup

/-- All edges of the block were followed. -/
def Expanded (g : Graph) (t : Traversal) (n : BlockId) : Prop :=
  ∀ v, g.Adj n v → t.visits.followed n v = true

/-- An entered block is queued, or all its edges were followed. -/
def Settled (g : Graph) (t : Traversal) : Prop :=
  ∀ n, t.visits.entered n = true → n ∈ t.queue ∨ t.Expanded g n

/-- What no step takes back, and that what is newly entered is queued. -/
structure Grows (t t' : Traversal) : Prop where
  /-- An edge stays followed. -/
  followed : ∀ u v, t.visits.followed u v = true → t'.visits.followed u v = true
  /-- A block stays queued. -/
  queue : ∀ n ∈ t.queue, n ∈ t'.queue
  /-- A block stays entered. -/
  entered : ∀ n, t.visits.entered n = true → t'.visits.entered n = true
  /-- A block that is newly entered is queued. -/
  fresh : ∀ n, t'.visits.entered n = true → t.visits.entered n = true ∨ n ∈ t'.queue

/-- Where nothing happens, nothing is taken back. -/
theorem Grows.refl (t : Traversal) : t.Grows t :=
  ⟨fun _ _ h => h, fun _ h => h, fun _ h => h, fun _ h => .inl h⟩

/-- Steps that take nothing back follow each other. -/
theorem Grows.trans {t t' t'' : Traversal} (h : t.Grows t') (h' : t'.Grows t'') :
    t.Grows t'' := by
  refine ⟨fun u v hf => h'.followed u v (h.followed u v hf), fun n hn => h'.queue n (h.queue n hn),
    fun n hn => h'.entered n (h.entered n hn), fun n hn => ?_⟩
  rcases h'.fresh n hn with hn | hn
  · exact (h.fresh n hn).imp_right (h'.queue n)
  · exact .inr hn

variable {g : Graph} {start u v : BlockId} {t : Traversal}

/-! ## One edge -/

/-- An edge that was not followed is listed last; a block that it enters for the first time joins
the queue. -/
theorem follow_of_not_followed (h : t.visits.followed u v = false) :
    t.follow g u v = ⟨t.visits.advance g u v, t.edges ++ [⟨u, v⟩],
      if t.visits.entered v then t.queue else t.queue ++ [v]⟩ := by
  unfold follow
  rw [h]
  rfl

/-- An edge is not followed again. -/
theorem follow_of_followed (h : t.visits.followed u v = true) : t.follow g u v = t := by
  unfold follow
  rw [if_pos h]

/-- Following a new edge queues its target if that was not entered, and nothing else. -/
theorem mem_queue_follow (h : t.visits.followed u v = false) {n : BlockId} :
    n ∈ (t.follow g u v).queue ↔ n ∈ t.queue ∨ n = v ∧ t.visits.entered v = false := by
  rw [follow_of_not_followed h]
  dsimp only
  by_cases hv : t.visits.entered v = true <;> simp [hv]

/-- Following an edge takes nothing back. -/
theorem grows_follow (g : Graph) (t : Traversal) (u v : BlockId) : t.Grows (t.follow g u v) := by
  cases h : t.visits.followed u v with
  | true =>
    rw [follow_of_followed h]
    exact .refl t
  | false =>
    have hvisits : (t.follow g u v).visits = t.visits.advance g u v := by
      rw [follow_of_not_followed h]
    constructor
    case followed =>
      intro a b hab
      rw [hvisits, Visits.followed_advance]
      exact .inl hab
    case queue => exact fun n hn => (mem_queue_follow h).2 (.inl hn)
    case entered =>
      intro n hn
      rw [hvisits, Visits.entered_advance]
      exact .inl hn
    case fresh =>
      intro n hn
      rw [hvisits, Visits.entered_advance] at hn
      rw [mem_queue_follow h]
      rcases hn with hn | rfl
      · exact .inl hn
      · cases hv : t.visits.entered n with
        | true => exact .inl rfl
        | false => exact .inr (.inr ⟨rfl, rfl⟩)

/-- An edge that is followed is on record. -/
theorem followed_follow : (t.follow g u v).visits.followed u v = true := by
  cases h : t.visits.followed u v with
  | true =>
    rw [follow_of_followed h]
    exact h
  | false =>
    rw [follow_of_not_followed h]
    exact Visits.followed_advance.2 (.inr ⟨rfl, rfl⟩)

/-- Following an edge of an entered block keeps a traversal sound. -/
theorem Sound.follow (h : t.Sound g start) (hu : t.visits.entered u = true) (huv : g.Adj u v) :
    (t.follow g u v).Sound g start := by
  cases hf : t.visits.followed u v with
  | true =>
    rw [follow_of_followed hf]
    exact h
  | false =>
    have hgrows := grows_follow g t u v
    have hqueue := fun n => mem_queue_follow (g := g) hf (n := n)
    rw [follow_of_not_followed hf] at hgrows hqueue ⊢
    constructor
    -- what was entered: the target is new at most, and it is reached through the source
    case noted => exact h.noted.advance u v
    case start_entered => exact hgrows.entered start h.start_entered
    case reached =>
      intro n hn
      rcases Visits.entered_advance.1 hn with hn | rfl
      · exact h.reached n hn
      · exact (h.reached u hu).tail huv
    case queued =>
      intro n hn
      rcases (hqueue n).1 hn with hn | ⟨rfl, -⟩
      · exact hgrows.entered n (h.queued n hn)
      · exact Visits.entered_advance.2 (.inr rfl)
    -- what was followed: the edge is listed last, and it was not listed before
    case followed_iff =>
      intro a b
      rw [Visits.followed_advance, h.followed_iff, List.mem_append, List.mem_singleton,
        Edge.mk.injEq]
    case adj =>
      intro e he
      rcases List.mem_append.1 he with he | he
      · obtain ⟨hadj, hsource, htarget⟩ := h.adj e he
        exact ⟨hadj, hgrows.entered _ hsource, hgrows.entered _ htarget⟩
      · rw [List.mem_singleton.1 he]
        exact ⟨huv, hgrows.entered u hu, Visits.entered_advance.2 (.inr rfl)⟩
    case nodup =>
      refine List.Nodup.append h.nodup (List.nodup_singleton _) (List.disjoint_singleton.2 ?_)
      intro hmem
      rw [(h.followed_iff u v).2 hmem] at hf
      exact absurd hf (by decide)

/-! ## One block -/

/-- Following edges of an entered block in turn keeps a traversal sound, and all of them are
followed. -/
theorem Sound.foldl_follow (h : t.Sound g start) (hu : t.visits.entered u = true)
    (vs : List BlockId) (hvs : ∀ v ∈ vs, g.Adj u v) :
    (vs.foldl (Traversal.follow g u) t).Sound g start ∧
      t.Grows (vs.foldl (Traversal.follow g u) t) ∧
      ∀ v ∈ vs, (vs.foldl (Traversal.follow g u) t).visits.followed u v = true := by
  induction vs generalizing t with
  | nil => exact ⟨h, .refl t, fun v hv => absurd hv List.not_mem_nil⟩
  | cons v vs ih =>
    have hgrows := grows_follow g t u v
    obtain ⟨hsound, hgrows', hall⟩ := ih (h.follow hu (hvs v List.mem_cons_self))
      (hgrows.entered u hu) (fun w hw => hvs w (List.mem_cons_of_mem _ hw))
    rw [List.foldl_cons]
    refine ⟨hsound, hgrows.trans hgrows', ?_⟩
    intro w hw
    rcases List.mem_cons.1 hw with rfl | hw
    · exact hgrows'.followed u w followed_follow
    · exact hall w hw

/-- A block that is taken from the queue was entered, and a traversal without it is still sound. -/
theorem Sound.pop {n : BlockId} {rest : List BlockId} (h : t.Sound g start)
    (hqueue : t.queue = n :: rest) :
    t.visits.entered n = true ∧ Sound g start { t with queue := rest } := by
  constructor
  · refine h.queued n ?_
    rw [hqueue]
    exact List.mem_cons_self
  · refine { h with queued := fun m hm => h.queued m ?_ }
    rw [hqueue]
    exact List.mem_cons_of_mem _ hm

/-- Taking a block from the queue and following its edges leaves every entered block queued or
expanded. -/
theorem settled_step {n : BlockId} {rest : List BlockId} (hqueue : t.queue = n :: rest)
    (h : t.Settled g) {t' : Traversal} (hgrows : Grows { t with queue := rest } t')
    (hn : t'.Expanded g n) : t'.Settled g := by
  intro m hm
  rcases hgrows.fresh m hm with hm | hm
  · rcases h m hm with hmem | hexp
    · rw [hqueue] at hmem
      rcases List.mem_cons.1 hmem with rfl | hmem
      · exact .inr hn
      · exact .inl (hgrows.queue m hmem)
    · exact .inr (fun v hv => hgrows.followed m v (hexp v hv))
  · exact .inl hm

/-! ## The whole traversal -/

/-- A traversal ends with an empty queue, sound and with nothing left to follow. -/
theorem run_spec (h : t.Sound g start) (hs : t.Settled g) :
    (run g t).Sound g start ∧ (run g t).queue = [] ∧
      ∀ n, (run g t).visits.entered n = true → (run g t).Expanded g n := by
  fun_induction run g t with
  | case1 t hqueue =>
    refine ⟨h, hqueue, fun n hn => (hs n hn).resolve_left ?_⟩
    rw [hqueue]
    exact List.not_mem_nil
  | case2 t n rest hqueue ih =>
    obtain ⟨hentered, hrest⟩ := h.pop hqueue
    -- all edges of the block are followed before the next block is taken from the queue
    obtain ⟨hsound, hgrows, hall⟩ :=
      hrest.foldl_follow hentered (g.successors n) (fun _ hv => hv)
    exact ih hsound (settled_step hqueue hs hgrows hall)

/-- A traversal begins with its start entered and queued, and nothing followed. -/
theorem sound_start (g : Graph) (start : BlockId) :
    Sound g start ⟨Visits.empty.enter g start, [], [start]⟩ := by
  have hentered : ∀ n, (Visits.empty.enter g start).entered n = true ↔ n = start := by
    intro n
    rw [Visits.entered_enter]
    exact or_iff_right Bool.false_ne_true
  constructor
  case noted => exact (Visits.noted_empty g).enter start
  case start_entered => exact (hentered start).2 rfl
  case reached =>
    intro n hn
    rw [(hentered n).1 hn]
    exact .refl
  case queued => exact fun n hn => (hentered n).2 (List.mem_singleton.1 hn)
  case followed_iff =>
    intro u v
    dsimp only
    rw [Visits.followed_enter]
    exact iff_of_false Bool.false_ne_true List.not_mem_nil
  case adj => exact fun e he => absurd he List.not_mem_nil
  case nodup => exact List.nodup_nil

/-- At the beginning the only block that was entered is queued. -/
theorem settled_start (g : Graph) (start : BlockId) :
    Settled g ⟨Visits.empty.enter g start, [], [start]⟩ := by
  intro n hn
  rcases Visits.entered_enter.1 hn with hn | rfl
  · exact absurd hn Bool.false_ne_true
  · exact .inl List.mem_cons_self

end Traversal

namespace Graph

variable (g : Graph) (start : BlockId)

/-- A traversal from a block ends sound, with an empty queue and with nothing left to follow. -/
theorem traverse_spec :
    (g.traverse start).Sound g start ∧ (g.traverse start).queue = [] ∧
      ∀ n, (g.traverse start).visits.entered n = true → (g.traverse start).Expanded g n :=
  Traversal.run_spec (Traversal.sound_start g start) (Traversal.settled_start g start)

/-- A traversal enters what its start reaches. -/
theorem entered_traverse {n : BlockId} :
    (g.traverse start).visits.entered n = true ↔ g.Reach start n := by
  obtain ⟨hsound, -, hexpanded⟩ := g.traverse_spec start
  refine ⟨hsound.reached n, fun hn => ?_⟩
  refine hn.closed (p := fun n => (g.traverse start).visits.entered n = true) ?_
    hsound.start_entered
  intro u v hu huv
  exact (hsound.adj ⟨u, v⟩ ((hsound.followed_iff u v).1 (hexpanded u hu v huv))).2.2

/-- A traversal lists the edges between the blocks that its start reaches. -/
theorem mem_edges_traverse {u v : BlockId} :
    Edge.mk u v ∈ (g.traverse start).edges ↔ g.Reach start u ∧ g.Adj u v := by
  obtain ⟨hsound, -, hexpanded⟩ := g.traverse_spec start
  constructor
  · intro h
    obtain ⟨hadj, hu, -⟩ := hsound.adj _ h
    exact ⟨hsound.reached u hu, hadj⟩
  · rintro ⟨hu, huv⟩
    exact (hsound.followed_iff u v).1 (hexpanded u ((g.entered_traverse start).2 hu) v huv)

/-- From any block of a built graph, a traversal ends with nothing left to do. It has followed each
edge from a reachable block once and no other. Its record has just these edges as followed, just the
reachable blocks as entered, and as visited those that are reachable with all their predecessors. -/
theorem traverse_follows_reachable_edges_once (hg : g.Built) :
    (g.traverse start).queue = [] ∧
      (g.traverse start).edges.Nodup ∧
      (∀ u v, Edge.mk u v ∈ (g.traverse start).edges ↔
        g.Reach start u ∧ v ∈ g.successors u) ∧
      (∀ u v, (g.traverse start).visits.followed u v = true ↔
        g.Reach start u ∧ v ∈ g.successors u) ∧
      (∀ n, (g.traverse start).visits.entered n = true ↔ g.Reach start n) ∧
      (∀ n, (g.traverse start).visits.visited n = true ↔
        g.Reach start n ∧ ∀ p ∈ g.predecessors n, g.Reach start p) := by
  obtain ⟨hsound, hqueue, -⟩ := g.traverse_spec start
  have hfollowed : ∀ u v, (g.traverse start).visits.followed u v = true ↔
      g.Reach start u ∧ g.Adj u v :=
    fun u v => (hsound.followed_iff u v).trans (g.mem_edges_traverse start)
  refine ⟨hqueue, hsound.nodup, fun u v => g.mem_edges_traverse start, hfollowed,
    fun n => g.entered_traverse start, fun n => ?_⟩
  rw [Visits.visited_iff hsound.noted, g.entered_traverse start]
  refine and_congr_right (fun _ => forall₂_congr (fun p hp => ?_))
  rw [hfollowed]
  exact and_iff_left ((hg.linked.mem_predecessors_iff p n).1 hp)

/-- A cycle through a block that has an edge to itself and one from a block out of reach. -/
def sideEntrance : Graph := ofEdges [⟨0, 1⟩, ⟨1, 1⟩, ⟨1, 0⟩, ⟨2, 1⟩]

/-- From the cycle, the edge of the block out of reach is not followed, so that the block it leads
to is entered and yet not visited. -/
theorem traverse_follows_reachable_edges_once_sideEntrance :
    sideEntrance.Built ∧
      (sideEntrance.traverse 0).queue = [] ∧
      Edge.mk 1 1 ∈ (sideEntrance.traverse 0).edges ∧
      Edge.mk 2 1 ∉ (sideEntrance.traverse 0).edges ∧
      (sideEntrance.traverse 0).visits.entered 1 = true ∧
      (sideEntrance.traverse 0).visits.visited 0 = true ∧
      (sideEntrance.traverse 0).visits.visited 1 = false := by
  have hbuilt : sideEntrance.Built := built_ofEdges _
  have hreach : sideEntrance.Reach 0 1 := .single (adj_ofEdges.2 (by decide))
  have hnot : ¬ sideEntrance.Reach 0 2 := by
    intro h
    -- no edge leads to block 2
    refine h.closed (p := fun n => n ≠ 2) (fun m n _ hadj => ?_) (by decide) rfl
    rintro rfl
    have hedge := adj_ofEdges.1 hadj
    simp at hedge
  have hpreds : sideEntrance.predecessors 0 = [1] := by decide
  obtain ⟨hqueue, -, hedges, -, hentered, hvisited⟩ :=
    traverse_follows_reachable_edges_once sideEntrance 0 hbuilt
  refine ⟨hbuilt, hqueue, (hedges 1 1).2 ⟨hreach, by decide⟩, fun h => hnot ((hedges 2 1).1 h).1,
    (hentered 1).2 hreach, (hvisited 0).2 ⟨.refl, ?_⟩, Bool.eq_false_iff.2 ?_⟩
  · intro p hp
    rw [hpreds, List.mem_singleton] at hp
    rw [hp]
    exact hreach
  · intro h
    exact hnot (((hvisited 1).1 h).2 2 (by decide))

end Graph

end StackFlow
