import Mathlib.Data.List.Permutation
import Mathlib.Order.Lattice.Nat
import StackFlow.Proofs.EdgeTraversal
import StackFlow.Proofs.Walks

/-!
# A traversal goes breadth first

The distance of a block is the fewest edges of a walk to it (`Graph.distance`). A traversal follows
the edges of near blocks before those of far ones, and it enters each block from one that is a step
nearer to the start (`traverse_breadth_first`).

`Layered` is the invariant, for a level `k`: all blocks up to distance `k` were entered, the edges
followed leave such blocks, and the queue holds blocks of distance `k` and behind them blocks of
distance `k + 1`. A block that is entered from distance `k` for the first time is thus neither
nearer than `k + 1` nor farther, and it belongs at the end of the queue (`Layered.follow`). When the
queue comes to its first block of distance `k + 1`, every block of distance `k` has been expanded,
and so everything at distance `k + 1` was entered (`Layered.raise`).
-/

namespace StackFlow

/-! ## Distance -/

namespace Graph

variable {g : Graph} {s u v n : BlockId} {p : Path}

/-- The numbers of edges that the walks from `s` to `n` take. -/
def walkLengths (g : Graph) (s n : BlockId) : Set Nat :=
  {k | ∃ p, g.IsWalk s n p ∧ p.length = k + 1}

/-- The fewest edges that a walk from `s` to `n` takes, if there is one. -/
noncomputable def distance (g : Graph) (s n : BlockId) : Nat := sInf (g.walkLengths s n)

/-- The distance of a reachable block is the length of a shortest walk. -/
theorem isLeast_distance (h : g.Reach s n) : IsLeast (g.walkLengths s n) (g.distance s n) := by
  obtain ⟨p, hp, -⟩ := h.exists_simple_walk
  obtain ⟨t, rfl⟩ := hp.exists_eq_cons
  have hne : (g.walkLengths s n).Nonempty := ⟨t.length, s :: t, hp, rfl⟩
  exact ⟨Nat.sInf_mem hne, fun k hk => Nat.sInf_le hk⟩

/-- A block is at distance zero from itself. -/
theorem distance_self (g : Graph) (s : BlockId) : g.distance s s = 0 :=
  Nat.sInf_eq_zero.2 (.inl ⟨[s], isWalk_singleton g s, rfl⟩)

/-- An edge leads at most one step farther away. -/
theorem distance_le_succ (hu : g.Reach s u) (huv : g.Adj u v) :
    g.distance s v ≤ g.distance s u + 1 := by
  obtain ⟨p, hp, hlength⟩ := (isLeast_distance hu).1
  refine Nat.sInf_le ⟨p ++ [v], hp.concat huv, ?_⟩
  rw [List.length_append, hlength, List.length_singleton]

/-- A walk that takes an edge is a walk to the block before its last, and an edge. -/
theorem IsWalk.exists_last_step (h : g.IsWalk s n p) (hlength : 2 ≤ p.length) :
    ∃ u q, p = q ++ [n] ∧ g.IsWalk s u q ∧ g.Adj u n := by
  obtain rfl | ⟨q, b, rfl⟩ := List.eq_nil_or_concat' p
  · exact absurd hlength (by simp)
  obtain rfl : b = n := by simpa using h.last
  have hq : q ≠ [] := by
    rintro rfl
    exact absurd hlength (by simp)
  have hu := List.getLast?_eq_some_getLast hq
  exact ⟨_, q, rfl, h.of_prefix ⟨[b], rfl⟩ hu, (List.isChain_append.1 h.steps).2.2 _ hu b rfl⟩

/-- A block at a distance has an edge from a block one step nearer. -/
theorem exists_adj_of_distance_eq_succ {k : Nat} (hn : g.Reach s n)
    (hk : g.distance s n = k + 1) : ∃ u, g.Reach s u ∧ g.Adj u n ∧ g.distance s u = k := by
  obtain ⟨p, hp, hlength⟩ := (isLeast_distance hn).1
  obtain ⟨u, q, rfl, hq, hun⟩ := hp.exists_last_step (by omega)
  rw [List.length_append, List.length_singleton] at hlength
  have hle : g.distance s u ≤ k := Nat.sInf_le ⟨q, hq, by omega⟩
  have hge := distance_le_succ hq.reach hun
  exact ⟨u, hq.reach, hun, by omega⟩

end Graph

/-! ## The levels of a traversal -/

namespace Traversal

variable {g : Graph} {start u v : BlockId} {t : Traversal} {k : Nat}

/-- The first edge of a list into a block comes from a block one step nearer to the start. -/
def EnteredFromNearer (g : Graph) (start : BlockId) (es : List Edge) (n : BlockId) : Prop :=
  ∃ e, es.find? (fun e => e.target = n) = some e ∧
    g.distance start n = g.distance start e.source + 1

/-- The traversal is at the edges of blocks at distance `k`. -/
structure Layered (g : Graph) (start : BlockId) (k : Nat) (t : Traversal) : Prop where
  /-- Everything up to this distance was entered. -/
  near : ∀ n, g.Reach start n → g.distance start n ≤ k → t.visits.entered n = true
  /-- What is queued is at this distance or one step farther away. -/
  level : ∀ n ∈ t.queue, k ≤ g.distance start n ∧ g.distance start n ≤ k + 1
  /-- Nearer blocks are queued before farther ones. -/
  queue_ascends : t.queue.Pairwise (fun m n => g.distance start m ≤ g.distance start n)
  /-- No edge of a block farther away was followed. -/
  source_le : ∀ e ∈ t.edges, g.distance start e.source ≤ k
  /-- The edges of nearer blocks were followed before those of farther ones. -/
  edges_ascend : t.edges.Pairwise
    (fun e e' => g.distance start e.source ≤ g.distance start e'.source)
  /-- Each block was entered from a block one step nearer. -/
  entered_from : ∀ n, t.visits.entered n = true → n ≠ start → EnteredFromNearer g start t.edges n

/-- Edges listed behind do not change which one is the first into a block. -/
theorem EnteredFromNearer.append {es : List Edge} {n : BlockId}
    (h : EnteredFromNearer g start es n) (more : List Edge) :
    EnteredFromNearer g start (es ++ more) n := by
  obtain ⟨e, he, hdistance⟩ := h
  refine ⟨e, ?_, hdistance⟩
  rw [List.find?_append, he, Option.some_or]

/-- Following an edge of a block of the level keeps the levels. -/
theorem Layered.follow (h : t.Layered g start k) (hsound : t.Sound g start)
    (hu : t.visits.entered u = true) (hk : g.distance start u = k) (huv : g.Adj u v) :
    (t.follow g u v).Layered g start k := by
  cases hf : t.visits.followed u v with
  | true =>
    rw [follow_of_followed hf]
    exact h
  | false =>
    -- a block that is not entered yet is beyond the level, and an edge leads no farther than that
    have hreach : g.Reach start v := (hsound.reached u hu).tail huv
    have hdistance : t.visits.entered v = false → g.distance start v = k + 1 := by
      intro hv
      have hle := Graph.distance_le_succ (hsound.reached u hu) huv
      have hlt : ¬ g.distance start v ≤ k := by
        intro hle
        rw [h.near v hreach hle] at hv
        exact absurd hv (by decide)
      omega
    have hgrows := grows_follow g t u v
    have hqueue := fun n => mem_queue_follow (g := g) hf (n := n)
    rw [follow_of_not_followed hf] at hgrows hqueue ⊢
    constructor
    case near => exact fun n hn hle => hgrows.entered n (h.near n hn hle)
    case level =>
      intro n hn
      rcases (hqueue n).1 hn with hn | ⟨rfl, hv⟩
      · exact h.level n hn
      · rw [hdistance hv]
        omega
    case queue_ascends =>
      dsimp only
      split
      next => exact h.queue_ascends
      next hv =>
        refine List.pairwise_append.2 ⟨h.queue_ascends, List.pairwise_singleton _ _, ?_⟩
        intro m hm n hn
        rw [List.mem_singleton.1 hn, hdistance (Bool.eq_false_iff.2 hv)]
        exact (h.level m hm).2
    case source_le =>
      intro e he
      rcases List.mem_append.1 he with he | he
      · exact h.source_le e he
      · rw [List.mem_singleton.1 he]
        exact hk.le
    case edges_ascend =>
      refine List.pairwise_append.2 ⟨h.edges_ascend, List.pairwise_singleton _ _, ?_⟩
      intro e he e' he'
      rw [List.mem_singleton.1 he', hk]
      exact h.source_le e he
    case entered_from =>
      intro n hn hne
      cases hold : t.visits.entered n with
      | true => exact (h.entered_from n hold hne).append _
      | false =>
        obtain rfl : n = v := by
          refine (Visits.entered_advance.1 hn).resolve_left ?_
          rw [hold]
          exact Bool.false_ne_true
        -- no edge into a block that was not entered has been followed
        have hnone : t.edges.find? (fun e => e.target = n) = none := by
          rw [List.find?_eq_none]
          intro e he htarget
          rw [← of_decide_eq_true htarget, (hsound.adj e he).2.2] at hold
          exact absurd hold (by decide)
        refine ⟨⟨u, n⟩, ?_, ?_⟩
        · rw [List.find?_append, hnone, Option.none_or, List.find?_singleton]
          simp
        · rw [hdistance hold, hk]

/-- Following edges of a block of the level in turn keeps the levels. -/
theorem Layered.foldl_follow (h : t.Layered g start k) (hsound : t.Sound g start)
    (hu : t.visits.entered u = true) (hk : g.distance start u = k) (vs : List BlockId)
    (hvs : ∀ v ∈ vs, g.Adj u v) :
    (vs.foldl (Traversal.follow g u) t).Layered g start k := by
  induction vs generalizing t with
  | nil => exact h
  | cons v vs ih =>
    have huv := hvs v List.mem_cons_self
    exact ih (h.follow hsound hu hk huv) (hsound.follow hu huv)
      ((grows_follow g t u v).entered u hu) (fun w hw => hvs w (List.mem_cons_of_mem _ hw))

/-- When only blocks beyond the level are queued, the next level begins. -/
theorem Layered.raise (h : t.Layered g start k) (hsound : t.Sound g start) (hs : t.Settled g)
    (hqueue : ∀ n ∈ t.queue, g.distance start n = k + 1) : t.Layered g start (k + 1) := by
  refine { h with
    near := fun n hn hle => ?_
    level := fun n hn => by rw [hqueue n hn]; omega
    source_le := fun e he => (h.source_le e he).trans (Nat.le_succ k) }
  by_cases hbelow : g.distance start n ≤ k
  · exact h.near n hn hbelow
  · -- a block one step nearer was entered, and it is queued no more
    obtain ⟨u, hu, hun, hdistance⟩ :=
      Graph.exists_adj_of_distance_eq_succ (k := k) hn (by omega)
    have hexpanded : t.Expanded g u := by
      refine (hs u (h.near u hu hdistance.le)).resolve_left (fun hmem => ?_)
      have hbeyond := hqueue u hmem
      omega
    exact (hsound.adj ⟨u, n⟩ ((hsound.followed_iff u n).1 (hexpanded n hun))).2.2

/-- The level is the distance of the block that is taken from the queue. -/
theorem Layered.pop {n : BlockId} {rest : List BlockId} (h : t.Layered g start k)
    (hsound : t.Sound g start) (hs : t.Settled g) (hqueue : t.queue = n :: rest) :
    Layered g start (g.distance start n) { t with queue := rest } := by
  have hfirst : ∀ m ∈ t.queue, g.distance start n ≤ g.distance start m := by
    rw [hqueue]
    refine List.forall_mem_cons.2 ⟨le_rfl, ?_⟩
    exact (List.pairwise_cons.1 (hqueue ▸ h.queue_ascends)).1
  have hn := h.level n (hqueue ▸ List.mem_cons_self)
  have hlevel : t.Layered g start (g.distance start n) := by
    rcases Nat.lt_or_ge k (g.distance start n) with hlt | hge
    · obtain heq : g.distance start n = k + 1 := by omega
      rw [heq]
      refine h.raise hsound hs (fun m hm => ?_)
      have hle := hfirst m hm
      have hm := h.level m hm
      omega
    · rwa [show g.distance start n = k by omega]
  refine { hlevel with level := fun m hm => hlevel.level m ?_, queue_ascends := ?_ }
  · rw [hqueue]
    exact List.mem_cons_of_mem _ hm
  · exact (List.pairwise_cons.1 (hqueue ▸ h.queue_ascends)).2

/-- The levels are kept to the end of a traversal. -/
theorem Layered.run (h : t.Layered g start k) (hsound : t.Sound g start) (hs : t.Settled g) :
    ∃ k, (run g t).Layered g start k := by
  fun_induction Traversal.run g t generalizing k with
  | case1 t hqueue => exact ⟨k, h⟩
  | case2 t n rest hqueue ih =>
    have hpopped := h.pop hsound hs hqueue
    obtain ⟨hentered, hrest⟩ := hsound.pop hqueue
    obtain ⟨hsound', hgrows, hall⟩ :=
      hrest.foldl_follow hentered (g.successors n) (fun _ hv => hv)
    exact ih (hpopped.foldl_follow hrest hentered rfl (g.successors n) (fun _ hv => hv)) hsound'
      (settled_step hqueue hs hgrows hall)

/-- A traversal begins at the level of its start. -/
theorem layered_start (g : Graph) (start : BlockId) :
    Layered g start 0 ⟨Visits.empty.enter g start, [], [start]⟩ := by
  constructor
  case near =>
    intro n hn hzero
    refine Visits.entered_enter.2 (.inr ?_)
    -- a walk that takes no edge ends where it begins
    obtain ⟨p, hp, hlength⟩ := (Graph.isLeast_distance hn).1
    obtain ⟨rest, rfl⟩ := hp.exists_eq_cons
    obtain rfl : rest = [] := by
      rw [← List.length_eq_zero_iff]
      rw [List.length_cons] at hlength
      omega
    exact (Option.some.inj hp.last).symm
  case level =>
    intro n hn
    rw [List.mem_singleton.1 hn, g.distance_self]
    omega
  case queue_ascends => exact List.pairwise_singleton _ _
  case source_le => exact fun e he => absurd he List.not_mem_nil
  case edges_ascend => exact List.Pairwise.nil
  case entered_from =>
    intro n hn hne
    rcases Visits.entered_enter.1 hn with hn | rfl
    · exact absurd hn Bool.false_ne_true
    · exact absurd rfl hne

end Traversal

namespace Graph

/-- A traversal follows edges in the order of the distances of their sources from the start, all of
which it reaches. Every other block that the start reaches is entered first from a block exactly one
step nearer. The distance is the least number of edges of a walk. -/
theorem traverse_breadth_first (g : Graph) (start : BlockId) :
    (∀ n, g.Reach start n →
      IsLeast {k | ∃ p, g.IsWalk start n p ∧ p.length = k + 1} (g.distance start n)) ∧
    (∀ e ∈ (g.traverse start).edges, g.Reach start e.source) ∧
    (g.traverse start).edges.Pairwise
      (fun e e' => g.distance start e.source ≤ g.distance start e'.source) ∧
    ∀ n, g.Reach start n → n ≠ start →
      ∃ e, (g.traverse start).edges.find? (fun e => e.target = n) = some e ∧
        g.distance start n = g.distance start e.source + 1 := by
  obtain ⟨k, hlayered⟩ := (Traversal.layered_start g start).run (Traversal.sound_start g start)
    (Traversal.settled_start g start)
  refine ⟨fun n hn => isLeast_distance hn, fun e he => ((g.mem_edges_traverse start).1 he).1,
    hlayered.edges_ascend, fun n hn hne => ?_⟩
  exact hlayered.entered_from n ((g.entered_traverse start).2 hn) hne

/-- A long way and a short one to block 3, which has an edge back to block 1. The first edge of the
long way is there twice. -/
def shortcut : Graph := ofEdges [⟨0, 1⟩, ⟨0, 1⟩, ⟨1, 2⟩, ⟨2, 3⟩, ⟨0, 3⟩, ⟨3, 1⟩]

/-- Block 3 is entered by the short way, though its edge was added after those of the long one, and
its own edge is followed before that of block 2. -/
theorem traverse_breadth_first_shortcut :
    shortcut.Reach 0 3 ∧ (3 : BlockId) ≠ 0 ∧
      (shortcut.traverse 0).edges = [⟨0, 1⟩, ⟨0, 3⟩, ⟨1, 2⟩, ⟨3, 1⟩, ⟨2, 3⟩] ∧
      shortcut.distance 0 3 = 1 ∧ shortcut.distance 0 3 ≤ shortcut.distance 0 2 := by
  have hreach : shortcut.Reach 0 3 := .single (adj_ofEdges.2 (by decide))
  have hedges : (shortcut.traverse 0).edges = [⟨0, 1⟩, ⟨0, 3⟩, ⟨1, 2⟩, ⟨3, 1⟩, ⟨2, 3⟩] := by cbv
  obtain ⟨-, -, hascend, hfirst⟩ := traverse_breadth_first shortcut 0
  obtain ⟨e, he, hdistance⟩ := hfirst 3 hreach (by decide)
  rw [hedges] at hascend he
  obtain rfl : ⟨0, 3⟩ = e := Option.some.inj he
  rw [distance_self] at hdistance
  have hlater : shortcut.distance 0 3 ≤ shortcut.distance 0 2 :=
    List.rel_of_pairwise_cons hascend.of_cons.of_cons.of_cons List.mem_cons_self
  exact ⟨hreach, by decide, hedges, hdistance, hlater⟩

end Graph

end StackFlow
