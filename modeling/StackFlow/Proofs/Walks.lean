import Mathlib.Data.List.Chain
import Mathlib.Data.List.Nodup
import Mathlib.Data.Fintype.EquivFin
import Mathlib.Order.WellFounded
import StackFlow.Proofs.GraphConstruction
import StackFlow.Proofs.LeafPaths

/-!
# Walks

A walk is the sequence of blocks that one passes along edges, with repetition or without. What a
walk reaches a walk without repetition reaches too (`Reach.exists_simple_walk`), so the leaves at
which the paths from a block end are the leaves that it reaches (`exists_leafPath_iff`). In a graph
without cycles all walks are of this kind, every walk goes on to a leaf, and every block is reached
from one without predecessors.
-/

namespace StackFlow.Graph

/-- A sequence of blocks along edges from `s` to `n`. -/
structure IsWalk (g : Graph) (s n : BlockId) (p : Path) : Prop where
  /-- The walk begins at `s`. -/
  head : p.head? = some s
  /-- Each next block is a successor of the one before. -/
  steps : p.IsChain g.Adj
  /-- The walk ends at `n`. -/
  last : p.getLast? = some n

/-- No block is on a cycle. -/
def Acyclic (g : Graph) : Prop := ∀ n, ¬ g.OnCycle n

variable {g : Graph} {s m n : BlockId} {p : Path}

/-- A block is a walk to itself. -/
theorem isWalk_singleton (g : Graph) (s : BlockId) : g.IsWalk s s [s] :=
  ⟨rfl, List.isChain_singleton s, rfl⟩

/-- A walk is its start and what follows. -/
theorem IsWalk.exists_eq_cons (h : g.IsWalk s n p) : ∃ t, p = s :: t := by
  cases p with
  | nil => exact absurd h.head (by simp)
  | cons a t =>
    have ha : a = s := by simpa using h.head
    exact ⟨t, by rw [ha]⟩

/-- A walk to another block takes an edge. -/
theorem IsWalk.two_le_length (h : g.IsWalk s n p) (hne : s ≠ n) : 2 ≤ p.length := by
  obtain ⟨t, rfl⟩ := h.exists_eq_cons
  cases t with
  | nil => exact absurd (by simpa using h.last) hne
  | cons a t => simp

/-- A walk from a block to itself that passes no block twice takes no edge. -/
theorem IsWalk.eq_singleton (h : g.IsWalk s s p) (hnodup : p.Nodup) : p = [s] := by
  obtain ⟨t, rfl⟩ := h.exists_eq_cons
  cases t with
  | nil => rfl
  | cons a t =>
    have hlast : (a :: t).getLast? = some s := by
      rw [← List.getLast?_cons_cons]
      exact h.last
    exact absurd (List.mem_of_getLast? hlast) (List.nodup_cons.1 hnodup).1

/-- Two walks, the second from where the first ends. -/
theorem IsWalk.append {t : Path} (hp : g.IsWalk s m p) (hq : g.IsWalk m n (m :: t)) :
    g.IsWalk s n (p ++ t) := by
  obtain ⟨hfirst, hsteps⟩ := List.isChain_cons.1 hq.steps
  refine ⟨?_, List.isChain_append.2 ⟨hp.steps, hsteps, ?_⟩, ?_⟩
  · obtain ⟨rest, rfl⟩ := hp.exists_eq_cons
    rfl
  · intro m' hm' a ha
    obtain rfl : m = m' := by simpa [hp.last] using hm'
    exact hfirst a ha
  · have hlast := hq.last
    rw [List.getLast?_cons] at hlast
    rw [List.getLast?_append, hp.last]
    cases ht : t.getLast? with
    | none => rw [ht] at hlast; exact hlast
    | some b => rw [ht] at hlast; exact hlast

/-- A walk goes on along an edge. -/
theorem IsWalk.concat (h : g.IsWalk s m p) (hadj : g.Adj m n) : g.IsWalk s n (p ++ [n]) :=
  h.append ⟨rfl, List.isChain_pair.2 hadj, rfl⟩

/-- A beginning of a walk is a walk to its own last block. -/
theorem IsWalk.of_prefix {q : Path} (h : g.IsWalk s n p) (hq : q <+: p)
    (hm : q.getLast? = some m) : g.IsWalk s m q := by
  obtain ⟨after, rfl⟩ := hq
  have hne : q ≠ [] := by
    rintro rfl
    exact absurd hm (by simp)
  refine ⟨?_, h.steps.left_of_append, hm⟩
  rw [← List.head?_append_of_ne_nil q hne]
  exact h.head

/-- The end of a walk is reached. -/
theorem IsWalk.reach (h : g.IsWalk s n p) : g.Reach s n := by
  induction p using List.reverseRecOn generalizing n with
  | nil => exact absurd h.last (by simp)
  | append_singleton p b ih =>
    obtain rfl : b = n := by simpa using h.last
    cases hlast : p.getLast? with
    | none =>
      -- the walk does not leave its start
      rw [List.getLast?_eq_none_iff.1 hlast] at h
      obtain rfl : b = s := by simpa using h.head
      exact .refl
    | some m =>
      have hbefore : g.IsWalk s m p := h.of_prefix ⟨[b], rfl⟩ hlast
      have hadj : g.Adj m b := (List.isChain_append.1 h.steps).2.2 m hlast b rfl
      exact (ih hbefore).tail hadj

/-- What is reached is reached without passing a block twice. -/
theorem Reach.exists_simple_walk (h : g.Reach s n) : ∃ p, g.IsWalk s n p ∧ p.Nodup := by
  induction h with
  | refl => exact ⟨[s], isWalk_singleton g s, List.nodup_singleton s⟩
  | @tail m n _ hadj ih =>
    obtain ⟨p, hp, hnodup⟩ := ih
    by_cases hn : n ∈ p
    · -- the walk has met the block before and is cut off there
      obtain ⟨before, after, rfl⟩ := List.append_of_mem hn
      have hcut : before ++ [n] <+: before ++ n :: after := ⟨after, by simp⟩
      exact ⟨before ++ [n], hp.of_prefix hcut List.getLast?_concat,
        hnodup.sublist hcut.sublist⟩
    · refine ⟨p ++ [n], hp.concat hadj, ?_⟩
      exact List.Nodup.append hnodup (List.nodup_singleton n) (List.disjoint_singleton.2 hn)

/-! ## Walks to leaves -/

/-- The paths to leaves are the walks to leaves that take an edge and repeat no block. -/
theorem isLeafPath_iff : g.IsLeafPath s p ↔
    2 ≤ p.length ∧ p.Nodup ∧ ∃ n, g.IsWalk s n p ∧ g.successors n = [] := by
  constructor
  · rintro ⟨hlen, hhead, hsteps, hnodup, n, hlast, hleaf⟩
    exact ⟨hlen, hnodup, n, ⟨hhead, hsteps, hlast⟩, hleaf⟩
  · rintro ⟨hlen, hnodup, n, hwalk, hleaf⟩
    exact ⟨hlen, hwalk.head, hwalk.steps, hnodup, n, hwalk.last, hleaf⟩

/-- The paths from a block that has successors end at the leaves that it reaches. -/
theorem exists_leafPath_iff :
    (∃ p, g.IsLeafPath s p ∧ p.getLast? = some n) ↔
      g.successors s ≠ [] ∧ g.Reach s n ∧ g.successors n = [] := by
  constructor
  · rintro ⟨p, hp, hlast⟩
    obtain ⟨hlen, -, n', hwalk, hleaf⟩ := isLeafPath_iff.1 hp
    obtain rfl : n' = n := Option.some.inj (hwalk.last.symm.trans hlast)
    refine ⟨?_, hwalk.reach, hleaf⟩
    -- the second block of the path is a successor of its first
    obtain ⟨t, rfl⟩ := hwalk.exists_eq_cons
    cases t with
    | nil => exact absurd hlen (by simp)
    | cons b t => exact List.ne_nil_of_mem (List.isChain_cons_cons.1 hwalk.steps).1
  · rintro ⟨hs, hreach, hleaf⟩
    obtain ⟨p, hwalk, hnodup⟩ := hreach.exists_simple_walk
    have hne : s ≠ n := by
      rintro rfl
      exact hs hleaf
    exact ⟨p, isLeafPath_iff.2 ⟨hwalk.two_le_length hne, hnodup, n, hwalk, hleaf⟩, hwalk.last⟩

/-! ## Walks in a graph without cycles -/

/-- A graph whose edges ascend has no cycles. -/
theorem acyclic_of_lt (h : ∀ m n, g.Adj m n → m < n) : g.Acyclic := by
  have hlt : ∀ m n, Relation.TransGen g.Adj m n → m < n := by
    intro m n hmn
    induction hmn with
    | single hadj => exact h _ _ hadj
    | tail _ hadj ih => exact Int64.lt_trans ih (h _ _ hadj)
  exact fun n hn => Int64.lt_irrefl (hlt n n hn)

/-- Without cycles no walk passes a block twice. -/
theorem Acyclic.nodup_of_isWalk (h : g.Acyclic) (hp : g.IsWalk s n p) : p.Nodup := by
  have hchain : p.IsChain (Relation.TransGen g.Adj) :=
    hp.steps.imp (fun _ _ => Relation.TransGen.single)
  refine (List.isChain_iff_pairwise.1 hchain).imp ?_
  rintro a b hab rfl
  exact h a hab

/-- Without cycles there is no endless walk, neither along the edges nor against them. -/
theorem Acyclic.wellFounded (h : g.Acyclic) :
    WellFounded (Relation.TransGen g.Adj) ∧
      WellFounded (fun t m => Relation.TransGen g.Adj m t) := by
  have hinj : Function.Injective (fun n : BlockId => n.toBitVec.toFin) :=
    fun _ _ hab => Int64.toBitVec_inj.1 (BitVec.eq_of_toFin_eq hab)
  have hfinite : Finite BlockId := Finite.of_injective _ hinj
  have hirrefl : Std.Irrefl (Relation.TransGen g.Adj) := ⟨h⟩
  have hirrefl' : Std.Irrefl (fun t m => Relation.TransGen g.Adj m t) := ⟨h⟩
  have htrans : IsTrans BlockId (fun t m => Relation.TransGen g.Adj m t) :=
    ⟨fun _ _ _ hab hbc => hbc.trans hab⟩
  exact ⟨Finite.wellFounded_of_trans_of_irrefl _, Finite.wellFounded_of_trans_of_irrefl _⟩

/-- Without cycles every block reaches a leaf. -/
theorem Acyclic.exists_leaf (h : g.Acyclic) (n : BlockId) :
    ∃ l, g.Reach n l ∧ g.successors l = [] := by
  induction n using h.wellFounded.2.induction with
  | h n ih =>
    by_cases hleaf : g.successors n = []
    · exact ⟨n, .refl, hleaf⟩
    · obtain ⟨t, ht⟩ := List.exists_mem_of_ne_nil _ hleaf
      obtain ⟨l, hl, hlleaf⟩ := ih t (.single ht)
      exact ⟨l, .head ht hl, hlleaf⟩

/-- Without cycles every node is reached from one without predecessors. -/
theorem Acyclic.exists_root (h : g.Acyclic) (hg : g.Linked) {n : BlockId}
    (hn : g.hasNode n = true) :
    ∃ r, g.hasNode r = true ∧ g.predecessors r = [] ∧ g.Reach r n := by
  induction n using h.wellFounded.1.induction with
  | h n ih =>
    cases hpreds : g.predecessors n with
    | nil => exact ⟨n, hn, hpreds, .refl⟩
    | cons u us =>
      have hu : g.Adj u n := by
        rw [← hg.mem_predecessors_iff, hpreds]
        exact List.mem_cons_self
      obtain ⟨r, hr, hroot, hreach⟩ := ih u (.single hu) (hasNode_of_adj hu)
      exact ⟨r, hr, hroot, hreach.tail hu⟩

end StackFlow.Graph
