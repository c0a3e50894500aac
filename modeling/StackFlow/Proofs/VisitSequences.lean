import Mathlib.Data.List.Induction
import StackFlow.Proofs.VisitRecords

/-!
# Sequences of visits

A record of visits is kept by calls, each of which enters a block on its own or through an edge. An
edge can be followed only from a block that was entered, so that a call may be refused.
`VisitCall.entries` says which blocks a sequence of calls enters without reference to a record, and
`VisitCall.Crosses` which edges it follows. A record reflects the calls that kept it (`Reflects`):
each further call keeps this true (`Reflects.call`), so that it holds after every sequence
(`reflects_after`). A record loses nothing by further calls (`Keeps`), since a block's incoming
edges are noted once and only crossed off afterwards.
-/

namespace StackFlow

/-- A call that enters a block. -/
inductive VisitCall where
  /-- Enter a block on its own. -/
  | enter (n : BlockId)
  /-- Enter a block through an edge. -/
  | follow (source target : BlockId)

namespace VisitCall

variable {calls : List VisitCall} {c : VisitCall} {p n : BlockId}

/-- The block that a call enters after the blocks `done`, if any. Through an edge a block is entered
only from a block that was entered before. -/
def entry? (done : List BlockId) : VisitCall → Option BlockId
  | enter n => some n
  | follow source target => if source ∈ done then some target else none

/-- The blocks that calls enter, in order. -/
def entries (calls : List VisitCall) : List BlockId :=
  calls.foldl (fun done c => done ++ (c.entry? done).toList) []

/-- The edge is followed by one of the calls, at which its source was entered before. -/
def Crosses (calls : List VisitCall) (p n : BlockId) : Prop :=
  ∃ earlier, earlier ++ [follow p n] <+: calls ∧ p ∈ entries earlier

/-- A further call may enter one block more. -/
theorem entries_concat (calls : List VisitCall) (c : VisitCall) :
    entries (calls ++ [c]) = entries calls ++ (c.entry? (entries calls)).toList := by
  unfold entries
  rw [List.foldl_append]
  rfl

/-- Entering a block on its own enters it. -/
theorem entries_concat_enter (calls : List VisitCall) (n : BlockId) :
    entries (calls ++ [enter n]) = entries calls ++ [n] :=
  entries_concat calls (enter n)

/-- Following an edge from a block that was entered enters its target. -/
theorem entries_concat_follow_of_mem (hp : p ∈ entries calls) (n : BlockId) :
    entries (calls ++ [follow p n]) = entries calls ++ [n] := by
  rw [entries_concat, entry?, if_pos hp]
  rfl

/-- Following an edge from a block that was not entered enters nothing. -/
theorem entries_concat_follow_of_notMem (hp : p ∉ entries calls) (n : BlockId) :
    entries (calls ++ [follow p n]) = entries calls := by
  rw [entries_concat, entry?, if_neg hp]
  exact List.append_nil _

/-- Without calls no edge is crossed. -/
theorem not_crosses_nil : ¬ Crosses [] p n := by
  rintro ⟨earlier, hbegins, -⟩
  exact absurd (List.prefix_nil.1 hbegins) (by simp)

/-- A further call follows an edge only if it is the call for this edge and is not refused. -/
theorem crosses_concat :
    Crosses (calls ++ [c]) p n ↔ Crosses calls p n ∨ c = follow p n ∧ p ∈ entries calls := by
  unfold Crosses
  constructor
  · rintro ⟨earlier, hbegins, hp⟩
    rcases List.prefix_concat_iff.1 hbegins with heq | hbegins
    · obtain ⟨rfl, hc⟩ := List.append_inj' heq rfl
      exact .inr ⟨(List.singleton_inj.1 hc).symm, hp⟩
    · exact .inl ⟨earlier, hbegins, hp⟩
  · rintro (⟨earlier, hbegins, hp⟩ | ⟨rfl, hp⟩)
    · exact ⟨earlier, hbegins.trans (List.prefix_append calls [c]), hp⟩
    · exact ⟨calls, List.prefix_refl _, hp⟩

end VisitCall

namespace Visits

open VisitCall

variable {g : Graph} {v w u : Visits} {calls : List VisitCall} {p n s t : BlockId}

/-- The record after a call. A refused call leaves the record as it is. -/
def call (g : Graph) (v : Visits) : VisitCall → Visits
  | .enter n => v.enter g n
  | .follow source target =>
    match v.follow g source target with
    | .ok v' => v'
    | .error _ => v

/-- The record after calls on a new one. -/
def after (g : Graph) (calls : List VisitCall) : Visits := calls.foldl (call g) empty

/-- Calls after calls. -/
theorem after_append (g : Graph) (calls more : List VisitCall) :
    after g (calls ++ more) = more.foldl (call g) (after g calls) :=
  List.foldl_append

/-- A call enters a block on its own, follows an edge from a block that was entered, or is refused
because the block was not entered. -/
theorem call_cases (g : Graph) (v : Visits) (c : VisitCall) :
    (∃ n, c = .enter n ∧ v.call g c = v.enter g n) ∨
      (∃ s t, c = .follow s t ∧ v.entered s = true ∧ v.call g c = v.advance g s t) ∨
      ∃ s t, c = .follow s t ∧ ¬ v.entered s = true ∧ v.call g c = v := by
  cases c with
  | enter n => exact .inl ⟨n, rfl, rfl⟩
  | follow s t =>
    by_cases hs : v.entered s = true
    · refine .inr (.inl ⟨s, t, rfl, hs, ?_⟩)
      rw [call, follow_of_entered hs]
    · refine .inr (.inr ⟨s, t, rfl, hs, ?_⟩)
      rw [call, follow_of_not_entered hs]

/-! ## What a record says of the calls -/

/-- The record says what the calls did. -/
structure Reflects (g : Graph) (calls : List VisitCall) (v : Visits) : Prop where
  /-- The notes not crossed off are the incoming edges that were not followed. -/
  noted : v.Noted g
  /-- The trace lists the blocks entered. -/
  trace_eq : v.trace = entries calls
  /-- The blocks noted are those entered. -/
  entered_iff : ∀ n, v.entered n = true ↔ n ∈ entries calls
  /-- The notes crossed off are the edges followed. -/
  followed_iff : ∀ p n, v.followed p n = true ↔ Crosses calls p n

/-- The empty record reflects no calls. -/
theorem reflects_empty (g : Graph) : empty.Reflects g [] where
  noted := noted_empty g
  trace_eq := rfl
  entered_iff _ := iff_of_false Bool.false_ne_true List.not_mem_nil
  followed_iff _ _ := iff_of_false Bool.false_ne_true not_crosses_nil

/-- Entering a block on its own is reflected. -/
theorem Reflects.enter (h : v.Reflects g calls) (n : BlockId) :
    (v.enter g n).Reflects g (calls ++ [.enter n]) := by
  constructor
  case noted => exact h.noted.enter n
  case trace_eq =>
    rw [entries_concat_enter, ← h.trace_eq]
    rfl
  case entered_iff =>
    intro m
    rw [entered_enter, h.entered_iff, entries_concat_enter, List.mem_append, List.mem_singleton]
  case followed_iff =>
    intro p m
    rw [followed_enter, h.followed_iff, crosses_concat]
    exact (or_iff_left (by simp)).symm

/-- Following an edge from a block that was entered is reflected. -/
theorem Reflects.advance (h : v.Reflects g calls) (hs : v.entered s = true) (t : BlockId) :
    (v.advance g s t).Reflects g (calls ++ [.follow s t]) := by
  have hs' := (h.entered_iff s).1 hs
  constructor
  case noted => exact h.noted.advance s t
  case trace_eq =>
    rw [entries_concat_follow_of_mem hs', ← h.trace_eq]
    rfl
  case entered_iff =>
    intro m
    rw [entered_advance, h.entered_iff, entries_concat_follow_of_mem hs', List.mem_append,
      List.mem_singleton]
  case followed_iff =>
    intro p m
    rw [followed_advance, h.followed_iff, crosses_concat, VisitCall.follow.injEq]
    refine or_congr_right ⟨?_, ?_⟩
    · rintro ⟨rfl, rfl⟩
      exact ⟨⟨rfl, rfl⟩, hs'⟩
    · rintro ⟨⟨rfl, rfl⟩, -⟩
      exact ⟨rfl, rfl⟩

/-- A refused call enters nothing and follows nothing. -/
theorem Reflects.refused (h : v.Reflects g calls) (hs : ¬ v.entered s = true) (t : BlockId) :
    v.Reflects g (calls ++ [.follow s t]) := by
  have hs' : s ∉ entries calls := fun hmem => hs ((h.entered_iff s).2 hmem)
  constructor
  case noted => exact h.noted
  case trace_eq => rw [entries_concat_follow_of_notMem hs', h.trace_eq]
  case entered_iff =>
    intro m
    rw [entries_concat_follow_of_notMem hs', h.entered_iff]
  case followed_iff =>
    intro p m
    rw [h.followed_iff, crosses_concat]
    refine (or_iff_left ?_).symm
    rintro ⟨hc, hp⟩
    obtain ⟨rfl, rfl⟩ := VisitCall.follow.inj hc
    exact hs' hp

/-- Every call is reflected, also one that is refused. -/
theorem Reflects.call (h : v.Reflects g calls) (c : VisitCall) :
    (v.call g c).Reflects g (calls ++ [c]) := by
  rcases call_cases g v c with ⟨n, rfl, hcall⟩ | ⟨s, t, rfl, hs, hcall⟩ | ⟨s, t, rfl, hs, hcall⟩
  · rw [hcall]
    exact h.enter n
  · rw [hcall]
    exact h.advance hs t
  · rw [hcall]
    exact h.refused hs t

/-- A record reflects the calls that made it. -/
theorem reflects_after (g : Graph) (calls : List VisitCall) : (after g calls).Reflects g calls := by
  -- on the last call, since whether it is refused depends on all calls before it
  induction calls using List.reverseRecOn with
  | nil => exact reflects_empty g
  | append_singleton calls c ih =>
    rw [after_append]
    exact ih.call c

/-- An edge can be followed from the blocks that were entered. -/
theorem Reflects.exists_follow_iff (h : v.Reflects g calls) :
    (∃ v', v.follow g p n = .ok v') ↔ p ∈ entries calls := by
  rw [← h.entered_iff]
  by_cases hp : v.entered p = true
  · rw [follow_of_entered hp]
    exact iff_of_true ⟨_, rfl⟩ hp
  · rw [follow_of_not_entered hp]
    exact iff_of_false (by nofun) hp

/-- Nothing is left to visit at a block exactly if all its incoming edges were followed. -/
theorem unvisited_eq_nil_iff :
    v.unvisited g n = [] ↔ ∀ p ∈ g.predecessors n, v.followed p n = true := by
  unfold unvisited
  rw [List.filter_eq_nil_iff]
  refine forall₂_congr (fun p _ => ?_)
  rw [Bool.not_eq_true, Bool.not_eq_false']

/-! ## What further calls keep -/

/-- What the record `v` affirms of blocks and edges, the record `w` affirms as well. -/
structure Keeps (v w : Visits) : Prop where
  /-- A block entered stays entered. -/
  entered : ∀ n, v.entered n = true → w.entered n = true
  /-- An edge followed stays followed. -/
  followed : ∀ p n, v.followed p n = true → w.followed p n = true
  /-- A block visited stays visited. -/
  visited : ∀ n, v.visited n = true → w.visited n = true

/-- Where nothing is called nothing is lost. -/
theorem Keeps.refl (v : Visits) : v.Keeps v := ⟨fun _ h => h, fun _ _ h => h, fun _ h => h⟩

/-- Calls that lose nothing follow each other. -/
theorem Keeps.trans (h : v.Keeps w) (h' : w.Keeps u) : v.Keeps u where
  entered n hn := h'.entered n (h.entered n hn)
  followed p n hn := h'.followed p n (h.followed p n hn)
  visited n hn := h'.visited n (h.visited n hn)

/-- A block stays visited if blocks stay entered and edges followed, because the edges into it are
those of the graph in both records. -/
theorem keeps_of_noted (hv : v.Noted g) (hw : w.Noted g)
    (hentered : ∀ n, v.entered n = true → w.entered n = true)
    (hfollowed : ∀ p n, v.followed p n = true → w.followed p n = true) : v.Keeps w := by
  refine ⟨hentered, hfollowed, fun n hn => ?_⟩
  obtain ⟨hn, hall⟩ := (visited_iff hv).1 hn
  exact (visited_iff hw).2 ⟨hentered n hn, fun p hp => hfollowed p n (hall p hp)⟩

/-- A call loses nothing of the record. -/
theorem Noted.keeps_call (h : v.Noted g) (c : VisitCall) : v.Keeps (v.call g c) := by
  rcases call_cases g v c with ⟨n, -, hcall⟩ | ⟨s, t, -, -, hcall⟩ | ⟨s, t, -, -, hcall⟩
  · rw [hcall]
    refine keeps_of_noted h (h.enter n) (fun m hm => entered_enter.2 (.inl hm)) (fun p m hm => ?_)
    rwa [followed_enter]
  · rw [hcall]
    exact keeps_of_noted h (h.advance s t) (fun m hm => entered_advance.2 (.inl hm))
      (fun p m hm => followed_advance.2 (.inl hm))
  · rw [hcall]
    exact .refl v

/-- Further calls lose nothing of the record. -/
theorem keeps_after_append (g : Graph) (calls more : List VisitCall) :
    (after g calls).Keeps (after g (calls ++ more)) := by
  induction more using List.reverseRecOn with
  | nil =>
    rw [List.append_nil]
    exact .refl _
  | append_singleton more c ih =>
    rw [← List.append_assoc, after_append g (calls ++ more)]
    exact ih.trans ((reflects_after g (calls ++ more)).noted.keeps_call c)

/-- After any sequence of calls on a new record, an edge can be followed exactly if its source was
entered by one of the calls; otherwise the call is refused as not visited and leaves the whole
record as it was. The trace lists the blocks entered, in order. A block counts as entered exactly if
it is among them, an edge as followed exactly if one of the calls for it was not refused, and a
block as visited exactly if it was entered and no predecessor is left unvisited. Whatever a record
affirms of this, it still affirms after further calls. -/
theorem answers_after_calls (g : Graph) (calls : List VisitCall) :
    (∀ p n, (∃ v, (after g calls).follow g p n = .ok v) ↔ p ∈ entries calls) ∧
      (∀ p n, p ∉ entries calls → (after g calls).follow g p n = .error .notVisited ∧
        after g (calls ++ [.follow p n]) = after g calls) ∧
      (after g calls).trace = entries calls ∧
      (∀ n, (after g calls).entered n = true ↔ n ∈ entries calls) ∧
      (∀ p n, (after g calls).followed p n = true ↔
        ∃ earlier, earlier ++ [.follow p n] <+: calls ∧
          ∃ v, (after g earlier).follow g p n = .ok v) ∧
      (∀ n, (after g calls).visited n = true ↔
        n ∈ entries calls ∧ (after g calls).unvisited g n = []) ∧
      ∀ more, (after g calls).Keeps (after g (calls ++ more)) := by
  have h := reflects_after g calls
  refine ⟨fun p n => h.exists_follow_iff, fun p n hp => ?_, h.trace_eq, h.entered_iff,
    fun p n => ?_, fun n => ?_, keeps_after_append g calls⟩
  · have hrefused := follow_of_not_entered (g := g) (fun hp' => hp ((h.entered_iff p).1 hp')) n
    refine ⟨hrefused, ?_⟩
    rw [after_append, List.foldl_cons, List.foldl_nil, Visits.call, hrefused]
  · rw [h.followed_iff, Crosses]
    refine exists_congr (fun earlier => and_congr_right (fun _ => ?_))
    exact (reflects_after g earlier).exists_follow_iff.symm
  · rw [visited_iff h.noted, h.entered_iff, unvisited_eq_nil_iff]

/-- A block with a loop that blocks 0 and 2 have an edge to. -/
def loopWithTwoEntries : Graph := .ofEdges [⟨0, 1⟩, ⟨1, 1⟩, ⟨2, 1⟩]

/-- The loop is followed before its block is entered and again afterwards, the block is entered from
block 0 twice and once from block 2, which is not entered, and an edge is followed that is not in
the graph. -/
def loopCalls : List VisitCall :=
  [.follow 1 1, .enter 0, .follow 0 1, .follow 2 1, .follow 1 1, .follow 0 1, .follow 0 5]

/-- The edge from block 2 is left to visit, and cannot be followed until this block is entered. The
loop counts as followed by its second call. -/
theorem answers_after_calls_loop :
    entries loopCalls = [0, 1, 1, 1, 5] ∧
      (after loopWithTwoEntries loopCalls).trace = [0, 1, 1, 1, 5] ∧
      (after loopWithTwoEntries loopCalls).unvisited loopWithTwoEntries 1 = [2] ∧
      ¬ (after loopWithTwoEntries loopCalls).visited 1 = true ∧
      2 ∉ entries loopCalls ∧
      after loopWithTwoEntries (loopCalls ++ [.follow 2 1]) = after loopWithTwoEntries loopCalls ∧
      (after loopWithTwoEntries loopCalls).followed 1 1 = true ∧
      (after loopWithTwoEntries (loopCalls ++ [.enter 2, .follow 2 1])).followed 1 1 = true ∧
      (after loopWithTwoEntries (loopCalls ++ [.enter 2, .follow 2 1])).visited 1 = true := by
  have hentries : entries loopCalls = [0, 1, 1, 1, 5] := by decide
  have hunvisited :
      (after loopWithTwoEntries loopCalls).unvisited loopWithTwoEntries 1 = [2] := by decide
  have hnew : 2 ∉ entries loopCalls := by decide
  obtain ⟨-, hrefused, htrace, -, hfollowed, hvisited, hkeeps⟩ :=
    answers_after_calls loopWithTwoEntries loopCalls
  obtain ⟨-, -, -, -, -, hvisited', -⟩ :=
    answers_after_calls loopWithTwoEntries (loopCalls ++ [.enter 2, .follow 2 1])
  have hloop : (after loopWithTwoEntries loopCalls).followed 1 1 = true :=
    (hfollowed 1 1).2 ⟨loopCalls.take 4, ⟨[.follow 0 1, .follow 0 5], rfl⟩, _, rfl⟩
  refine ⟨hentries, htrace.trans hentries, hunvisited, fun h => ?_, hnew, (hrefused 2 1 hnew).2,
    hloop, (hkeeps _).followed 1 1 hloop, (hvisited' 1).2 ⟨by decide, by decide⟩⟩
  have hnil := ((hvisited 1).1 h).2
  rw [hunvisited] at hnil
  exact absurd hnil (by decide)

end Visits

end StackFlow
