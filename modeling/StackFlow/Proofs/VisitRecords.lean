import Mathlib.Logic.Basic
import StackFlow.Visit

/-!
# What a record of visits says

A record notes the incoming edges of a block when the block is first entered. `sources` reads these
notes as if they were there from the start, so that one equation says what entering a block does to
them (`sources_enterWith`). In a record that was kept by entering blocks, the notes not yet crossed
off are the incoming edges not followed (`Noted`), and a block counts as visited exactly if it was
entered and all its incoming edges were followed (`visited_iff`).
-/

namespace StackFlow.Visits

variable {g : Graph} {v : Visits} {n m p s t : BlockId}

/-- The incoming edges of a block by source, as noted or as they are on first entry. -/
def sources (g : Graph) (v : Visits) (n : BlockId) : SortedMap BlockId Bool :=
  (v.incoming.get? n).getD (unfollowed g n)

/-- The notes not crossed off are the incoming edges that were not followed. -/
def Noted (g : Graph) (v : Visits) : Prop :=
  ∀ p n, (v.sources g n).get? p = some false ↔ p ∈ g.predecessors n ∧ v.followed p n = false

/-- Noting edges as not followed notes just these. -/
theorem get?_foldl_insert_false (ps : List BlockId) (notes : SortedMap BlockId Bool) (p : BlockId) :
    (ps.foldl (fun notes q => notes.insert q false) notes).get? p =
      if p ∈ ps then some false else notes.get? p := by
  induction ps generalizing notes with
  | nil => simp
  | cons q ps ih =>
    rw [List.foldl_cons, ih, SortedMap.get?_insert]
    by_cases hp : p ∈ ps
    · simp [hp]
    · by_cases hq : p = q <;> simp [hp, hq]

/-- On first entry just the edges from predecessors are noted, none of them followed. -/
theorem get?_unfollowed (g : Graph) (n p : BlockId) :
    (unfollowed g n).get? p = if p ∈ g.predecessors n then some false else none :=
  get?_foldl_insert_false (g.predecessors n) .empty p

/-- An edge from a block that was entered is followed. -/
theorem follow_of_entered (h : v.entered s = true) (t : BlockId) :
    v.follow g s t = .ok (v.advance g s t) := if_pos h

/-- An edge from a block that was not entered is refused. -/
theorem follow_of_not_entered (h : ¬ v.entered s = true) (t : BlockId) :
    v.follow g s t = .error .notVisited := if_neg h

/-- An edge was followed if the record of its target says so. -/
theorem followed_iff (g : Graph) : v.followed p n = true ↔ (v.sources g n).get? p = some true := by
  unfold followed sources
  cases v.incoming.get? n with
  | none =>
    rw [Option.getD_none, get?_unfollowed]
    by_cases hp : p ∈ g.predecessors n <;> simp [hp]
  | some notes =>
    dsimp only
    rw [Option.getD_some]
    cases notes.get? p with
    | none => simp
    | some b => simp

/-- Entering a block changes the notes of this block only. -/
theorem sources_enterWith (note : SortedMap BlockId Bool → SortedMap BlockId Bool) :
    (v.enterWith g n note).sources g m =
      if m = n then note (v.sources g n) else v.sources g m := by
  unfold sources enterWith
  dsimp only
  rw [SortedMap.get?_upsert]
  by_cases hm : m = n
  · rw [if_pos hm, if_pos hm, Option.getD_some]
  · rw [if_neg hm, if_neg hm]

/-- Entering a block on its own follows no edge. -/
theorem sources_enter : (v.enter g n).sources g m = v.sources g m := by
  unfold enter
  rw [sources_enterWith]
  by_cases hm : m = n
  · rw [if_pos hm, hm]
    rfl
  · rw [if_neg hm]

/-- The block that is entered is on record as entered. -/
theorem entered_enter : (v.enter g n).entered m = true ↔ v.entered m = true ∨ m = n := by
  unfold enter
  rw [entered_enterWith]
  by_cases hm : m = n <;> simp [hm]

/-- The target of an edge that is followed is on record as entered. -/
theorem entered_advance :
    (v.advance g s t).entered m = true ↔ v.entered m = true ∨ m = t := by
  unfold advance
  rw [entered_enterWith]
  by_cases hm : m = t <;> simp [hm]

/-- Entering a block on its own follows no edge. -/
theorem followed_enter : (v.enter g n).followed p m = v.followed p m := by
  rw [Bool.eq_iff_iff, followed_iff g, followed_iff g, sources_enter]

/-- Entering a block through an edge follows this edge. -/
theorem followed_advance :
    (v.advance g s t).followed p n = true ↔ v.followed p n = true ∨ p = s ∧ n = t := by
  rw [followed_iff g, followed_iff g, advance, sources_enterWith]
  by_cases hn : n = t
  · subst hn
    rw [if_pos rfl, SortedMap.get?_insert]
    by_cases hp : p = s <;> simp [hp]
  · simp [hn]

/-- Nothing is noted at first. -/
theorem noted_empty (g : Graph) : empty.Noted g := by
  intro p n
  have hfollowed : empty.followed p n = false := rfl
  change (unfollowed g n).get? p = some false ↔ _
  rw [get?_unfollowed, hfollowed]
  by_cases hp : p ∈ g.predecessors n <;> simp [hp]

/-- Entering a block on its own keeps the notes right. -/
theorem Noted.enter (h : v.Noted g) (n : BlockId) : (v.enter g n).Noted g := by
  intro p m
  rw [sources_enter, followed_enter]
  exact h p m

/-- Following an edge keeps the notes right. -/
theorem Noted.advance (h : v.Noted g) (s t : BlockId) : (v.advance g s t).Noted g := by
  intro p n
  by_cases hedge : p = s ∧ n = t
  · -- the note of the edge itself is crossed off
    obtain ⟨rfl, rfl⟩ := hedge
    have hfollowed : (v.advance g p n).followed p n = true := followed_advance.2 (.inr ⟨rfl, rfl⟩)
    rw [(followed_iff g).1 hfollowed, hfollowed]
    simp
  · have hfollowed : (v.advance g s t).followed p n = v.followed p n := by
      rw [Bool.eq_iff_iff, followed_advance, or_iff_left hedge]
    have hget : ((v.advance g s t).sources g n).get? p = (v.sources g n).get? p := by
      rw [Visits.advance, sources_enterWith]
      by_cases hn : n = t
      · have hp : ¬ p = s := fun hp => hedge ⟨hp, hn⟩
        rw [if_pos hn, SortedMap.get?_insert, if_neg hp, hn]
      · rw [if_neg hn]
    rw [hfollowed, hget]
    exact h p n

/-- A block is visited exactly if it was entered and all its incoming edges were followed. -/
theorem visited_iff (h : v.Noted g) :
    v.visited n = true ↔
      v.entered n = true ∧ ∀ p ∈ g.predecessors n, v.followed p n = true := by
  have hopen : (∀ p ∈ g.predecessors n, v.followed p n = true) ↔
      ∀ p, (v.sources g n).get? p ≠ some false := by
    refine forall_congr' (fun p => ?_)
    rw [Ne, h p n, not_and, Bool.not_eq_false]
  rw [hopen]
  unfold visited entered sources SortedMap.contains
  cases hn : v.incoming.get? n with
  | none => simp
  | some notes =>
    dsimp only
    rw [List.all_eq_true, Option.getD_some, Option.isSome_some, and_iff_right rfl]
    constructor
    · intro hall p hp
      have hmem : false ∈ notes.values :=
        List.mem_map.2 ⟨(p, false), SortedMap.mem_entries_iff.2 hp, rfl⟩
      exact absurd (hall false hmem) (by decide)
    · rintro hnone b hb
      obtain ⟨⟨p, c⟩, he, rfl⟩ := List.mem_map.1 hb
      have hc := SortedMap.mem_entries_iff.1 he
      cases c with
      | true => rfl
      | false => exact absurd hc (hnone p)

end StackFlow.Visits
