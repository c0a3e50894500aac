import StackFlow.Proofs.StackDemand

/-!
# The balance of a path in closed form

A run along a path keeps a depth and a sum of shortfalls, and starts the depth at zero again at each
block that finds it below its need. `shortfalls` lists the positions of these blocks as the run
meets them, by comparing words. Without a shortfall the balance is nothing on entry and all changes
on exit. With one, `ofPath_eq_formula` gives both numbers by the needs at the shortfalls and by the
changes before and after the last of them.

The shortfalls of the words are those of the integers as long as no word wraps
(`shortfalls_eq_topUps`), and on integers the sums are known (`Tally.along_of_getLast?_topUps`).
-/

namespace StackFlow.Balance

/-- The positions of the blocks at which a run that begins with `r` finds its depth below their
need. -/
def shortfalls (r : Running) (es : List StackEffect) : List Nat :=
  (List.range es.length).filter fun i =>
    es[i]?.any fun e => ((es.take i).foldl Running.step r).depth < e.need

/-- The first block has a shortfall or not, and the others are met by a run that has executed it. -/
theorem shortfalls_cons (r : Running) (e : StackEffect) (es : List StackEffect) :
    shortfalls r (e :: es) =
      (if r.depth < e.need then [0] else []) ++ (shortfalls (r.step e) es).map (· + 1) := by
  -- a later position is one more than a position of the other blocks
  have hlater : ((List.range es.length).map Nat.succ).filter (fun i =>
      (e :: es)[i]?.any fun e' => (((e :: es).take i).foldl Running.step r).depth < e'.need) =
      (shortfalls (r.step e) es).map (· + 1) := by
    rw [List.filter_map]
    rfl
  unfold shortfalls at hlater ⊢
  rw [List.length_cons, List.range_succ_eq_map, List.filter_cons, hlater]
  by_cases hlt : r.depth < e.need
  · simp [hlt]
  · simp [hlt]

/-- The words have a shortfall where the integers have one, if no operation wraps. -/
theorem shortfalls_eq_topUps {r : Running} {es : List StackEffect} (h : r.NoWrap es) :
    shortfalls r es = topUps r.depth.toInt es := by
  induction es generalizing r with
  | nil => rfl
  | cons e es ih =>
    have hrest := ih h.2
    have hdepth : (r.step e).depth.toInt = (r.tally.step e).depth :=
      congrArg Tally.depth (Running.tally_step h.1)
    rw [shortfalls_cons, hrest, hdepth]
    by_cases hlt : r.depth < e.need
    · have hlt' : r.tally.depth < e.need.toInt := Int64.lt_iff_toInt_lt.1 hlt
      rw [if_pos hlt, Tally.step_of_lt hlt']
      exact (topUps_cons_of_lt es hlt').symm
    · have hle : e.need.toInt ≤ r.tally.depth := by
        rw [Int64.lt_iff_toInt_lt] at hlt
        exact Int.not_lt.1 hlt
      rw [if_neg hlt, Tally.step_of_le hle]
      exact (topUps_cons_of_le es hle).symm

/-- The numbers of a balance are those that the integers yield, if no word wraps, and all blocks of
the path are known and need no negative number of items. -/
theorem ofPath_eq_tally {effect? : BlockId → Option StackEffect} {p : Path} {b : Balance}
    (hw : Running.NoWrap ⟨0, 0⟩ (effects effect? p)) (h : ofPath effect? p = .ok b) :
    (effects effect? p).map some = p.map effect? ∧
      (∀ e ∈ effects effect? p, 0 ≤ e.need.toInt) ∧
      b.entry.toInt = ((Tally.mk 0 0).along (effects effect? p)).required ∧
      b.exit.toInt = ((Tally.mk 0 0).along (effects effect? p)).depth +
        ((Tally.mk 0 0).along (effects effect? p)).required := by
  obtain ⟨r, hr, rfl⟩ := ofPath_eq_ok h
  obtain ⟨hknown, rfl⟩ := Running.along_eq_ok hr
  obtain ⟨htally, hexit⟩ := Running.tally_along hw
  exact ⟨map_some_effects hknown, need_nonneg_of_known hknown, congrArg Tally.required htally,
    hexit⟩

/-- The balance of a path, as long as no word wraps. Without a shortfall nothing is asked for on
entry and the exit is the sum of all changes. Otherwise the entry is the sum of the needs at the
shortfalls less the changes before the last of them, and the exit is the entry and the changes from
there on. Entered with that many items, every block finds what it needs. -/
theorem ofPath_eq_formula {effect? : BlockId → Option StackEffect} {p : Path} {b : Balance}
    (hw : Running.NoWrap ⟨0, 0⟩ (effects effect? p)) (h : ofPath effect? p = .ok b) :
    (effects effect? p).map some = p.map effect? ∧
      (shortfalls ⟨0, 0⟩ (effects effect? p) = [] →
        b.entry.toInt = 0 ∧ b.exit.toInt = stackSum (effects effect? p)) ∧
      (∀ is k, shortfalls ⟨0, 0⟩ (effects effect? p) = is ++ [k] →
        b.entry.toInt = needSum (effects effect? p) is + needAt (effects effect? p) k -
          stackSum ((effects effect? p).take k) ∧
        b.exit.toInt = b.entry.toInt + stackSum ((effects effect? p).drop k)) ∧
      ∀ i < p.length, needAt (effects effect? p) i ≤
        b.entry.toInt + stackSum ((effects effect? p).take i) := by
  obtain ⟨hmap, hneed, hentry, hexit⟩ := ofPath_eq_tally hw h
  have hlength : (effects effect? p).length = p.length := by
    simpa using congrArg List.length hmap
  rw [shortfalls_eq_topUps hw, hentry, hexit]
  generalize effects effect? p = es at *
  refine ⟨hmap, fun hnil => ?_, fun is k hlast => ?_, fun i hi => ?_⟩
  · rw [Tally.along_of_topUps_eq_nil (t := ⟨0, 0⟩) hnil]
    exact ⟨rfl, by rw [Int.zero_add, Int.add_zero]⟩
  · have hk : (topUps 0 es).getLast? = some k := by
      rw [← List.getLast?_concat (l := is) (a := k)]
      exact congrArg List.getLast? hlast
    have hneeds : needSum es (topUps 0 es) = needSum es is + needAt es k :=
      (congrArg (needSum es) hlast).trans (needSum_concat es is k)
    rw [Tally.along_of_getLast?_topUps (t := ⟨0, 0⟩) hk]
    dsimp only
    exact ⟨by omega, by omega⟩
  · have hcovers := (required_mem_entryDepths hneed).2
    exact hcovers.needAt_le (by omega)

/-- Three blocks: the first and the last have a shortfall, and the first leaves an item. -/
def outerShortfalls (n : BlockId) : Option StackEffect :=
  if n = 0 then some ⟨2, 1⟩ else if n = 1 then some ⟨1, -3⟩ else if n = 2 then some ⟨0, 4⟩ else none

/-- The last block needs nothing and yet finds a depth below zero: what is asked for is the need of
the first block and the two items that were missing. -/
theorem ofPath_eq_formula_outerShortfalls :
    Running.NoWrap ⟨0, 0⟩ (effects outerShortfalls [0, 1, 2]) ∧
      ofPath outerShortfalls [0, 1, 2] = .ok ⟨4, 8⟩ ∧
      shortfalls ⟨0, 0⟩ (effects outerShortfalls [0, 1, 2]) = [0] ++ [2] ∧
      (4 : Int64).toInt = needSum (effects outerShortfalls [0, 1, 2]) [0] +
        needAt (effects outerShortfalls [0, 1, 2]) 2 -
          stackSum ((effects outerShortfalls [0, 1, 2]).take 2) :=
  have hw : Running.NoWrap ⟨0, 0⟩ (effects outerShortfalls [0, 1, 2]) := by decide
  have h : ofPath outerShortfalls [0, 1, 2] = .ok ⟨4, 8⟩ := by decide
  have hs : shortfalls ⟨0, 0⟩ (effects outerShortfalls [0, 1, 2]) = [0] ++ [2] := by decide
  ⟨hw, h, hs, ((ofPath_eq_formula hw h).2.2.1 [0] 2 hs).1⟩

end StackFlow.Balance
