import Mathlib.Data.List.Basic
import Mathlib.Order.Bounds.Basic
import StackFlow.Balance

/-!
# What the balance of a path means

A path can be entered with `h` items if every block then finds the items that it needs
(`Covers h`). The balance of a path is a pair of numbers that a running depth yields. The depth
starts at zero again at each block that finds it below the block's need (`topUps`), so that what the
stack holds above the depth is forgotten there. `ofPath_entry_exit` says what is left of the plain
reading: the number on entry always suffices; it is the least that does exactly if all blocks with a
shortfall but the last need nothing; and the number on exit counts the changes from the last
shortfall on, so that it is the true depth exactly if the changes before that add up to zero.

The words of the balance wrap. `Tally` is the same recurrence on integers, and `tally_along` says
that the two agree as long as no operation wraps (`NoWrap`).
-/

namespace StackFlow.Balance

/-- What the blocks of a path do, in order, as far as it is known. -/
def effects (effect? : BlockId → Option StackEffect) (p : Path) : List StackEffect :=
  p.filterMap effect?

/-- The sum of the changes of the stack. -/
def stackSum : List StackEffect → Int
  | [] => 0
  | e :: es => e.stack.toInt + stackSum es

/-- Entered with `h` items, every block finds the items that it needs. -/
def Covers (h : Int) : List StackEffect → Prop
  | [] => True
  | e :: es => e.need.toInt ≤ h ∧ Covers (h + e.stack.toInt) es

/-- The numbers of items with which a path can be entered. -/
def entryDepths (es : List StackEffect) : Set Int := {h | 0 ≤ h ∧ Covers h es}

/-- The need of the block at a position, zero past the end. -/
def needAt (es : List StackEffect) (i : Nat) : Int := (es[i]?.map (·.need.toInt)).getD 0

/-- The positions of the blocks that find the running depth below their need. The depth is counted
from `depth`, and from zero at each such block. -/
def topUps (depth : Int) : List StackEffect → List Nat
  | [] => []
  | e :: es =>
    if depth < e.need.toInt then 0 :: (topUps e.stack.toInt es).map (· + 1)
    else (topUps (depth + e.stack.toInt) es).map (· + 1)

/-! ## The recurrence on integers -/

/-- The running depth and the shortfalls so far, as integers. -/
structure Tally where
  /-- The number of items since the last shortfall. -/
  depth : Int
  /-- The sum of the shortfalls. -/
  required : Int

namespace Tally

/-- Executes one block. -/
def step (t : Tally) (e : StackEffect) : Tally :=
  if t.depth < e.need.toInt then ⟨e.stack.toInt, t.required + (e.need.toInt - t.depth)⟩
  else ⟨t.depth + e.stack.toInt, t.required⟩

/-- Executes blocks in order. -/
def along (t : Tally) : List StackEffect → Tally
  | [] => t
  | e :: es => (t.step e).along es

/-- At a shortfall the missing items are asked for, and the depth starts anew. -/
theorem step_of_lt {t : Tally} {e : StackEffect} (h : t.depth < e.need.toInt) :
    t.step e = ⟨e.stack.toInt, t.required + (e.need.toInt - t.depth)⟩ := if_pos h

/-- Without a shortfall only the depth changes. -/
theorem step_of_le {t : Tally} {e : StackEffect} (h : e.need.toInt ≤ t.depth) :
    t.step e = ⟨t.depth + e.stack.toInt, t.required⟩ := if_neg (not_lt.2 h)

/-- The shortfalls only grow. -/
theorem required_le_along (t : Tally) (es : List StackEffect) :
    t.required ≤ (t.along es).required := by
  induction es generalizing t with
  | nil => exact le_refl _
  | cons e es ih =>
    have hrest := ih (t.step e)
    rw [along]
    rcases lt_or_ge t.depth e.need.toInt with h | h
    · rw [step_of_lt h] at hrest ⊢
      dsimp only at hrest
      omega
    · rw [step_of_le h] at hrest ⊢
      exact hrest

/-- A path with a shortfall asks for more than nothing. -/
theorem required_lt_along {t : Tally} {es : List StackEffect} (h : topUps t.depth es ≠ []) :
    t.required < (t.along es).required := by
  induction es generalizing t with
  | nil => exact absurd rfl h
  | cons e es ih =>
    rw [along]
    rcases lt_or_ge t.depth e.need.toInt with hlt | hle
    · have hrest := required_le_along (t.step e) es
      rw [step_of_lt hlt] at hrest ⊢
      dsimp only at hrest
      omega
    · rw [topUps, if_neg (not_lt.2 hle), ne_eq, List.map_eq_nil_iff] at h
      rw [step_of_le hle]
      exact ih (t := ⟨t.depth + e.stack.toInt, t.required⟩) h

/-- Without a shortfall the depth is the sum of the changes, and nothing is asked for. -/
theorem along_of_topUps_eq_nil {t : Tally} {es : List StackEffect}
    (h : topUps t.depth es = []) : t.along es = ⟨t.depth + stackSum es, t.required⟩ := by
  induction es generalizing t with
  | nil => rw [along, stackSum, Int.add_zero]
  | cons e es ih =>
    rcases lt_or_ge t.depth e.need.toInt with hlt | hle
    · rw [topUps, if_pos hlt] at h
      exact absurd h (List.cons_ne_nil _ _)
    · rw [topUps, if_neg (not_lt.2 hle), List.map_eq_nil_iff] at h
      rw [along, step_of_le hle, ih h, stackSum, Int.add_assoc]

end Tally

/-- The sum of the needs of the blocks at some positions. -/
def needSum (es : List StackEffect) : List Nat → Int
  | [] => 0
  | i :: is => needAt es i + needSum es is

/-- The need of the first block. -/
theorem needAt_cons_zero (e : StackEffect) (es : List StackEffect) :
    needAt (e :: es) 0 = e.need.toInt := rfl

/-- The need of a block behind the first. -/
theorem needAt_cons_succ (e : StackEffect) (es : List StackEffect) (i : Nat) :
    needAt (e :: es) (i + 1) = needAt es i := rfl

/-- The needs of blocks behind the first. -/
theorem needSum_map_succ (e : StackEffect) (es : List StackEffect) (is : List Nat) :
    needSum (e :: es) (is.map (· + 1)) = needSum es is := by
  induction is with
  | nil => rfl
  | cons i is ih => rw [List.map_cons, needSum, needSum, ih, needAt_cons_succ]

/-- The needs of some blocks and one more. -/
theorem needSum_concat (es : List StackEffect) (is : List Nat) (i : Nat) :
    needSum es (is ++ [i]) = needSum es is + needAt es i := by
  induction is with
  | nil => simp [needSum]
  | cons j is ih => rw [List.cons_append, needSum, needSum, ih, Int.add_assoc]

/-- Blocks that need nothing need nothing together. -/
theorem needSum_eq_zero {es : List StackEffect} {is : List Nat}
    (h : ∀ i ∈ is, needAt es i = 0) : needSum es is = 0 := by
  induction is with
  | nil => rfl
  | cons i is ih =>
    rw [needSum, h i (by simp), ih (fun j hj => h j (by simp [hj])), Int.add_zero]

/-- Past a block without a shortfall the positions of the shortfalls are counted on. -/
theorem topUps_cons_of_le {depth : Int} {e : StackEffect} (es : List StackEffect)
    (h : e.need.toInt ≤ depth) :
    topUps depth (e :: es) = (topUps (depth + e.stack.toInt) es).map (· + 1) :=
  if_neg (not_lt.2 h)

/-- A block with a shortfall is listed, and the positions are counted on from a depth of zero. -/
theorem topUps_cons_of_lt {depth : Int} {e : StackEffect} (es : List StackEffect)
    (h : depth < e.need.toInt) :
    topUps depth (e :: es) = 0 :: (topUps e.stack.toInt es).map (· + 1) := if_pos h

namespace Tally

/-- With a shortfall, the depth counts from the last one on, and what is asked for is the sum of the
needs at the shortfalls less what was there before the last one. -/
theorem along_of_getLast?_topUps {t : Tally} {es : List StackEffect} {k : Nat}
    (h : (topUps t.depth es).getLast? = some k) :
    t.along es = ⟨stackSum (es.drop k),
      t.required + needSum es (topUps t.depth es) - t.depth - stackSum (es.take k)⟩ := by
  induction es generalizing t k with
  | nil => simp [topUps] at h
  | cons e es ih =>
    rcases lt_or_ge t.depth e.need.toInt with hlt | hle
    · rw [topUps_cons_of_lt es hlt, List.getLast?_cons, List.getLast?_map] at h
      rw [along, step_of_lt hlt, topUps_cons_of_lt es hlt, needSum, needSum_map_succ,
        needAt_cons_zero]
      cases hT : (topUps e.stack.toInt es).getLast? with
      | none =>
        -- the only shortfall: nothing is forgotten after it
        obtain rfl : 0 = k := by simpa [hT] using h
        rw [List.getLast?_eq_none_iff] at hT
        rw [along_of_topUps_eq_nil hT, hT]
        simp only [List.drop_zero, List.take_zero, stackSum, needSum]
        congr 1
        omega
      | some k' =>
        obtain rfl : k' + 1 = k := by simpa [hT] using h
        rw [ih hT]
        simp only [List.drop_succ_cons, List.take_succ_cons, stackSum]
        congr 1
        omega
    · rw [topUps_cons_of_le es hle, List.getLast?_map] at h
      obtain ⟨k', hk', rfl⟩ := Option.map_eq_some_iff.1 h
      rw [along, step_of_le hle, ih hk', topUps_cons_of_le es hle, needSum_map_succ]
      simp only [List.drop_succ_cons, List.take_succ_cons, stackSum]
      congr 1
      omega

end Tally

/-! ## Which numbers of items suffice -/

/-- A number that suffices leaves each block its need. -/
theorem Covers.needAt_le {h : Int} {es : List StackEffect} (hc : Covers h es) {i : Nat}
    (hi : i < es.length) : needAt es i ≤ h + stackSum (es.take i) := by
  induction es generalizing h i with
  | nil => simp at hi
  | cons e es ih =>
    cases i with
    | zero =>
      rw [needAt_cons_zero, List.take_zero, stackSum, Int.add_zero]
      exact hc.1
    | succ i =>
      have hrest := ih hc.2 (Nat.lt_of_succ_lt_succ hi)
      rw [needAt_cons_succ, List.take_succ_cons, stackSum]
      omega

/-- The positions of the shortfalls are positions of the path. -/
theorem lt_length_of_mem_topUps {depth : Int} {es : List StackEffect} {i : Nat}
    (h : i ∈ topUps depth es) : i < es.length := by
  induction es generalizing depth i with
  | nil => simp [topUps] at h
  | cons e es ih =>
    rw [List.length_cons]
    rcases lt_or_ge depth e.need.toInt with hlt | hle
    · rw [topUps_cons_of_lt es hlt, List.mem_cons, List.mem_map] at h
      rcases h with rfl | ⟨j, hj, rfl⟩
      · omega
      · have := ih hj
        omega
    · rw [topUps_cons_of_le es hle, List.mem_map] at h
      obtain ⟨j, hj, rfl⟩ := h
      have := ih hj
      omega

/-- What the stack holds beyond the running depth never harms: the depth and the shortfalls still to
come suffice. -/
theorem covers_of_tally {t : Tally} {es : List StackEffect} (hneed : ∀ e ∈ es, 0 ≤ e.need.toInt)
    {h : Int} (hle : t.depth + ((t.along es).required - t.required) ≤ h) : Covers h es := by
  induction es generalizing t h with
  | nil => trivial
  | cons e es ih =>
    have he := hneed e (by simp)
    have hgrow := (t.step e).required_le_along es
    have hrest := fun e' he' => hneed e' (List.mem_cons_of_mem e he')
    rw [Tally.along] at hle
    rcases lt_or_ge t.depth e.need.toInt with hlt | hge
    · -- the stack may hold more than the depth of zero that the count goes on with
      rw [Tally.step_of_lt hlt] at hle hgrow
      dsimp only at hgrow
      refine ⟨by omega, ih hrest (t := ⟨e.stack.toInt, t.required + (e.need.toInt - t.depth)⟩) ?_⟩
      dsimp only
      omega
    · rw [Tally.step_of_le hge] at hle hgrow
      dsimp only at hgrow
      refine ⟨by omega, ih hrest (t := ⟨t.depth + e.stack.toInt, t.required⟩) ?_⟩
      dsimp only
      omega

/-- If a block with a shortfall before the last one needs an item, one item less suffices as well:
the items of that block are still on the stack at the next shortfall. -/
theorem covers_of_tally_sub_one {t : Tally} {es : List StackEffect}
    (hneed : ∀ e ∈ es, 0 ≤ e.need.toInt) {i : Nat} (hi : i ∈ (topUps t.depth es).dropLast)
    (hpos : 0 < needAt es i) {h : Int}
    (hle : t.depth + ((t.along es).required - t.required) ≤ h + 1) : Covers h es := by
  induction es generalizing t h i with
  | nil => simp [topUps] at hi
  | cons e es ih =>
    have he := hneed e (by simp)
    have hrest := fun e' he' => hneed e' (List.mem_cons_of_mem e he')
    rw [Tally.along] at hle
    rcases lt_or_ge t.depth e.need.toInt with hlt | hge
    · rw [topUps_cons_of_lt es hlt] at hi
      -- the position is not the last one, so a later block has a shortfall too
      have hne : topUps e.stack.toInt es ≠ [] := by
        intro hnil
        simp [hnil] at hi
      have hgrow := Tally.required_lt_along
        (t := ⟨e.stack.toInt, t.required + (e.need.toInt - t.depth)⟩) hne
      rw [Tally.step_of_lt hlt] at hle
      dsimp only at hgrow
      refine ⟨by omega, ?_⟩
      rw [List.dropLast_cons_of_ne_nil (by simpa using hne), ← List.map_dropLast,
        List.mem_cons, List.mem_map] at hi
      rcases hi with rfl | ⟨j, hj, rfl⟩
      · -- what this block needs is still there later, and nobody counts it
        rw [needAt_cons_zero] at hpos
        refine covers_of_tally hrest
          (t := ⟨e.stack.toInt, t.required + (e.need.toInt - t.depth)⟩) ?_
        dsimp only
        omega
      · rw [needAt_cons_succ] at hpos
        refine ih hrest (t := ⟨e.stack.toInt, t.required + (e.need.toInt - t.depth)⟩) hj hpos ?_
        dsimp only
        omega
    · rw [topUps_cons_of_le es hge, ← List.map_dropLast, List.mem_map] at hi
      obtain ⟨j, hj, rfl⟩ := hi
      rw [needAt_cons_succ] at hpos
      have hne : topUps (t.depth + e.stack.toInt) es ≠ [] :=
        List.ne_nil_of_mem (List.dropLast_subset _ hj)
      have hgrow := Tally.required_lt_along (t := ⟨t.depth + e.stack.toInt, t.required⟩) hne
      rw [Tally.step_of_le hge] at hle
      dsimp only at hgrow
      refine ⟨by omega, ih hrest (t := ⟨t.depth + e.stack.toInt, t.required⟩) hj hpos ?_⟩
      dsimp only
      omega

/-- What the integers ask for suffices on entry. -/
theorem required_mem_entryDepths {es : List StackEffect} (hneed : ∀ e ∈ es, 0 ≤ e.need.toInt) :
    ((Tally.mk 0 0).along es).required ∈ entryDepths es := by
  refine ⟨Tally.required_le_along ⟨0, 0⟩ es, covers_of_tally hneed (t := ⟨0, 0⟩) ?_⟩
  dsimp only
  omega

/-- What the integers ask for is the least number that suffices exactly if no block with a
shortfall but the last needs an item. -/
theorem isLeast_required_iff {es : List StackEffect} (hneed : ∀ e ∈ es, 0 ≤ e.need.toInt) :
    IsLeast (entryDepths es) ((Tally.mk 0 0).along es).required ↔
      ∀ i ∈ (topUps 0 es).dropLast, needAt es i = 0 := by
  constructor
  · intro hleast i hi
    by_contra hne
    have hpos : 0 < needAt es i := by
      have hlt := lt_length_of_mem_topUps (List.dropLast_subset _ hi)
      have hnn : 0 ≤ needAt es i := by
        rw [needAt, List.getElem?_eq_getElem hlt]
        exact hneed _ (List.getElem_mem hlt)
      omega
    have hgrow := Tally.required_lt_along (t := ⟨0, 0⟩)
      (List.ne_nil_of_mem (List.dropLast_subset _ hi))
    -- one item less would do, and there is one less to ask for
    have hcov : Covers (((Tally.mk 0 0).along es).required - 1) es := by
      refine covers_of_tally_sub_one hneed (t := ⟨0, 0⟩) hi hpos ?_
      dsimp only
      omega
    dsimp only at hgrow
    have hlow := hleast.2 ⟨by omega, hcov⟩
    omega
  · intro hzero
    refine ⟨required_mem_entryDepths hneed, ?_⟩
    rintro h ⟨hnn, hcov⟩
    cases hT : (topUps 0 es).getLast? with
    | none =>
      rw [Tally.along_of_topUps_eq_nil (t := ⟨0, 0⟩) (List.getLast?_eq_none_iff.1 hT)]
      exact hnn
    | some k =>
      -- the last shortfall alone asks for all of it
      have hsum : needSum es (topUps 0 es) = needAt es k := by
        rw [← List.dropLast_append_getLast? k hT, needSum_concat, needSum_eq_zero hzero,
          Int.zero_add]
      have hk := hcov.needAt_le (lt_length_of_mem_topUps (List.mem_of_getLast? hT))
      rw [Tally.along_of_getLast?_topUps (t := ⟨0, 0⟩) hT]
      dsimp only
      omega

/-! ## Words that do not wrap -/

/-- No operation on words wraps when a block is executed. -/
def Running.StepExact (r : Running) (e : StackEffect) : Prop :=
  if r.depth < e.need then
    (e.need - r.depth).toInt = e.need.toInt - r.depth.toInt ∧
      (r.required + (e.need - r.depth)).toInt = r.required.toInt + (e.need - r.depth).toInt
  else (r.depth + e.stack).toInt = r.depth.toInt + e.stack.toInt

instance (r : Running) (e : StackEffect) : Decidable (r.StepExact e) :=
  inferInstanceAs (Decidable (ite _ _ _))

/-- No operation on words wraps when blocks are executed in order and the exit is computed. -/
def Running.NoWrap (r : Running) : List StackEffect → Prop
  | [] => (r.depth + r.required).toInt = r.depth.toInt + r.required.toInt
  | e :: es => r.StepExact e ∧ (r.step e).NoWrap es

instance Running.decidableNoWrap : (r : Running) → (es : List StackEffect) → Decidable (r.NoWrap es)
  | r, [] => inferInstanceAs (Decidable ((r.depth + r.required).toInt = _))
  | r, e :: es => @instDecidableAnd _ _ _ (decidableNoWrap (r.step e) es)

/-- The integers that running words stand for. -/
def Running.tally (r : Running) : Tally := ⟨r.depth.toInt, r.required.toInt⟩

/-- A block does to the words what it does to the integers, if no operation wraps. -/
theorem Running.tally_step {r : Running} {e : StackEffect} (h : r.StepExact e) :
    (r.step e).tally = r.tally.step e := by
  unfold StepExact at h
  unfold Running.step Tally.step tally
  by_cases hlt : r.depth < e.need
  · rw [if_pos hlt] at h ⊢
    rw [if_pos (Int64.lt_iff_toInt_lt.1 hlt), Int64.zero_add, h.2, h.1]
  · rw [if_neg hlt] at h ⊢
    rw [if_neg (fun hlt' => hlt (Int64.lt_iff_toInt_lt.2 hlt')), h]

/-- Executing blocks does to the words what it does to the integers, if no operation wraps, and
neither does the sum that is the exit. -/
theorem Running.tally_along {r : Running} {es : List StackEffect} (h : r.NoWrap es) :
    (es.foldl Running.step r).tally = r.tally.along es ∧
      ((es.foldl Running.step r).depth + (es.foldl Running.step r).required).toInt =
        (r.tally.along es).depth + (r.tally.along es).required := by
  induction es generalizing r with
  | nil => exact ⟨rfl, h⟩
  | cons e es ih =>
    rw [List.foldl_cons, Tally.along, ← tally_step h.1]
    exact ih h.2

/-- A run along a path succeeds only if each block is known and needs no negative number of items,
and it executes what the blocks do. -/
theorem Running.along_eq_ok {effect? : BlockId → Option StackEffect} {r r' : Running} {p : Path}
    (h : Running.along effect? r p = .ok r') :
    (∀ n ∈ p, ∃ e, effect? n = some e ∧ 0 ≤ e.need.toInt) ∧
      r' = (effects effect? p).foldl Running.step r := by
  induction p generalizing r with
  | nil =>
    obtain rfl : r = r' := by simpa [Running.along] using h
    exact ⟨by simp, rfl⟩
  | cons n p ih =>
    rw [Running.along] at h
    cases he : effect? n with
    | none => simp [he] at h
    | some e =>
      rw [he] at h
      dsimp only at h
      split at h
      next => simp at h
      next hneed =>
        -- the check for a negative need was passed
        have hnn : 0 ≤ e.need.toInt := by
          rw [Int64.lt_iff_toInt_lt, not_lt] at hneed
          exact hneed
        obtain ⟨hall, hr'⟩ := ih h
        refine ⟨List.forall_mem_cons.2 ⟨⟨e, he, hnn⟩, hall⟩, ?_⟩
        rw [hr', effects, effects, List.filterMap_cons, he, List.foldl_cons]

/-- A balance is read off a run along the path. -/
theorem ofPath_eq_ok {effect? : BlockId → Option StackEffect} {p : Path} {b : Balance}
    (h : ofPath effect? p = .ok b) :
    ∃ r, Running.along effect? ⟨0, 0⟩ p = .ok r ∧ b = ⟨r.required, r.depth + r.required⟩ := by
  unfold ofPath at h
  split at h
  next => simp at h
  next =>
    cases hr : Running.along effect? ⟨0, 0⟩ p with
    | error err => simp [hr, bind, Except.bind] at h
    | ok r =>
      simp only [hr, bind, Except.bind] at h
      split at h
      next => simp at h
      next => exact ⟨r, rfl, by simpa [pure, Except.pure] using h.symm⟩

/-! ## The balance of a path -/

/-- Changes add up. -/
theorem stackSum_append (es fs : List StackEffect) :
    stackSum (es ++ fs) = stackSum es + stackSum fs := by
  induction es with
  | nil => rw [List.nil_append, stackSum, Int.zero_add]
  | cons e es ih => rw [List.cons_append, stackSum, stackSum, ih, Int.add_assoc]

/-- A path whose blocks are all known does what its blocks do, none left out. -/
theorem map_some_effects {effect? : BlockId → Option StackEffect} {p : Path}
    (h : ∀ n ∈ p, ∃ e, effect? n = some e ∧ 0 ≤ e.need.toInt) :
    (effects effect? p).map some = p.map effect? := by
  induction p with
  | nil => rfl
  | cons n p ih =>
    obtain ⟨⟨e, he, -⟩, hp⟩ := List.forall_mem_cons.1 h
    rw [effects, List.filterMap_cons, he, List.map_cons, List.map_cons, he]
    exact congrArg _ (ih hp)

/-- The needs of a path's known blocks are not negative. -/
theorem need_nonneg_of_known {effect? : BlockId → Option StackEffect} {p : Path}
    (h : ∀ n ∈ p, ∃ e, effect? n = some e ∧ 0 ≤ e.need.toInt) :
    ∀ e ∈ effects effect? p, 0 ≤ e.need.toInt := by
  intro e he
  obtain ⟨n, hn, hne⟩ := List.mem_filterMap.1 he
  obtain ⟨e', he', hneed⟩ := h n hn
  obtain rfl : e' = e := Option.some.inj (he'.symm.trans hne)
  exact hneed

/-- The exit on integers: what is asked for and the changes from the last shortfall on. -/
theorem exit_eq_required_add (es : List StackEffect) :
    ((Tally.mk 0 0).along es).depth + ((Tally.mk 0 0).along es).required =
      ((Tally.mk 0 0).along es).required + stackSum (es.drop ((topUps 0 es).getLastD 0)) := by
  rw [Int.add_comm, List.getLastD_eq_getLast?]
  congr 1
  cases hT : (topUps 0 es).getLast? with
  | none =>
    rw [Tally.along_of_topUps_eq_nil (t := ⟨0, 0⟩) (List.getLast?_eq_none_iff.1 hT)]
    exact Int.zero_add _
  | some k => rw [Tally.along_of_getLast?_topUps (t := ⟨0, 0⟩) hT, Option.getD_some]

/-- What the balance of a path says, as long as no word wraps. Its entry suffices for every block,
and is the least number that does exactly if no block with a shortfall but the last needs an item.
Its exit is the entry and the changes from the last shortfall on, so that all changes are counted
exactly if those before it add up to zero. -/
theorem ofPath_entry_exit {effect? : BlockId → Option StackEffect} {p : Path} {b : Balance}
    (hw : Running.NoWrap ⟨0, 0⟩ (effects effect? p)) (h : ofPath effect? p = .ok b) :
    (effects effect? p).map some = p.map effect? ∧
      b.entry.toInt ∈ entryDepths (effects effect? p) ∧
      (IsLeast (entryDepths (effects effect? p)) b.entry.toInt ↔
        ∀ i ∈ (topUps 0 (effects effect? p)).dropLast, needAt (effects effect? p) i = 0) ∧
      b.exit.toInt = b.entry.toInt +
        stackSum ((effects effect? p).drop ((topUps 0 (effects effect? p)).getLastD 0)) ∧
      (b.exit.toInt = b.entry.toInt + stackSum (effects effect? p) ↔
        stackSum ((effects effect? p).take ((topUps 0 (effects effect? p)).getLastD 0)) = 0) := by
  obtain ⟨r, hr, rfl⟩ := ofPath_eq_ok h
  obtain ⟨hknown, rfl⟩ := Running.along_eq_ok hr
  have hmap := map_some_effects hknown
  have hneed := need_nonneg_of_known hknown
  obtain ⟨htally, hexit⟩ := Running.tally_along hw
  generalize effects effect? p = es at *
  have hentry : (es.foldl Running.step ⟨0, 0⟩).required.toInt =
      ((Tally.mk 0 0).along es).required := congrArg Tally.required htally
  have hexit' := hexit.trans (exit_eq_required_add es)
  have hsplit := stackSum_append (es.take ((topUps 0 es).getLastD 0))
    (es.drop ((topUps 0 es).getLastD 0))
  rw [List.take_append_drop] at hsplit
  dsimp only
  rw [hentry, hexit']
  exact ⟨hmap, required_mem_entryDepths hneed, isLeast_required_iff hneed, rfl, by omega⟩

/-- Two blocks that both have a shortfall, the first of which leaves items behind. -/
def twoShortfalls (n : BlockId) : Option StackEffect :=
  if n = 0 then some ⟨1, 2⟩ else if n = 1 then some ⟨4, 0⟩ else none

/-- The balance of the path with two shortfalls. -/
theorem ofPath_entry_exit_twoShortfalls :
    Running.NoWrap ⟨0, 0⟩ (effects twoShortfalls [0, 1]) ∧
      ofPath twoShortfalls [0, 1] = .ok ⟨3, 3⟩ ∧
      (3 : Int64).toInt ∈ entryDepths (effects twoShortfalls [0, 1]) ∧
      (3 : Int64).toInt = (3 : Int64).toInt +
        stackSum ((effects twoShortfalls [0, 1]).drop 1) :=
  have hw : Running.NoWrap ⟨0, 0⟩ (effects twoShortfalls [0, 1]) := by decide
  have h : ofPath twoShortfalls [0, 1] = .ok ⟨3, 3⟩ := by decide
  ⟨hw, h, (ofPath_entry_exit hw h).2.1, (ofPath_entry_exit hw h).2.2.2.1⟩

/-- The plain reading fails: two items suffice where the balance asks for three, and the path leaves
two items more than it was entered with where the balance counts none. -/
theorem entry_not_least_exit_not_depth :
    (∀ n ∈ [(0 : BlockId), 1], ∃ e, twoShortfalls n = some e ∧ 0 ≤ e.need) ∧
      Running.NoWrap ⟨0, 0⟩ (effects twoShortfalls [0, 1]) ∧
      ofPath twoShortfalls [0, 1] = .ok ⟨3, 3⟩ ∧
      IsLeast (entryDepths (effects twoShortfalls [0, 1])) 2 ∧
      ¬ IsLeast (entryDepths (effects twoShortfalls [0, 1])) (3 : Int64).toInt ∧
      ¬ (3 : Int64).toInt = (3 : Int64).toInt + stackSum (effects twoShortfalls [0, 1]) := by
  have heffects : effects twoShortfalls [0, 1] = [⟨1, 2⟩, ⟨4, 0⟩] := by decide
  have hleast : IsLeast (entryDepths [⟨1, 2⟩, ⟨4, 0⟩]) 2 := by
    refine ⟨⟨by decide, by decide, by decide, trivial⟩, ?_⟩
    rintro h ⟨-, -, hsecond, -⟩
    have hfour : (4 : Int64).toInt = 4 := by decide
    have htwo : (2 : Int64).toInt = 2 := by decide
    dsimp only at hsecond
    omega
  have hknown : ∀ n ∈ [(0 : BlockId), 1], ∃ e, twoShortfalls n = some e ∧ 0 ≤ e.need := by
    refine List.forall_mem_cons.2 ⟨⟨⟨1, 2⟩, rfl, by decide⟩, ?_⟩
    exact List.forall_mem_singleton.2 ⟨⟨4, 0⟩, rfl, by decide⟩
  refine ⟨hknown, by decide, by decide, heffects ▸ hleast, ?_, by decide⟩
  rw [heffects]
  intro h
  exact absurd (h.2 hleast.1) (by decide)

end StackFlow.Balance
