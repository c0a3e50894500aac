import StackFlow.Proofs.BalanceFormula

/-!
# When the words of a balance are exact

Needs and changes are words, and nothing keeps their sums from wrapping. A depth that wraps is
negative, so the next block finds a shortfall that the integers do not have, and from there on words
and integers need not have anything in common: `wrapped_path_accepted` is a path that leaves two
items less than none, and that has a balance all the same.

The words are exact as long as the integers fit them. Of these only three kinds can be too great,
the depths, the sum of the shortfalls and the exit, and none can be too small (`Tally.Fits`). Then
no operation wraps (`noWrap_iff_fits`), a balance is what the integers yield, and a path has one
exactly if the integers leave no negative number of items (`ofPath_exact_of_fits`). It is enough
that the needs and the sizes of the changes along the path add up to a word (`fits_of_load_le`).
-/

namespace StackFlow.Balance

/-! ## Sums that fit a word -/

/-- A sum of words is exact if and only if it is neither below the least word nor above the
greatest. -/
theorem toInt_add_eq_iff (a b : Int64) :
    (a + b).toInt = a.toInt + b.toInt ↔
      Int64.minValue.toInt ≤ a.toInt + b.toInt ∧ a.toInt + b.toInt ≤ Int64.maxValue.toInt := by
  have hlow := (a + b).le_toInt
  have hhigh := (a + b).toInt_lt
  rw [Int64.toInt_minValue, Int64.toInt_maxValue]
  constructor
  · intro h
    omega
  · rintro ⟨h, h'⟩
    rw [Int64.toInt_add]
    exact Int.bmod_eq_of_le_mul_two (by omega) (by omega)

/-- A difference of words is exact if it is neither below the least word nor above the greatest. -/
theorem toInt_sub_eq {a b : Int64} (hlow : Int64.minValue.toInt ≤ a.toInt - b.toInt)
    (hhigh : a.toInt - b.toInt ≤ Int64.maxValue.toInt) : (a - b).toInt = a.toInt - b.toInt := by
  rw [Int64.toInt_minValue] at hlow
  rw [Int64.toInt_maxValue] at hhigh
  rw [Int64.toInt_sub]
  exact Int.bmod_eq_of_le_mul_two (by omega) (by omega)

/-! ## Integers that fit words -/

/-- What the integers leave on exit. -/
def Tally.exit (t : Tally) : Int := t.depth + t.required

/-- No integer is above the greatest word when blocks are executed in order: none of the depths
behind them, and in the end neither the sum of the shortfalls nor the exit. -/
def Tally.Fits (t : Tally) : List StackEffect → Prop
  | [] => t.required ≤ Int64.maxValue.toInt ∧ t.exit ≤ Int64.maxValue.toInt
  | e :: es => (t.step e).depth ≤ Int64.maxValue.toInt ∧ (t.step e).Fits es

instance Tally.decidableFits : (t : Tally) → (es : List StackEffect) → Decidable (t.Fits es)
  | t, [] => inferInstanceAs (Decidable (t.required ≤ _ ∧ t.exit ≤ _))
  | t, e :: es => @instDecidableAnd _ _ _ (decidableFits (t.step e) es)

/-- The sum of the shortfalls fits a word all along, since it only grows. -/
theorem Tally.Fits.required_le {t : Tally} {es : List StackEffect} (h : t.Fits es) :
    t.required ≤ Int64.maxValue.toInt := by
  have hlast : (t.along es).required ≤ Int64.maxValue.toInt := by
    induction es generalizing t with
    | nil => exact h.1
    | cons e es ih => exact ih h.2
  exact (t.required_le_along es).trans hlast

/-- When a block is executed nothing wraps if and only if the depth behind it and the sum of the
shortfalls fit a word. -/
theorem Running.stepExact_iff {r : Running} {e : StackEffect} (hneed : 0 ≤ e.need.toInt)
    (hr : 0 ≤ r.required.toInt) :
    r.StepExact e ↔ (r.tally.step e).depth ≤ Int64.maxValue.toInt ∧
      (r.tally.step e).required ≤ Int64.maxValue.toInt := by
  have hmin := Int64.toInt_minValue
  have hmax := Int64.toInt_maxValue
  have hdepth := r.depth.le_toInt
  have hstack := e.stack.le_toInt
  unfold StepExact
  by_cases hlt : r.depth < e.need
  · have hlt' : r.tally.depth < e.need.toInt := Int64.lt_iff_toInt_lt.1 hlt
    rw [if_pos hlt, Tally.step_of_lt hlt']
    dsimp only [tally] at hlt' ⊢
    constructor
    · rintro ⟨hsub, hadd⟩
      have hle := (r.required + (e.need - r.depth)).toInt_le
      exact ⟨e.stack.toInt_le, by omega⟩
    · -- the shortfall is no more than the sum of all, so that it fits as well
      rintro ⟨-, hsum⟩
      have hsub : (e.need - r.depth).toInt = e.need.toInt - r.depth.toInt :=
        toInt_sub_eq (by omega) (by omega)
      refine ⟨hsub, (toInt_add_eq_iff _ _).2 ?_⟩
      rw [hsub]
      omega
  · have hle : e.need.toInt ≤ r.tally.depth := by
      rw [Int64.lt_iff_toInt_lt] at hlt
      exact Int.not_lt.1 hlt
    have hsame := r.required.toInt_le
    rw [if_neg hlt, Tally.step_of_le hle, toInt_add_eq_iff]
    dsimp only [tally] at hle ⊢
    omega

/-- No operation on words wraps if and only if the integers fit. -/
theorem noWrap_iff_fits {r : Running} {es : List StackEffect}
    (hneed : ∀ e ∈ es, 0 ≤ e.need.toInt) (hr : 0 ≤ r.required.toInt) :
    r.NoWrap es ↔ r.tally.Fits es := by
  induction es generalizing r with
  | nil =>
    have hmin := Int64.toInt_minValue
    have hdepth := r.depth.le_toInt
    have hle := r.required.toInt_le
    rw [Running.NoWrap, Tally.Fits, toInt_add_eq_iff]
    dsimp only [Running.tally, Tally.exit]
    omega
  | cons e es ih =>
    obtain ⟨he, hes⟩ := List.forall_mem_cons.1 hneed
    rw [Running.NoWrap, Tally.Fits, Running.stepExact_iff he hr]
    -- what is asked for is not negative behind the block either, as long as nothing wraps there
    have hgrow : (r.tally.step e).depth ≤ Int64.maxValue.toInt →
        (r.tally.step e).required ≤ Int64.maxValue.toInt →
        ((r.step e).NoWrap es ↔ (r.tally.step e).Fits es) := by
      intro hdepth hreq
      have htally := Running.tally_step ((Running.stepExact_iff he hr).2 ⟨hdepth, hreq⟩)
      have hstep := r.tally.required_le_along [e]
      rw [ih hes ?_, htally]
      exact (hr.trans hstep).trans_eq (congrArg Tally.required htally).symm
    constructor
    · rintro ⟨⟨hdepth, hreq⟩, hrest⟩
      exact ⟨hdepth, (hgrow hdepth hreq).1 hrest⟩
    · rintro ⟨hdepth, hrest⟩
      exact ⟨⟨hdepth, hrest.required_le⟩, (hgrow hdepth hrest.required_le).2 hrest⟩

/-- The sum of the needs and of the sizes of the changes. -/
def load : List StackEffect → Int
  | [] => 0
  | e :: es => e.need.toInt + e.stack.toInt.natAbs + load es

/-- The load of effects is not negative if their needs are not. -/
theorem load_nonneg {es : List StackEffect} (hneed : ∀ e ∈ es, 0 ≤ e.need.toInt) :
    0 ≤ load es := by
  induction es with
  | nil => exact le_refl _
  | cons e es ih =>
    obtain ⟨he, hes⟩ := List.forall_mem_cons.1 hneed
    have hrest := ih hes
    rw [load]
    omega

/-- The integers fit if what is there already and all that is still to come add up to a word. -/
theorem fits_of_load_le {t : Tally} {es : List StackEffect} (hneed : ∀ e ∈ es, 0 ≤ e.need.toInt)
    (ht : 0 ≤ t.required)
    (hload : t.required + t.depth.natAbs + load es ≤ Int64.maxValue.toInt) : t.Fits es := by
  induction es generalizing t with
  | nil =>
    rw [load] at hload
    exact ⟨by omega, by rw [Tally.exit]; omega⟩
  | cons e es ih =>
    obtain ⟨he, hes⟩ := List.forall_mem_cons.1 hneed
    have hrest := load_nonneg hes
    rw [load] at hload
    rcases lt_or_ge t.depth e.need.toInt with hlt | hle
    · have hshort : 0 ≤ t.required + (e.need.toInt - t.depth) := by omega
      rw [Tally.Fits, Tally.step_of_lt hlt]
      refine ⟨by dsimp only; omega, ih hes hshort ?_⟩
      dsimp only
      omega
    · rw [Tally.Fits, Tally.step_of_le hle]
      refine ⟨by dsimp only; omega, ih hes ht ?_⟩
      dsimp only
      omega

/-! ## Which paths have a balance -/

/-- A run along a path succeeds if each block is known and needs no negative number of items. -/
theorem Running.along_of_known {effect? : BlockId → Option StackEffect} (r : Running) {p : Path}
    (h : ∀ n ∈ p, ∃ e, effect? n = some e ∧ 0 ≤ e.need.toInt) :
    Running.along effect? r p = .ok ((effects effect? p).foldl Running.step r) := by
  induction p generalizing r with
  | nil => rfl
  | cons n p ih =>
    obtain ⟨⟨e, he, hneed⟩, hp⟩ := List.forall_mem_cons.1 h
    have hnn : ¬ e.need < 0 := by
      rw [Int64.lt_iff_toInt_lt]
      exact Int.not_lt.2 hneed
    rw [Running.along, he]
    dsimp only
    rw [if_neg hnn, ih _ hp, effects, effects, List.filterMap_cons, he, List.foldl_cons]

/-- The exit that the words yield for the blocks of a path. -/
def exitWord (es : List StackEffect) : Int64 :=
  (es.foldl Running.step ⟨0, 0⟩).depth + (es.foldl Running.step ⟨0, 0⟩).required

/-- A path of known blocks is refused for its exit alone. -/
theorem ofPath_of_known {effect? : BlockId → Option StackEffect} {p : Path} (hne : p ≠ [])
    (h : ∀ n ∈ p, ∃ e, effect? n = some e ∧ 0 ≤ e.need.toInt) :
    ofPath effect? p =
      if exitWord (effects effect? p) < 0 then
        .error (.negativeExit p (exitWord (effects effect? p)))
      else .ok ⟨((effects effect? p).foldl Running.step ⟨0, 0⟩).required,
        exitWord (effects effect? p)⟩ := by
  obtain ⟨n, p, rfl⟩ := List.exists_cons_of_ne_nil hne
  unfold ofPath
  dsimp only
  rw [Running.along_of_known ⟨0, 0⟩ h]
  rfl

/-- As long as the integers fit, the exit of the words is what the integers leave. -/
theorem toInt_exitWord {es : List StackEffect} (hneed : ∀ e ∈ es, 0 ≤ e.need.toInt)
    (hfits : (Tally.mk 0 0).Fits es) :
    (exitWord es).toInt = ((Tally.mk 0 0).along es).exit :=
  (Running.tally_along ((noWrap_iff_fits (r := ⟨0, 0⟩) hneed (le_refl _)).2 hfits)).2

/-- As long as the integers fit, a balance is what they yield: the sum of the shortfalls, which is
not negative, and the exit. A path of known blocks has a balance if and only if the integers leave
no negative number of items. -/
theorem ofPath_exact_of_fits {effect? : BlockId → Option StackEffect} {p : Path}
    (hfits : (Tally.mk 0 0).Fits (effects effect? p)) :
    (∀ b, ofPath effect? p = .ok b →
        b.entry.toInt = ((Tally.mk 0 0).along (effects effect? p)).required ∧
        b.exit.toInt = ((Tally.mk 0 0).along (effects effect? p)).exit ∧ 0 ≤ b.entry.toInt) ∧
      (p ≠ [] → (∀ n ∈ p, ∃ e, effect? n = some e ∧ 0 ≤ e.need.toInt) →
        ((∃ b, ofPath effect? p = .ok b) ↔
          0 ≤ ((Tally.mk 0 0).along (effects effect? p)).exit)) := by
  constructor
  · intro b hb
    obtain ⟨r, hr, -⟩ := ofPath_eq_ok hb
    have hneed := need_nonneg_of_known (Running.along_eq_ok hr).1
    have hw := (noWrap_iff_fits (r := ⟨0, 0⟩) hneed (le_refl _)).2 hfits
    obtain ⟨-, -, hentry, hexit⟩ := ofPath_eq_tally hw hb
    exact ⟨hentry, hexit, (Tally.required_le_along ⟨0, 0⟩ _).trans_eq hentry.symm⟩
  · intro hne hknown
    have hneed := need_nonneg_of_known hknown
    have hsign : exitWord (effects effect? p) < 0 ↔
        ((Tally.mk 0 0).along (effects effect? p)).exit < 0 := by
      rw [← toInt_exitWord hneed hfits]
      exact Int64.lt_iff_toInt_lt
    rw [ofPath_of_known hne hknown]
    by_cases hneg : exitWord (effects effect? p) < 0
    · have hexit := hsign.1 hneg
      rw [if_pos hneg]
      exact ⟨fun ⟨b, hb⟩ => absurd hb (by simp), fun h => absurd h (Int.not_le.2 hexit)⟩
    · rw [if_neg hneg]
      exact ⟨fun _ => Int.not_lt.1 (fun h => hneg (hsign.2 h)), fun _ => ⟨_, rfl⟩⟩

/-- Two blocks, the second of which brings the exit up to the greatest word. -/
def upToGreatest (n : BlockId) : Option StackEffect :=
  if n = 0 then some ⟨5, 2⟩ else if n = 1 then some ⟨0, Int64.maxValue - 7⟩ else none

/-- A path that ends with the greatest word has an exact balance. -/
theorem ofPath_exact_of_fits_upToGreatest :
    (Tally.mk 0 0).Fits (effects upToGreatest [0, 1]) ∧
      ofPath upToGreatest [0, 1] = .ok ⟨5, Int64.maxValue⟩ ∧
      (5 : Int64).toInt = ((Tally.mk 0 0).along (effects upToGreatest [0, 1])).required ∧
      Int64.maxValue.toInt = ((Tally.mk 0 0).along (effects upToGreatest [0, 1])).exit ∧
      0 ≤ ((Tally.mk 0 0).along (effects upToGreatest [0, 1])).exit := by
  have h : ofPath upToGreatest [0, 1] = .ok ⟨5, Int64.maxValue⟩ := by decide
  have hknown : ∀ n ∈ [(0 : BlockId), 1], ∃ e, upToGreatest n = some e ∧ 0 ≤ e.need.toInt := by
    refine List.forall_mem_cons.2 ⟨⟨⟨5, 2⟩, rfl, by decide⟩, ?_⟩
    exact List.forall_mem_singleton.2 ⟨⟨0, Int64.maxValue - 7⟩, rfl, by decide⟩
  have hfits : (Tally.mk 0 0).Fits (effects upToGreatest [0, 1]) :=
    fits_of_load_le (need_nonneg_of_known hknown) (le_refl _) (by decide)
  obtain ⟨hexact, hexists⟩ := ofPath_exact_of_fits hfits
  obtain ⟨hentry, hexit, -⟩ := hexact _ h
  exact ⟨hfits, h, hentry, hexit, (hexists (by decide) hknown).1 ⟨_, h⟩⟩

/-- Two blocks that each put as many items on the stack as a word can say, and two that take off as
many. -/
def upAndDown (n : BlockId) : Option StackEffect :=
  if n = 0 ∨ n = 1 then some ⟨0, Int64.maxValue⟩
  else if n = 2 ∨ n = 3 then some ⟨0, Int64.minValue⟩ else none

/-- Words that wrap give a balance to a path that leaves two items less than none: the depth wraps
behind the second block, which makes a shortfall of the third and the fourth, and the exit wraps
again. What the path is said to ask for on entry is negative. -/
theorem wrapped_path_accepted :
    (∀ n ∈ [(0 : BlockId), 1, 2, 3], ∃ e, upAndDown n = some e ∧ 0 ≤ e.need) ∧
      ofPath upAndDown [0, 1, 2, 3] = .ok ⟨Int64.minValue + 2, 2⟩ ∧
      (Int64.minValue + 2).toInt < 0 ∧
      ((Tally.mk 0 0).along (effects upAndDown [0, 1, 2, 3])).required = 0 ∧
      ((Tally.mk 0 0).along (effects upAndDown [0, 1, 2, 3])).exit = -2 := by
  refine ⟨fun n hn => ?_, by decide, by decide, by decide, by decide⟩
  simp only [List.mem_cons, List.not_mem_nil, or_false] at hn
  rcases hn with rfl | rfl | rfl | rfl <;> exact ⟨_, rfl, by decide⟩

end StackFlow.Balance
