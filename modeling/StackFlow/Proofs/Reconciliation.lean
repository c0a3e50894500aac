import StackFlow.Balance
import StackFlow.Proofs.MergeNodes
import StackFlow.Proofs.PathText

/-!
# Reconciling the paths into a block

Paths are reconciled in lexicographic order, and a path whose text was seen is passed over. Either
the least path at fault decides the error (`FirstFault`), or all paths are listed once with their
balances (`Balances`); `gather_spec` carries this along the list. Both are said by the members of
the collection alone and each has one outcome, so that the result depends on the set of paths only
(`ofPaths_by_members`).
-/

namespace StackFlow.Merge

/-- A path that cannot be reconciled at a block, and why. -/
inductive Offends (effect? : BlockId → Option StackEffect) (node : BlockId) :
    Path → BalanceError → Prop
  /-- The path has no blocks. -/
  | empty : Offends effect? node [] .emptyPath
  /-- The path ends elsewhere. -/
  | elsewhere {p : Path} {n : BlockId} (hlast : p.getLast? = some n) (hn : n ≠ node) :
      Offends effect? node p (.notAtMerge p node)
  /-- The path ends at the block and has no balance. -/
  | unbalanced {p : Path} {e : BalanceError} (hlast : p.getLast? = some node)
      (he : Balance.ofPath effect? p = .error e) : Offends effect? node p (.onPath p e)

/-- The complaint about the least path at fault. -/
def FirstFault (effect? : BlockId → Option StackEffect) (node : BlockId) (ps : Paths)
    (e : BalanceError) : Prop :=
  ∃ p ∈ ps, Offends effect? node p e ∧ ∀ q ∈ ps, ∀ e', Offends effect? node q e' → p ≤ q

/-- The paths of a collection, each once and in order, with their balances. -/
structure Balances (effect? : BlockId → Option StackEffect) (node : BlockId) (ps : Paths)
    (bs : List PathBalance) : Prop where
  /-- The paths ascend, so that none is listed twice. -/
  ascending : (bs.map (·.path)).Pairwise (· < ·)
  /-- The paths are those of the collection. -/
  mem_iff : ∀ p, p ∈ bs.map (·.path) ↔ p ∈ ps
  /-- Each of them ends at the block. -/
  last : ∀ x ∈ bs, x.path.getLast? = some node
  /-- Each of them has its balance. -/
  balance : ∀ x ∈ bs, Balance.ofPath effect? x.path = .ok x.balance

variable {effect? : BlockId → Option StackEffect} {node : BlockId} {p : Path} {ps qs done : Paths}
  {bs : List PathBalance} {seen : SortedSet String} {e : BalanceError} {b : Balance}

/-! ## Faults -/

/-- A path is at fault, or it ends at the block and has a balance. -/
theorem offends_or_balance (effect? : BlockId → Option StackEffect) (node : BlockId) (p : Path) :
    (∃ e, Offends effect? node p e) ∨
      p.getLast? = some node ∧ ∃ b, Balance.ofPath effect? p = .ok b := by
  cases hlast : p.getLast? with
  | none =>
    rw [List.getLast?_eq_none_iff] at hlast
    subst hlast
    exact .inl ⟨_, .empty⟩
  | some n =>
    by_cases hn : n = node
    · subst hn
      cases hb : Balance.ofPath effect? p with
      | error e => exact .inl ⟨_, .unbalanced hlast hb⟩
      | ok b => exact .inr ⟨rfl, b, rfl⟩
    · exact .inl ⟨_, .elsewhere hlast hn⟩

/-- A path that ends at the block and has a balance does not offend. -/
theorem not_offends (hlast : p.getLast? = some node) (hb : Balance.ofPath effect? p = .ok b)
    (e : BalanceError) : ¬ Offends effect? node p e := by
  intro h
  cases h with
  | empty => exact absurd hlast (by nofun)
  | elsewhere hlast' hn => exact hn (Option.some.inj (hlast'.symm.trans hlast))
  | unbalanced _ he => exact absurd (hb.symm.trans he) (by nofun)

/-- A path offends in one way only. -/
theorem Offends.unique {e' : BalanceError} (h : Offends effect? node p e)
    (h' : Offends effect? node p e') : e = e' := by
  cases h with
  | empty =>
    cases h' with
    | empty => rfl
    | elsewhere hlast _ => exact absurd hlast (by nofun)
    | unbalanced hlast _ => exact absurd hlast (by nofun)
  | elsewhere hlast hn =>
    cases h' with
    | empty => exact absurd hlast (by nofun)
    | elsewhere _ _ => rfl
    | unbalanced hlast' _ => exact absurd (Option.some.inj (hlast.symm.trans hlast')) hn
  | unbalanced hlast he =>
    cases h' with
    | empty => exact absurd hlast (by nofun)
    | elsewhere hlast' hn => exact absurd (Option.some.inj (hlast'.symm.trans hlast)) hn
    | unbalanced _ he' => rw [Except.error.inj (he.symm.trans he')]

/-- There is only one first fault. -/
theorem FirstFault.unique {e' : BalanceError} (h : FirstFault effect? node ps e)
    (h' : FirstFault effect? node ps e') : e = e' := by
  obtain ⟨p, hp, hoffends, hleast⟩ := h
  obtain ⟨q, hq, hoffends', hleast'⟩ := h'
  obtain rfl : p = q := List.le_antisymm (hleast q hq _ hoffends') (hleast' p hp _ hoffends)
  exact hoffends.unique hoffends'

/-- The first fault depends on the set of paths only. -/
theorem FirstFault.congr (hmem : ∀ p, p ∈ ps ↔ p ∈ qs) (h : FirstFault effect? node ps e) :
    FirstFault effect? node qs e := by
  obtain ⟨p, hp, hoffends, hleast⟩ := h
  exact ⟨p, (hmem p).1 hp, hoffends, fun q hq => hleast q ((hmem q).2 hq)⟩

/-- The path that comes first in order is the least at fault if it is at fault. -/
theorem FirstFault.of_offends (h : Offends effect? node p e) (hle : ∀ q ∈ ps, p ≤ q) :
    FirstFault effect? node (p :: ps) e := by
  refine ⟨p, List.mem_cons_self, h, fun q hq e' _ => ?_⟩
  rcases List.mem_cons.1 hq with rfl | hq
  · exact List.le_refl q
  · exact hle q hq

/-- A path that is not at fault does not matter. -/
theorem FirstFault.cons (h : FirstFault effect? node ps e) (hp : ∀ e, ¬ Offends effect? node p e) :
    FirstFault effect? node (p :: ps) e := by
  obtain ⟨q, hq, hoffends, hleast⟩ := h
  refine ⟨q, List.mem_cons_of_mem _ hq, hoffends, fun r hr e' hr' => ?_⟩
  rcases List.mem_cons.1 hr with rfl | hr
  · exact absurd hr' (hp e')
  · exact hleast r hr e' hr'

/-! ## Lists of balances -/

/-- No paths have no balances. -/
theorem balances_nil (effect? : BlockId → Option StackEffect) (node : BlockId) :
    Balances effect? node [] [] where
  ascending := List.Pairwise.nil
  mem_iff _ := Iff.rfl
  last _ h := absurd h List.not_mem_nil
  balance _ h := absurd h List.not_mem_nil

/-- The balances depend on the set of paths only. -/
theorem Balances.congr (hmem : ∀ p, p ∈ ps ↔ p ∈ qs) (h : Balances effect? node ps bs) :
    Balances effect? node qs bs :=
  { h with mem_iff := fun p => (h.mem_iff p).trans (hmem p) }

/-- A path that is not below the others is listed behind them. -/
theorem Balances.append (h : Balances effect? node done bs) (hle : ∀ q ∈ done, q ≤ p)
    (hnew : p ∉ done) (hlast : p.getLast? = some node) (hb : Balance.ofPath effect? p = .ok b) :
    Balances effect? node (done ++ [p]) (bs ++ [⟨p, b⟩]) := by
  constructor
  case ascending =>
    rw [List.map_append]
    refine List.pairwise_append.2 ⟨h.ascending, List.pairwise_singleton _ _, fun q hq r hr => ?_⟩
    obtain rfl := List.mem_singleton.1 hr
    have hq' := (h.mem_iff q).1 hq
    exact Std.lt_of_le_of_ne (hle q hq') (fun heq => hnew (heq ▸ hq'))
  case mem_iff =>
    intro q
    rw [List.map_append, List.mem_append, h.mem_iff, List.mem_append]
    rfl
  case last =>
    intro x hx
    rcases List.mem_append.1 hx with hx | hx
    · exact h.last x hx
    · rw [List.mem_singleton.1 hx]
      exact hlast
  case balance =>
    intro x hx
    rcases List.mem_append.1 hx with hx | hx
    · exact h.balance x hx
    · rw [List.mem_singleton.1 hx]
      exact hb

/-- Each of the paths ends at the block and has a balance. -/
theorem Balances.exists_balance (h : Balances effect? node ps bs) (hp : p ∈ ps) :
    p.getLast? = some node ∧ ∃ b, Balance.ofPath effect? p = .ok b := by
  obtain ⟨x, hx, rfl⟩ := List.mem_map.1 ((h.mem_iff p).2 hp)
  exact ⟨h.last x hx, x.balance, h.balance x hx⟩

/-- Where there are paths there are balances. -/
theorem Balances.ne_nil (h : Balances effect? node ps bs) (hne : ps ≠ []) : bs ≠ [] := by
  rintro rfl
  obtain ⟨p, hp⟩ := List.exists_mem_of_ne_nil ps hne
  exact absurd ((h.mem_iff p).2 hp) List.not_mem_nil

/-- Where all paths have a balance there is no fault. -/
theorem Balances.not_firstFault (h : Balances effect? node ps bs) (e : BalanceError) :
    ¬ FirstFault effect? node ps e := by
  rintro ⟨p, hp, hoffends, -⟩
  obtain ⟨hlast, b, hb⟩ := h.exists_balance hp
  exact not_offends hlast hb e hoffends

/-- A collection has one list of balances. -/
theorem Balances.unique {bs' : List PathBalance} (h : Balances effect? node ps bs)
    (h' : Balances effect? node ps bs') : bs = bs' := by
  have hnodup : ∀ {bs}, Balances effect? node ps bs → bs.Nodup := by
    intro bs h
    refine (List.pairwise_map.1 h.ascending).imp ?_
    rintro x y hlt rfl
    exact Std.lt_irrefl hlt
  -- a path that both lists have is listed with its balance in both
  have hsub : ∀ {bs bs'}, Balances effect? node ps bs → Balances effect? node ps bs' →
      ∀ x ∈ bs, x ∈ bs' := by
    intro bs bs' h h' x hx
    have hpath := (h'.mem_iff x.path).2 ((h.mem_iff x.path).1 (List.mem_map_of_mem hx))
    obtain ⟨y, hy, hxy⟩ := List.mem_map.1 hpath
    have hbalance := h'.balance y hy
    rw [hxy, h.balance x hx] at hbalance
    have hsame : x = y := by
      obtain ⟨path, balance⟩ := x
      obtain ⟨path', balance'⟩ := y
      rw [PathBalance.mk.injEq]
      exact ⟨hxy.symm, Except.ok.inj hbalance⟩
    rwa [hsame]
  have hperm : bs.Perm bs' := (List.perm_ext_iff_of_nodup (hnodup h) (hnodup h')).2
    (fun x => ⟨hsub h h' x, hsub h' h x⟩)
  refine hperm.eq_of_pairwise ?_ (List.pairwise_map.1 h.ascending)
    (List.pairwise_map.1 h'.ascending)
  intro x y _ _ hxy hyx
  exact absurd hyx (List.lt_asymm hxy)

/-! ## Gathering -/

/-- A path that offends ends the collection of balances. -/
theorem gather_of_offends (h : Offends effect? node p e) (hnew : p.text ∉ seen.toList) :
    gather effect? node seen bs (p :: ps) = .error e := by
  have hseen : ¬ seen.contains p.text = true := fun hc => hnew ((seen.contains_iff _).1 hc)
  unfold gather
  cases h with
  | empty => rfl
  | elsewhere hlast hn =>
    rw [hlast]
    exact if_pos hn
  | unbalanced hlast he =>
    rw [hlast, he]
    dsimp only
    rw [if_neg (not_not_intro rfl), if_neg hseen]

/-- A path that was seen before is passed over. -/
theorem gather_of_seen (hlast : p.getLast? = some node) (hseen : p.text ∈ seen.toList) :
    gather effect? node seen bs (p :: ps) = gather effect? node seen bs ps := by
  rw [gather, hlast]
  dsimp only
  rw [if_neg (not_not_intro rfl), if_pos ((seen.contains_iff _).2 hseen)]

/-- A path that was not seen before is listed with its balance. -/
theorem gather_of_new (hlast : p.getLast? = some node) (hnew : p.text ∉ seen.toList)
    (hb : Balance.ofPath effect? p = .ok b) :
    gather effect? node seen bs (p :: ps) =
      gather effect? node (seen.add p.text) (bs ++ [⟨p, b⟩]) ps := by
  have hseen : ¬ seen.contains p.text = true := fun hc => hnew ((seen.contains_iff _).1 hc)
  rw [gather, hlast, hb]
  dsimp only
  rw [if_neg (not_not_intro rfl), if_neg hseen]

/-- A path that is not at fault joins those that are done. It is passed over exactly if it is among
them already, because its text tells it apart. -/
theorem gather_step (hbs : Balances effect? node done bs)
    (hseen : ∀ p : Path, p.text ∈ seen.toList ↔ p ∈ done) (hle : ∀ q ∈ done, q ≤ p)
    (hlast : p.getLast? = some node) (hb : Balance.ofPath effect? p = .ok b) (ps : Paths) :
    ∃ seen' bs', gather effect? node seen bs (p :: ps) = gather effect? node seen' bs' ps ∧
      Balances effect? node (done ++ [p]) bs' ∧
      ∀ q : Path, q.text ∈ seen'.toList ↔ q ∈ done ++ [p] := by
  by_cases hdone : p ∈ done
  · have hmem : ∀ q, q ∈ done ↔ q ∈ done ++ [p] := by
      intro q
      rw [List.mem_append, List.mem_singleton]
      exact (or_iff_left_of_imp (fun hq => hq ▸ hdone)).symm
    exact ⟨seen, bs, gather_of_seen hlast ((hseen p).2 hdone), hbs.congr hmem,
      fun q => (hseen q).trans (hmem q)⟩
  · have hnew : p.text ∉ seen.toList := fun h => hdone ((hseen p).1 h)
    refine ⟨seen.add p.text, bs ++ [⟨p, b⟩], gather_of_new hlast hnew hb,
      hbs.append hle hdone hlast hb, fun q => ?_⟩
    rw [SortedSet.mem_toList_add, hseen, Path.text_injective.eq_iff, List.mem_append,
      List.mem_singleton]

/-- Gathering paths in order behind those that are done ends with the complaint about the least at
fault, or lists them all. -/
theorem gather_spec (hbs : Balances effect? node done bs)
    (hseen : ∀ p : Path, p.text ∈ seen.toList ↔ p ∈ done) (horder : (done ++ ps).Pairwise (· ≤ ·)) :
    (∃ e, gather effect? node seen bs ps = .error e ∧ FirstFault effect? node ps e) ∨
      ∃ bs', gather effect? node seen bs ps = .ok bs' ∧
        Balances effect? node (done ++ ps) bs' := by
  induction ps generalizing done bs seen with
  | nil =>
    refine .inr ⟨bs, rfl, ?_⟩
    rwa [List.append_nil]
  | cons p ps ih =>
    obtain ⟨-, hbehind, hbefore⟩ := List.pairwise_append.1 horder
    rcases offends_or_balance effect? node p with ⟨e, he⟩ | ⟨hlast, b, hb⟩
    · -- what is done was not at fault, so the path is met for the first time
      have hnew : p.text ∉ seen.toList := by
        rw [hseen]
        intro hdone
        obtain ⟨hlast, b, hb⟩ := hbs.exists_balance hdone
        exact not_offends hlast hb e he
      exact .inl ⟨e, gather_of_offends he hnew, .of_offends he (List.pairwise_cons.1 hbehind).1⟩
    · have hle : ∀ q ∈ done, q ≤ p := fun q hq => hbefore q hq p List.mem_cons_self
      obtain ⟨seen', bs', hgather, hbs', hseen'⟩ := gather_step hbs hseen hle hlast hb ps
      rw [List.append_cons] at horder
      rw [hgather, List.append_cons]
      rcases ih hbs' hseen' horder with ⟨e, he, hfirst⟩ | hok
      · exact .inl ⟨e, he, hfirst.cons (not_offends hlast hb)⟩
      · exact .inr hok

/-! ## The result of a reconciliation -/

/-- Paths are reconciled to the complaint about the least at fault, or to a merge that lists them
all. -/
theorem ofPaths_spec (effect? : BlockId → Option StackEffect) (node : BlockId) (hne : ps ≠ []) :
    (∃ e, ofPaths effect? node ps = .error e ∧ FirstFault effect? node ps e) ∨
      ∃ m, ofPaths effect? node ps = .ok m ∧ m.node = node ∧
        Balances effect? node ps m.perPath := by
  have hempty : ¬ ps.isEmpty = true := by rwa [List.isEmpty_iff]
  have hsorted : ∀ p, p ∈ ps.sorted ↔ p ∈ ps := fun p => Paths.mem_sorted
  have hseen : ∀ p : Path, p.text ∈ SortedSet.toList .empty ↔ p ∈ [] :=
    fun _ => iff_of_false List.not_mem_nil List.not_mem_nil
  have horder : ([] ++ ps.sorted).Pairwise (· ≤ ·) := Paths.pairwise_le_sorted ps
  unfold ofPaths
  rw [if_neg hempty]
  rcases gather_spec (balances_nil effect? node) hseen horder with
    ⟨e, hgather, hfirst⟩ | ⟨bs, hgather, hbs⟩
  · rw [hgather]
    exact .inl ⟨e, rfl, hfirst.congr hsorted⟩
  · rw [hgather]
    exact .inr ⟨_, rfl, rfl, hbs.congr hsorted⟩

/-- A merge lists the paths that it was made from. -/
theorem balances_of_ofPaths {m : Merge} (h : ofPaths effect? node ps = .ok m) :
    ps ≠ [] ∧ m.node = node ∧ Balances effect? node ps m.perPath := by
  have hne : ps ≠ [] := by
    rintro rfl
    exact absurd h (by nofun)
  refine ⟨hne, ?_⟩
  rcases ofPaths_spec effect? node hne with ⟨e, he, -⟩ | ⟨m', hm', hspec⟩
  · exact absurd (h.symm.trans he) (by nofun)
  · rwa [Except.ok.inj (h.symm.trans hm')]

/-- Paths are refused for the first fault among them. -/
theorem ofPaths_eq_error_iff (hne : ps ≠ []) :
    ofPaths effect? node ps = .error e ↔ FirstFault effect? node ps e := by
  rcases ofPaths_spec effect? node hne with ⟨e', he', hfirst⟩ | ⟨m, hm, -, hbs⟩
  · rw [he', Except.error.injEq]
    exact ⟨fun heq => heq ▸ hfirst, fun h => hfirst.unique h⟩
  · rw [hm]
    exact iff_of_false (by nofun) (hbs.not_firstFault e)

/-- Paths can be reconciled if all of them end at the block and have a balance. -/
theorem exists_ofPaths_iff (hne : ps ≠ []) :
    (∃ m, ofPaths effect? node ps = .ok m) ↔
      ∀ p ∈ ps, p.getLast? = some node ∧ ∃ b, Balance.ofPath effect? p = .ok b := by
  constructor
  · rintro ⟨m, hm⟩ p hp
    exact (balances_of_ofPaths hm).2.2.exists_balance hp
  · intro hall
    rcases ofPaths_spec effect? node hne with ⟨e, -, p, hp, hoffends, -⟩ | ⟨m, hm, -⟩
    · obtain ⟨hlast, b, hb⟩ := hall p hp
      exact absurd hoffends (not_offends hlast hb e)
    · exact ⟨m, hm⟩

/-- Collections with the same members are reconciled alike. -/
theorem ofPaths_congr (effect? : BlockId → Option StackEffect) (node : BlockId)
    (hmem : ∀ p, p ∈ ps ↔ p ∈ qs) : ofPaths effect? node ps = ofPaths effect? node qs := by
  by_cases hne : ps = []
  · subst hne
    have hqs : qs = [] :=
      List.eq_nil_iff_forall_not_mem.2 (fun p hp => List.not_mem_nil ((hmem p).2 hp))
    rw [hqs]
  · have hqs : qs ≠ [] := by
      rintro rfl
      exact hne (List.eq_nil_iff_forall_not_mem.2 (fun p hp => List.not_mem_nil ((hmem p).1 hp)))
    rcases ofPaths_spec effect? node hne with ⟨e, he, hfirst⟩ | ⟨m, hm, hnode, hbs⟩
    · rw [he, (ofPaths_eq_error_iff hqs).2 (hfirst.congr hmem)]
    · rcases ofPaths_spec effect? node hqs with ⟨e, -, hfirst⟩ | ⟨m', hm', hnode', hbs'⟩
      · exact absurd (hfirst.congr (fun p => (hmem p).symm)) (hbs.not_firstFault e)
      · have hperPath : m.perPath = m'.perPath := (hbs.congr hmem).unique hbs'
        rw [hm, hm']
        obtain ⟨n, bs⟩ := m
        obtain ⟨n', bs'⟩ := m'
        rw [Except.ok.injEq, Merge.mk.injEq]
        exact ⟨hnode.trans hnode'.symm, hperPath⟩

/-- A merge has one balance if that is the only one among its paths. -/
theorem single?_eq_some_iff_distinct {m : Merge} :
    m.single? = some b ↔ distinct m.perPath = [b] := by
  unfold single?
  split
  next c hc => rw [hc, Option.some.injEq, List.cons.injEq, and_iff_left rfl]
  next hne => exact iff_of_false (by nofun) (hne b)

/-- Paths have a common balance exactly if the balance of each of them is this one. -/
theorem single?_eq_some_iff {m : Merge} (hne : m.perPath ≠ []) :
    m.single? = some b ↔ ∀ x ∈ m.perPath, x.balance = b := by
  have hmem : ∀ c, c ∈ distinct m.perPath ↔ ∃ x ∈ m.perPath, x.balance = c := by
    intro c
    rw [distinct, mem_firsts, List.mem_map]
  rw [single?_eq_some_iff_distinct]
  constructor
  · intro hb x hx
    have hx' := (hmem x.balance).2 ⟨x, hx, rfl⟩
    rw [hb] at hx'
    exact List.mem_singleton.1 hx'
  · intro hall
    have heq : ∀ c ∈ distinct m.perPath, c = b := by
      intro c hc
      obtain ⟨x, hx, rfl⟩ := (hmem c).1 hc
      exact hall x hx
    obtain ⟨x, hx⟩ := List.exists_mem_of_ne_nil _ hne
    have hx' := (hmem x.balance).2 ⟨x, hx, rfl⟩
    -- distinct balances that are all the same are at most one
    have hle : ¬ 1 < (distinct m.perPath).length := by
      intro hlt
      obtain ⟨c, d, hcd, hc, hd⟩ := (one_lt_length_iff_of_nodup (nodup_firsts _)).1 hlt
      exact hcd ((heq c hc).trans (heq d hd).symm)
    have hpos := List.length_pos_of_mem hx'
    obtain ⟨c, hc⟩ := List.length_eq_one_iff.1 (by omega : (distinct m.perPath).length = 1)
    have hcb : c = b := heq c (by rw [hc]; exact List.mem_singleton_self c)
    rw [hc, hcb]

/-- A merge has one balance if all its paths have the same. -/
theorem isSome_single?_iff {m : Merge} (hne : m.perPath ≠ []) :
    m.single?.isSome = true ↔ ∀ x ∈ m.perPath, ∀ y ∈ m.perPath, x.balance = y.balance := by
  rw [Option.isSome_iff_exists]
  constructor
  · rintro ⟨b, hb⟩ x hx y hy
    have hall := (single?_eq_some_iff hne).1 hb
    rw [hall x hx, hall y hy]
  · intro hall
    obtain ⟨x, hx⟩ := List.exists_mem_of_ne_nil _ hne
    exact ⟨x.balance, (single?_eq_some_iff hne).2 (fun y hy => hall y hy x hx)⟩

/-- The result of a reconciliation depends on the set of paths only: collections with the same
members give the same merge or the same error. It succeeds exactly if there is a path and every path
is not empty, ends at the block and has a balance. Otherwise there is no path, or the error is that
of the lexicographically least path at fault. On success the paths are listed in strictly ascending
order, each once and with its balance. There is a common balance exactly if all balances are equal,
and it is then the balance of every path. -/
theorem ofPaths_by_members (effect? : BlockId → Option StackEffect) (node : BlockId) (ps : Paths) :
    (∀ qs : Paths, (∀ p, p ∈ ps ↔ p ∈ qs) → ofPaths effect? node ps = ofPaths effect? node qs) ∧
      ((∃ m, ofPaths effect? node ps = .ok m) ↔ ps ≠ [] ∧
        ∀ p ∈ ps, p ≠ [] ∧ p.getLast? = some node ∧ ∃ b, Balance.ofPath effect? p = .ok b) ∧
      (∀ e, ofPaths effect? node ps = .error e ↔ (ps = [] ∧ e = .noPaths node) ∨
        ∃ p ∈ ps, Offends effect? node p e ∧ ∀ q ∈ ps, ∀ e', Offends effect? node q e' → p ≤ q) ∧
      (∀ m, ofPaths effect? node ps = .ok m →
        m.node = node ∧ (m.perPath.map (·.path)).Pairwise (· < ·) ∧
          (∀ p, p ∈ m.perPath.map (·.path) ↔ p ∈ ps) ∧
          (∀ x ∈ m.perPath, Balance.ofPath effect? x.path = .ok x.balance) ∧
          (m.single?.isSome = true ↔ ∀ x ∈ m.perPath, ∀ y ∈ m.perPath, x.balance = y.balance) ∧
          (∀ b, m.single? = some b → ∀ x ∈ m.perPath, x.balance = b)) := by
  refine ⟨fun qs hmem => ofPaths_congr effect? node hmem, ?_, fun e => ?_, fun m hm => ?_⟩
  · -- a path that ends somewhere is not empty
    constructor
    · rintro ⟨m, hm⟩
      have hne := (balances_of_ofPaths hm).1
      refine ⟨hne, fun p hp => ?_⟩
      obtain ⟨hlast, hb⟩ := (exists_ofPaths_iff hne).1 ⟨m, hm⟩ p hp
      refine ⟨?_, hlast, hb⟩
      rintro rfl
      exact absurd hlast (by nofun)
    · rintro ⟨hne, hall⟩
      exact (exists_ofPaths_iff hne).2 (fun p hp => (hall p hp).2)
  · -- without paths there is nothing that could offend
    by_cases hne : ps = []
    · subst hne
      have hnil : ofPaths effect? node [] = .error (.noPaths node) := rfl
      rw [hnil, Except.error.injEq, eq_comm]
      exact ⟨fun h => .inl ⟨rfl, h⟩, fun h => h.elim And.right (by simp)⟩
    · rw [ofPaths_eq_error_iff hne, or_iff_right (fun h => hne h.1)]
      rfl
  · obtain ⟨hne, hnode, hbs⟩ := balances_of_ofPaths hm
    have hperPath : m.perPath ≠ [] := hbs.ne_nil hne
    exact ⟨hnode, hbs.ascending, hbs.mem_iff, hbs.balance, isSome_single?_iff hperPath,
      fun b hb => (single?_eq_some_iff hperPath).1 hb⟩

/-- Two paths to a block in either order, one of them given twice, are reconciled alike. Of two
paths that end elsewhere the lesser one is named. -/
theorem ofPaths_by_members_repeated :
    ofPaths (fun _ => some ⟨0, 1⟩) 3 [[0, 2, 3], [0, 1, 3], [0, 2, 3]] =
        ofPaths (fun _ => some ⟨0, 1⟩) 3 [[0, 1, 3], [0, 2, 3]] ∧
      (∃ m, ofPaths (fun _ => some ⟨0, 1⟩) 3 [[0, 2, 3], [0, 1, 3], [0, 2, 3]] = .ok m) ∧
      ofPaths (fun _ => some ⟨0, 1⟩) 3 [[7], [0, 2, 3], [0, 1]] =
        .error (.notAtMerge [0, 1] 3) := by
  obtain ⟨hsame, hok, -⟩ :=
    ofPaths_by_members (fun _ => some ⟨0, 1⟩) 3 [[0, 2, 3], [0, 1, 3], [0, 2, 3]]
  obtain ⟨-, -, herror, -⟩ := ofPaths_by_members (fun _ => some ⟨0, 1⟩) 3 [[7], [0, 2, 3], [0, 1]]
  refine ⟨hsame _ (fun p => ?_), hok.2 ⟨by simp, fun p hp => ?_⟩, (herror _).2 (.inr ?_)⟩
  · simp only [List.mem_cons, List.not_mem_nil]
    tauto
  · have hpaths : p = [0, 2, 3] ∨ p = [0, 1, 3] ∨ p = [0, 2, 3] := by simpa using hp
    have hbalance : Balance.ofPath (fun _ => some ⟨0, 1⟩) p = .ok ⟨0, 3⟩ := by
      rcases hpaths with rfl | rfl | rfl <;> decide
    have hends : p ≠ [] ∧ p.getLast? = some 3 := by
      rcases hpaths with rfl | rfl | rfl <;> decide
    exact ⟨hends.1, hends.2, _, hbalance⟩
  · refine ⟨[0, 1], by simp, .elsewhere rfl (by decide), fun q hq _ _ => ?_⟩
    have hpaths : q = [7] ∨ q = [0, 2, 3] ∨ q = [0, 1] := by simpa using hq
    rcases hpaths with rfl | rfl | rfl <;> decide

end StackFlow.Merge
