import Mathlib.Data.List.Permutation
import StackFlow.Proofs.BackEdges
import StackFlow.Proofs.Walks

/-!
# The loops of a detector

The target of a back edge heads a loop. A detector keeps one loop for each such block, with the
sources of the back edges into it as latches and a body that is collected from the latches
backwards, within what the header reaches. `loops_are_natural` says what these loops are after any
calls: their headers, latches and bodies are determined by the back edges and the edges of the
graph. A body has, besides the header, the blocks that the header reaches and that lead to a latch
on a walk that does not pass the header.

What is gathered is what is reached within a list (`mem_gather`), and for bodies this is a walk
(`reachIn_predecessors_iff`). `Registered` says of loops that they are those of a list of back
edges; a walk keeps it (`registering_run`). The bodies of the loops that a walk found new back edges
for are collected after it, and those of all others are still right, so that after each call every
loop has its body (`findBody g l = l`).
-/

namespace StackFlow

/-! ## What is gathered -/

/-- A block is reached from `work` by steps of `next`, within `fresh`. -/
inductive ReachIn (next : BlockId → List BlockId) (fresh work : List BlockId) : BlockId → Prop
  /-- The block is one to begin with. -/
  | start {n : BlockId} (hfresh : n ∈ fresh) (hwork : n ∈ work) : ReachIn next fresh work n
  /-- A step leads from a block that is reached to this one. -/
  | step {m n : BlockId} (h : ReachIn next fresh work m) (hfresh : n ∈ fresh) (hn : n ∈ next m) :
      ReachIn next fresh work n

namespace ReachIn

variable {next next' : BlockId → List BlockId} {fresh work work' : List BlockId} {m n : BlockId}

/-- Only the members of the lists matter. -/
theorem congr {fresh' : List BlockId} (h : ReachIn next fresh work n)
    (hnext : ∀ m k, k ∈ next m → k ∈ next' m) (hsub : ∀ k ∈ fresh, k ∈ fresh') :
    ReachIn next' fresh' work n := by
  induction h with
  | start hfresh hwork => exact .start (hsub _ hfresh) hwork
  | step _ hfresh hn ih => exact .step ih (hsub _ hfresh) (hnext _ _ hn)

/-- Blocks that are not fresh lead nowhere. -/
theorem of_cons (hm : m ∉ fresh) (h : ReachIn next fresh (m :: work) n) :
    ReachIn next fresh work n := by
  induction h with
  | @start n hfresh hwork =>
    rcases List.mem_cons.1 hwork with rfl | hwork
    · exact absurd hfresh hm
    · exact .start hfresh hwork
  | step _ hfresh hn ih => exact .step ih hfresh hn

/-- What is reached is also reached from more blocks. -/
theorem cons (h : ReachIn next fresh work n) (m : BlockId) : ReachIn next fresh (m :: work) n := by
  induction h with
  | start hfresh hwork => exact .start hfresh (List.mem_cons_of_mem _ hwork)
  | step _ hfresh hn ih => exact .step ih hfresh hn

/-- What is reached after a step from `m` is reached from `m`. -/
theorem of_erase (hm : m ∈ fresh) (h : ReachIn next (fresh.erase m) (next m ++ work) n) :
    ReachIn next fresh (m :: work) n := by
  induction h with
  | start hfresh hwork =>
    have hmem := List.mem_of_mem_erase hfresh
    rcases List.mem_append.1 hwork with hstep | hwork
    · exact .step (.start hm List.mem_cons_self) hmem hstep
    · exact .start hmem (List.mem_cons_of_mem _ hwork)
  | step _ hfresh hn ih => exact .step ih (List.mem_of_mem_erase hfresh) hn

/-- What is reached from `m` is `m` or is reached without passing it again. -/
theorem erase (h : ReachIn next fresh (m :: work) n) (hne : n ≠ m) :
    ReachIn next (fresh.erase m) (next m ++ work) n := by
  induction h with
  | start hfresh hwork =>
    refine .start ((List.mem_erase_of_ne hne).2 hfresh) (List.mem_append_right _ ?_)
    exact (List.mem_cons.1 hwork).resolve_left hne
  | @step k n _ hfresh hn ih =>
    have hmem := (List.mem_erase_of_ne hne).2 hfresh
    by_cases hk : k = m
    · exact .start hmem (List.mem_append_left _ (hk ▸ hn))
    · exact .step (ih hk) hmem hn

end ReachIn

/-- What is gathered is what is reached. -/
theorem mem_gather {next : BlockId → List BlockId} {fresh work : List BlockId} {n : BlockId} :
    n ∈ gather next fresh work ↔ ReachIn next fresh work n := by
  fun_induction gather next fresh work with
  | case1 fresh =>
    refine iff_of_false List.not_mem_nil (fun h => ?_)
    induction h with
    | start _ hwork => exact absurd hwork List.not_mem_nil
    | step _ _ _ ih => exact ih
  | case2 fresh m rest hm ih =>
    rw [List.mem_cons, ih]
    constructor
    · rintro (rfl | h)
      · exact .start hm List.mem_cons_self
      · exact h.of_erase hm
    · intro h
      by_cases hn : n = m
      · exact .inl hn
      · exact .inr (h.erase hn)
  | case3 fresh m rest hm ih =>
    rw [ih]
    exact ⟨fun h => h.cons m, fun h => h.of_cons hm⟩

/-- What is gathered was fresh. -/
theorem ReachIn.mem_fresh {next : BlockId → List BlockId} {fresh work : List BlockId} {n : BlockId}
    (h : ReachIn next fresh work n) : n ∈ fresh := by
  cases h with
  | start hfresh _ => exact hfresh
  | step _ hfresh _ => exact hfresh

/-- Nothing is gathered twice. -/
theorem nodup_gather {next : BlockId → List BlockId} {fresh work : List BlockId}
    (h : fresh.Nodup) : (gather next fresh work).Nodup := by
  fun_induction gather next fresh work with
  | case1 fresh => exact List.nodup_nil
  | case2 fresh m rest hm ih =>
    refine List.nodup_cons.2 ⟨fun hmem => ?_, ih (h.erase m)⟩
    -- what is gathered after `m` comes from a list without `m`
    have hfresh : m ∈ fresh.erase m := (mem_gather.1 hmem).mem_fresh
    exact h.not_mem_erase hfresh
  | case3 fresh m rest hm ih => exact ih h

namespace Graph

variable {g : Graph} {h m n : BlockId} {latches : List BlockId}

/-- The list of reachable blocks has those that are reached by walks. -/
theorem mem_reachable : m ∈ g.reachable n ↔ g.Reach n m := by
  unfold reachable
  rw [mem_gather]
  constructor
  · intro hm
    induction hm with
    | start _ hwork =>
      rw [List.mem_singleton.1 hwork]
      exact .refl
    | step _ _ hadj ih => exact ih.tail hadj
  · intro hm
    induction hm with
    | refl => exact .start (mem_firsts.2 List.mem_cons_self) List.mem_cons_self
    | tail _ hadj ih =>
      have htarget := mem_targets_of_mem_successors hadj
      exact .step ih (mem_firsts.2 (List.mem_cons_of_mem _ htarget)) hadj

/-- Without its first block the list has the others that are reached. -/
theorem mem_reachable_erase : m ∈ (g.reachable n).erase n ↔ m ≠ n ∧ g.Reach n m := by
  have hnodup : (g.reachable n).Nodup := nodup_gather (nodup_firsts _)
  rw [hnodup.mem_erase_iff, mem_reachable]

/-- The bodies of loops depend on what is reachable and on the predecessors, in whatever order. -/
theorem findBody_congr {g' : Graph}
    (hpreds : ∀ u v, u ∈ g.predecessors v ↔ u ∈ g'.predecessors v) (hreach : g.Reach = g'.Reach) :
    Loop.findBody g = Loop.findBody g' := by
  funext l
  have hfresh : ∀ k, k ∈ (g.reachable l.header).erase l.header ↔
      k ∈ (g'.reachable l.header).erase l.header := by
    intro k
    rw [mem_reachable_erase, mem_reachable_erase, hreach]
  have hbody :
      SortedSet.ofList (l.header ::
        gather g.predecessors ((g.reachable l.header).erase l.header) l.latches) =
      SortedSet.ofList (l.header ::
        gather g'.predecessors ((g'.reachable l.header).erase l.header) l.latches) := by
    refine SortedSet.ext_toList (fun k => ?_)
    simp only [SortedSet.mem_toList_ofList, List.mem_cons, mem_gather]
    refine or_congr_right ⟨fun hk => ?_, fun hk => ?_⟩
    · exact hk.congr (fun v u => (hpreds u v).1) (fun k => (hfresh k).1)
    · exact hk.congr (fun v u => (hpreds u v).2) (fun k => (hfresh k).2)
  unfold Loop.findBody
  dsimp only
  rw [hbody]

/-- An edge before a walk makes a longer one. -/
theorem IsWalk.cons {p : Path} (hadj : g.Adj h m) (hp : g.IsWalk m n p) :
    g.IsWalk h n (h :: p) := by
  obtain ⟨t, rfl⟩ := hp.exists_eq_cons
  exact ((g.isWalk_singleton h).concat hadj).append hp

/-- Going backwards from the latches, within what `h` reaches and without passing it, one comes to
the blocks from which a walk leads to a latch without passing `h`. -/
theorem reachIn_predecessors_iff (hg : g.Linked) :
    ReachIn g.predecessors ((g.reachable h).erase h) latches n ↔
      n ≠ h ∧ g.Reach h n ∧ ∃ m ∈ latches, ∃ p, g.IsWalk n m p ∧ h ∉ p := by
  constructor
  · intro hn
    obtain ⟨hne, hreach⟩ := mem_reachable_erase.1 hn.mem_fresh
    refine ⟨hne, hreach, ?_⟩
    induction hn with
    | @start n _ hwork =>
      exact ⟨n, hwork, [n], g.isWalk_singleton n, fun hmem => hne (List.mem_singleton.1 hmem).symm⟩
    | @step k n hk hfresh hpred ih =>
      obtain ⟨hne', hreach'⟩ := mem_reachable_erase.1 hk.mem_fresh
      obtain ⟨m, hm, p, hp, hh⟩ := ih hne' hreach'
      have hadj : g.Adj n k := (hg.mem_predecessors_iff n k).1 hpred
      exact ⟨m, hm, n :: p, hp.cons hadj, List.not_mem_cons_of_ne_of_not_mem hne.symm hh⟩
  · rintro ⟨hne, hreach, m, hm, p, hp, hh⟩
    -- the induction goes along the walk, from its last block backwards
    induction p generalizing n with
    | nil => exact absurd hp.head (by simp)
    | cons a p ih =>
      obtain rfl : a = n := by simpa using hp.head
      have hfresh := mem_reachable_erase.2 ⟨hne, hreach⟩
      cases p with
      | nil =>
        obtain rfl : a = m := by simpa using hp.last
        exact .start hfresh hm
      | cons b p =>
        obtain ⟨hab, hsteps⟩ := List.isChain_cons_cons.1 hp.steps
        have hlast : (b :: p).getLast? = some m := by
          rw [← hp.last, List.getLast?_cons_cons]
        have hrest : g.IsWalk b m (b :: p) := ⟨rfl, hsteps, hlast⟩
        have hh' : h ∉ b :: p := fun hmem => hh (List.mem_cons_of_mem _ hmem)
        have hbne : b ≠ h := fun hb => hh' (hb ▸ List.mem_cons_self)
        exact .step (ih hbne (hreach.tail hab) hrest hh') hfresh
          ((hg.mem_predecessors_iff a b).2 hab)

/-- A block that `h` reaches and that leads back to `h` is on a closed walk that meets `h` at its
ends only. -/
theorem exists_closed_walk {p : Path} (hreach : g.Reach h n) (hp : g.IsWalk n m p) (hh : h ∉ p)
    (hadj : g.Adj m h) : ∃ q, g.IsWalk h h (h :: q ++ [h]) ∧ n ∈ q ∧ h ∉ q := by
  obtain ⟨there, hthere, hnodup⟩ := hreach.exists_simple_walk
  obtain ⟨q, rfl⟩ := hthere.exists_eq_cons
  obtain ⟨t, rfl⟩ := hp.exists_eq_cons
  have hne : n ≠ h := fun hn => hh (hn ▸ List.mem_cons_self)
  have hn : n ∈ q := by
    have hmem := List.mem_of_getLast? hthere.last
    exact (List.mem_cons.1 hmem).resolve_left hne
  refine ⟨q ++ t, (hthere.append hp).concat hadj, List.mem_append_left _ hn, ?_⟩
  rw [List.mem_append]
  rintro (hq | ht)
  · exact (List.nodup_cons.1 hnodup).1 hq
  · exact hh (List.mem_cons_of_mem _ ht)

end Graph

/-! ## Bodies -/

namespace Loop

variable {g : Graph}

/-- The body of a loop has its header and the blocks that the header reaches and that lead to a
latch without passing it. -/
theorem mem_body_findBody (hg : g.Linked) (l : Loop) {n : BlockId} :
    n ∈ (l.findBody g).body ↔ n = l.header ∨ n ≠ l.header ∧ g.Reach l.header n ∧
      ∃ m ∈ l.latches, ∃ p, g.IsWalk n m p ∧ l.header ∉ p := by
  unfold findBody
  dsimp only
  rw [SortedSet.mem_toList_ofList, List.mem_cons, mem_gather, Graph.reachIn_predecessors_iff hg]

/-- The body of a loop is in ascending order. -/
theorem pairwise_lt_body_findBody (l : Loop) : (l.findBody g).body.Pairwise (· < ·) :=
  SortedMap.pairwise_lt_keys _

end Loop

/-! ## The loops of a walk -/

/-- The loops by header are those of a list of back edges. -/
structure Registered (loops : SortedMap BlockId Loop) (es : List Edge) : Prop where
  /-- There is a loop for each target of a back edge. -/
  isSome_iff : ∀ h, (loops.get? h).isSome = true ↔ ∃ e ∈ es, e.target = h
  /-- A loop is listed under its header. -/
  header_eq : ∀ h l, loops.get? h = some l → l.header = h
  /-- The latches are the sources of the back edges into the header. -/
  mem_latches_iff : ∀ h l, loops.get? h = some l → ∀ m, m ∈ l.latches ↔ Edge.mk m h ∈ es
  /-- No latch is listed twice. -/
  nodup_latches : ∀ h l, loops.get? h = some l → l.latches.Nodup

/-- No back edges make no loops. -/
theorem registered_empty : Registered .empty [] where
  isSome_iff h := iff_of_false Bool.false_ne_true (by rintro ⟨e, he, -⟩; exact List.not_mem_nil he)
  header_eq h l hl := by contradiction
  mem_latches_iff h l hl := by contradiction
  nodup_latches h l hl := by contradiction

/-- A back edge makes its source a latch of the loop at its target. -/
theorem Registered.addLatch {loops : SortedMap BlockId Loop} {es : List Edge}
    (hr : Registered loops es) (e : Edge) :
    Registered (loops.upsert e.target (fun l => (l.getD (Loop.new e.target)).addLatch e.source))
      (es ++ [e]) := by
  obtain ⟨s, t⟩ := e
  dsimp only
  -- the loop at the target before the edge, which may be a new one without latches
  have hold : ((loops.get? t).getD (Loop.new t)).header = t ∧
      ((loops.get? t).getD (Loop.new t)).latches.Nodup ∧
      ∀ m, m ∈ ((loops.get? t).getD (Loop.new t)).latches ↔ Edge.mk m t ∈ es := by
    cases hl : loops.get? t with
    | none =>
      refine ⟨rfl, List.nodup_nil, fun m => iff_of_false List.not_mem_nil (fun hm => ?_)⟩
      have hsome := (hr.isSome_iff t).2 ⟨_, hm, rfl⟩
      rw [hl] at hsome
      exact Bool.false_ne_true hsome
    | some l => exact ⟨hr.header_eq t l hl, hr.nodup_latches t l hl, hr.mem_latches_iff t l hl⟩
  obtain ⟨hheader, hnodup, hlatches⟩ := hold
  constructor
  case isSome_iff =>
    intro h
    rw [SortedMap.get?_upsert]
    by_cases ht : h = t
    · rw [if_pos ht, ht]
      exact iff_of_true rfl ⟨⟨s, t⟩, List.mem_append_right _ List.mem_cons_self, rfl⟩
    · rw [if_neg ht, hr.isSome_iff]
      simp only [List.mem_append, List.mem_singleton, or_and_right, exists_or, exists_eq_left]
      exact (or_iff_left (Ne.symm ht)).symm
  case header_eq =>
    intro h l hl
    rw [SortedMap.get?_upsert] at hl
    by_cases ht : h = t
    · rw [if_pos ht, Option.some.injEq] at hl
      rw [← hl, ht]
      exact hheader
    · rw [if_neg ht] at hl
      exact hr.header_eq h l hl
  case mem_latches_iff =>
    intro h l hl m
    rw [SortedMap.get?_upsert] at hl
    by_cases ht : h = t
    · rw [if_pos ht, Option.some.injEq] at hl
      rw [← hl, ht, Loop.addLatch, mem_appendNew, hlatches]
      simp
    · rw [if_neg ht] at hl
      rw [hr.mem_latches_iff h l hl]
      simp [ht]
  case nodup_latches =>
    intro h l hl
    rw [SortedMap.get?_upsert] at hl
    by_cases ht : h = t
    · rw [if_pos ht, Option.some.injEq] at hl
      rw [← hl]
      exact nodup_appendNew hnodup s
    · rw [if_neg ht] at hl
      exact hr.nodup_latches h l hl

namespace LoopWalk

/-- At each point of a walk the loops are those of the back edges, and a loop has its body unless
this walk found a back edge into its header. -/
structure Registering (g : Graph) (w : LoopWalk) : Prop where
  /-- The loops are those of the back edges. -/
  registered : Registered w.detector.loops w.detector.backEdges
  /-- The bodies of the loops without a new latch are found. -/
  findBody_eq : ∀ h l, w.detector.loops.get? h = some l →
    l.findBody g = l ∨ h ∈ w.found.map (·.target)

variable {g : Graph} {w : LoopWalk}

/-- Noting a back edge registers it with the loop of its header. -/
theorem Registering.note (h : w.Registering g) (e : Edge) (frames : List WalkFrame) :
    Registering g { w.noteBackEdge e with frames := frames } := by
  unfold noteBackEdge
  dsimp only
  split
  next => exact ⟨h.registered, h.findBody_eq⟩
  next =>
    refine ⟨h.registered.addLatch e, fun j l hl => ?_⟩
    dsimp only at hl ⊢
    rw [SortedMap.get?_upsert] at hl
    rw [List.map_append, List.mem_append]
    by_cases hj : j = e.target
    · rw [hj]
      exact .inr (.inr List.mem_cons_self)
    · rw [if_neg hj] at hl
      exact (h.findBody_eq j l hl).imp_right .inl

/-- The loops keep up with the back edges along a walk. -/
theorem registering_run (h : w.Registering g) : (run g w).Registering g := by
  fun_induction run g w with
  | case1 w hf => exact h
  | case2 w f rest hf ht ih => exact ih ⟨h.registered, h.findBody_eq⟩
  | case3 w f rest hf t ht frames hp ih => exact ih ⟨h.registered, h.findBody_eq⟩
  | case4 w f rest hf t ht frames hp ih => exact ih (h.note ⟨f.node, t⟩ frames)
  | case5 w f rest hf t ht frames hp ih => exact ih ⟨h.registered, h.findBody_eq⟩

end LoopWalk

/-! ## The loops after any calls -/

/-- Collecting bodies for some edges gives the loops at their targets their bodies, once or more
often. -/
theorem get?_foldl_findBody (g : Graph) (es : List Edge) (loops : SortedMap BlockId Loop)
    (h : BlockId) :
    (es.foldl (fun loops e => loops.modify e.target (Loop.findBody g)) loops).get? h =
      (loops.get? h).map (fun l => if h ∈ es.map (·.target) then l.findBody g else l) := by
  induction es generalizing loops with
  | nil => simp
  | cons e es ih =>
    -- a body is found from the header and the latches, so it is found again
    have hagain : ∀ l : Loop, (l.findBody g).findBody g = l.findBody g := fun l => rfl
    rw [List.foldl_cons, ih, SortedMap.get?_modify]
    by_cases he : h = e.target
    · subst he
      simp [Function.comp_def, hagain]
    · simp [he]

namespace LoopDetector

/-- What holds of the loops between two calls. -/
structure Catalogued (g : Graph) (d : LoopDetector) : Prop where
  /-- The loops are those of the back edges. -/
  registered : Registered d.loops d.backEdges
  /-- Each loop has its body. -/
  findBody_eq : ∀ h l, d.loops.get? h = some l → l.findBody g = l

/-- The detector that has seen nothing has no loops. -/
theorem catalogued_empty (g : Graph) : empty.Catalogued g :=
  ⟨registered_empty, fun h l hl => by contradiction⟩

/-- After a further start block the loops are those of all back edges. -/
theorem Catalogued.detect {g : Graph} {d : LoopDetector} (h : d.Catalogued g) (s : BlockId) :
    (d.detect g s).detector.Catalogued g := by
  unfold LoopDetector.detect
  split
  next => exact h
  next =>
    have hstart : LoopWalk.Registering g
        ({ detector := d, frames := [⟨s, 0⟩], found := [], events := [] : LoopWalk }.mark s
          .active) := ⟨h.registered, fun j l hl => .inl (h.findBody_eq j l hl)⟩
    have hrun := LoopWalk.registering_run hstart
    generalize LoopWalk.run g _ = w at hrun
    dsimp only
    -- the loops after the walk, with the bodies that were found last
    have hget := get?_foldl_findBody g w.found w.detector.loops
    generalize w.found.foldl (fun loops e => loops.modify e.target (Loop.findBody g))
      w.detector.loops = loops at hget
    have hold : ∀ j l, loops.get? j = some l → ∃ l', w.detector.loops.get? j = some l' ∧
        l.header = l'.header ∧ l.latches = l'.latches ∧ l.findBody g = l := by
      intro j l hl
      rw [hget, Option.map_eq_some_iff] at hl
      obtain ⟨l', hl', rfl⟩ := hl
      refine ⟨l', hl', ?_⟩
      by_cases hj : j ∈ w.found.map (·.target)
      · rw [if_pos hj]
        exact ⟨rfl, rfl, rfl⟩
      · rw [if_neg hj]
        exact ⟨rfl, rfl, (hrun.findBody_eq j l' hl').resolve_right hj⟩
    constructor
    case registered =>
      constructor
      case isSome_iff =>
        intro j
        rw [hget, Option.isSome_map]
        exact hrun.registered.isSome_iff j
      case header_eq =>
        intro j l hl
        obtain ⟨l', hl', hheader, -⟩ := hold j l hl
        exact hheader.trans (hrun.registered.header_eq j l' hl')
      case mem_latches_iff =>
        intro j l hl
        obtain ⟨l', hl', -, hlatches, -⟩ := hold j l hl
        rw [hlatches]
        exact hrun.registered.mem_latches_iff j l' hl'
      case nodup_latches =>
        intro j l hl
        obtain ⟨l', hl', -, hlatches, -⟩ := hold j l hl
        rw [hlatches]
        exact hrun.registered.nodup_latches j l' hl'
    case findBody_eq =>
      intro j l hl
      obtain ⟨-, -, -, -, hbody⟩ := hold j l hl
      exact hbody

/-- After all start blocks the loops are those of all back edges. -/
theorem catalogued_detectAll (g : Graph) (starts : List BlockId) :
    (detectAll g starts).Catalogued g := by
  induction starts using List.reverseRecOn with
  | nil => exact catalogued_empty g
  | append_singleton starts s ih =>
    unfold detectAll at ih ⊢
    rw [List.foldl_append]
    exact ih.detect s

/-- The loops are listed by ascending header. -/
theorem map_header_allLoops {d : LoopDetector} {es : List Edge} (h : Registered d.loops es) :
    d.allLoops.map (·.header) = d.loops.keys := by
  unfold allLoops SortedMap.values SortedMap.keys
  rw [List.map_map]
  refine List.map_congr_left (fun a ha => ?_)
  exact h.header_eq a.1 a.2 (SortedMap.mem_entries_iff.1 ha)

/-- The loops that are listed are those that are registered under their headers. -/
theorem mem_allLoops_iff {d : LoopDetector} {es : List Edge} (h : Registered d.loops es)
    {l : Loop} :
    l ∈ d.allLoops ↔ d.loops.get? l.header = some l := by
  unfold allLoops SortedMap.values
  rw [List.mem_map]
  constructor
  · rintro ⟨⟨k, l⟩, hmem, rfl⟩
    have hget := SortedMap.mem_entries_iff.1 hmem
    rw [h.header_eq k l hget]
    exact hget
  · intro hget
    exact ⟨(l.header, l), SortedMap.mem_entries_iff.2 hget, rfl⟩

/-- However a detector is called for starts in a built graph, there is one loop for each target of a
back edge, listed by ascending header. Its latches are the sources of the back edges into the
header. Its body lists, in ascending order, the header and the blocks that the header reaches and
that lead to a latch on a walk without the header. So the latches are in the body, and each of its
blocks is on a closed walk that meets the header at its ends only. -/
theorem loops_are_natural (g : Graph) (hg : g.Built) (starts : List BlockId) :
    ((detectAll g starts).allLoops.map (·.header)).Pairwise (· < ·) ∧
      (∀ h, h ∈ (detectAll g starts).allLoops.map (·.header) ↔
        ∃ e ∈ (detectAll g starts).backEdges, e.target = h) ∧
      ∀ l ∈ (detectAll g starts).allLoops,
        l.latches.Nodup ∧
        (∀ m, m ∈ l.latches ↔ Edge.mk m l.header ∈ (detectAll g starts).backEdges) ∧
        l.body.Pairwise (· < ·) ∧
        (∀ n, n ∈ l.body ↔ n = l.header ∨ n ≠ l.header ∧ g.Reach l.header n ∧
          ∃ m ∈ l.latches, ∃ p, g.IsWalk n m p ∧ l.header ∉ p) ∧
        (∀ m ∈ l.latches, m ∈ l.body) ∧
        ∀ n ∈ l.body, ∃ q, g.IsWalk l.header l.header (l.header :: q ++ [l.header]) ∧
          n ∈ l.header :: q ∧ l.header ∉ q := by
  obtain ⟨hreg, hbody⟩ := catalogued_detectAll g starts
  have hrest := atRest_detectAll g starts
  generalize detectAll g starts = d at *
  rw [map_header_allLoops hreg]
  refine ⟨SortedMap.pairwise_lt_keys _, fun h => ?_, fun l hl => ?_⟩
  · rw [← hreg.isSome_iff, ← SortedMap.contains_iff]
    rfl
  have hget := (mem_allLoops_iff hreg).1 hl
  have hlatches := hreg.mem_latches_iff l.header l hget
  -- a latch has an edge to the header and is reached from it
  have hlatch : ∀ m ∈ l.latches, g.Adj m l.header ∧ g.Reach l.header m :=
    fun m hm => hrest.cyclic _ ((hlatches m).1 hm)
  have hmem : ∀ n, n ∈ l.body ↔ n = l.header ∨ n ≠ l.header ∧ g.Reach l.header n ∧
      ∃ m ∈ l.latches, ∃ p, g.IsWalk n m p ∧ l.header ∉ p := by
    intro n
    rw [← l.mem_body_findBody hg.linked, hbody l.header l hget]
  have hinside : ∀ m ∈ l.latches, m ∈ l.body := by
    intro m hm
    rw [hmem]
    by_cases heq : m = l.header
    · exact .inl heq
    · refine .inr ⟨heq, (hlatch m hm).2, m, hm, [m], g.isWalk_singleton m, fun hh => heq ?_⟩
      exact (List.mem_singleton.1 hh).symm
  refine ⟨hreg.nodup_latches l.header l hget, hlatches, ?_, hmem, hinside, fun n hn => ?_⟩
  · rw [← hbody l.header l hget]
    exact l.pairwise_lt_body_findBody
  · rcases (hmem n).1 hn with rfl | ⟨-, hreach, m, hm, p, hp, hh⟩
    · -- the header is on the closed walk of any of its latches
      have hsome : (d.loops.get? l.header).isSome = true := by rw [hget]; rfl
      obtain ⟨⟨m, t⟩, he, rfl⟩ := (hreg.isSome_iff l.header).1 hsome
      have hm := (hlatches m).2 he
      obtain ⟨hadj, hreach⟩ := hlatch m hm
      by_cases heq : m = l.header
      · rw [heq] at hadj
        exact ⟨[], (g.isWalk_singleton _).concat hadj, List.mem_cons_self, List.not_mem_nil⟩
      · have hout : l.header ∉ [m] := fun hh => heq (List.mem_singleton.1 hh).symm
        obtain ⟨q, hq, -, hhq⟩ :=
          Graph.exists_closed_walk hreach (g.isWalk_singleton m) hout hadj
        exact ⟨q, hq, List.mem_cons_self, hhq⟩
    · obtain ⟨q, hq, hnq, hhq⟩ := Graph.exists_closed_walk hreach hp hh (hlatch m hm).1
      exact ⟨q, hq, List.mem_cons_of_mem _ hnq, hhq⟩

/-- Blocks 1 and 2 are a loop that is entered at both of them, and block 2 is a loop of its own. -/
def latchEntrance : Graph := Graph.ofEdges [⟨0, 1⟩, ⟨1, 2⟩, ⟨2, 1⟩, ⟨0, 2⟩, ⟨2, 2⟩]

/-- The block before the loop leads to the latch, and is still not part of the loop. -/
theorem loops_are_natural_latchEntrance :
    latchEntrance.Built ∧
      (detectAll latchEntrance [0]).allLoops = [⟨1, [2], [1, 2]⟩, ⟨2, [2], [2]⟩] ∧
      latchEntrance.Adj 0 2 ∧
      ∃ q, latchEntrance.IsWalk 1 1 (1 :: q ++ [1]) ∧ 2 ∈ 1 :: q ∧ 1 ∉ q := by
  have hbuilt : latchEntrance.Built := Graph.built_ofEdges _
  have hloops : (detectAll latchEntrance [0]).allLoops = [⟨1, [2], [1, 2]⟩, ⟨2, [2], [2]⟩] := by
    cbv
  have hadj : latchEntrance.Adj 0 2 := by
    unfold Graph.Adj
    decide
  obtain ⟨-, -, hall⟩ := loops_are_natural latchEntrance hbuilt [0]
  have hmem : ⟨1, [2], [1, 2]⟩ ∈ (detectAll latchEntrance [0]).allLoops := by
    rw [hloops]
    exact List.mem_cons_self
  obtain ⟨-, -, -, -, -, hclosed⟩ := hall _ hmem
  exact ⟨hbuilt, hloops, hadj, hclosed 2 (by decide)⟩

end LoopDetector

end StackFlow
