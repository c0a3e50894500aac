import Mathlib.Data.List.Chain
import Mathlib.Data.List.Nodup
import StackFlow.Search

/-!
# The search finds every path to a leaf once

`Graph.IsLeafPath` says what the paths from a block to the leaves are, without reference to a
search: they take at least one edge, repeat no block and end where no edge goes on. The main result,
`search_finds_leaf_paths_once`, is that the search offers each of them once and nothing else, in
whatever order it tries the candidates of an open path.

`Completes` relates an open path to the paths that it can still become, one constructor for each
thing that the search does with a candidate. The invariant of the stack is that what is found from
now on are the completions of its open paths, and that no path completes two of them (`Apart`):
popping an open path splits its completions among the paths offered and the open paths pushed.
-/

namespace StackFlow

/-- A path from `start` to a leaf that repeats no block. -/
structure Graph.IsLeafPath (g : Graph) (start : BlockId) (p : Path) : Prop where
  /-- The path has at least two blocks. -/
  two_le_length : 2 ≤ p.length
  /-- The path begins at `start`. -/
  head : p.head? = some start
  /-- Each next block is a successor of the one before. -/
  steps : p.IsChain (fun m n => n ∈ g.successors m)
  /-- No block occurs twice. -/
  nodup : p.Nodup
  /-- The last block has no successors. -/
  ending : ∃ n, p.getLast? = some n ∧ g.successors n = []

namespace OpenPath

/-- `p` is what an open path becomes by taking candidates up to the first leaf. -/
inductive Completes (g : Graph) : OpenPath → Path → Prop
  /-- The next block is a leaf. -/
  | leaf {f : OpenPath} {n : BlockId} (hn : n ∈ f.candidates g) (hl : g.isLeaf n = true) :
      Completes g f (f.extend n).path
  /-- The next block is no leaf, and the path goes on from there. -/
  | step {f : OpenPath} {n : BlockId} {p : Path} (hn : n ∈ f.candidates g)
      (hl : g.isLeaf n = false) (h : Completes g (f.extend n) p) : Completes g f p

/-- No path completes both of two open paths. -/
def Apart (g : Graph) (f e : OpenPath) : Prop := ∀ p, Completes g f p → ¬ Completes g e p

/-- An open path that follows edges, repeats no block and knows its last block. -/
structure Simple (g : Graph) (f : OpenPath) : Prop where
  /-- The last block is the one noted. -/
  last : f.path.getLast? = some f.node
  /-- Each next block is a successor of the one before. -/
  steps : f.path.IsChain (fun m n => n ∈ g.successors m)
  /-- No block occurs twice. -/
  nodup : f.path.Nodup

/-- The candidates are the successors that are not on the path. -/
theorem mem_candidates {g : Graph} {f : OpenPath} {n : BlockId} :
    n ∈ f.candidates g ↔ n ∈ g.successors f.node ∧ n ∉ f.path := by
  simp [candidates, mem_firsts]

/-- No candidate is listed twice. -/
theorem nodup_candidates (g : Graph) (f : OpenPath) : (f.candidates g).Nodup :=
  (nodup_firsts _).filter _

/-- An open path extended by a candidate still follows edges and repeats no block. -/
theorem Simple.extend {g : Graph} {f : OpenPath} (hf : f.Simple g) {n : BlockId}
    (hn : n ∈ f.candidates g) : (f.extend n).Simple g := by
  obtain ⟨hs, hnp⟩ := mem_candidates.1 hn
  refine ⟨by simp [OpenPath.extend], ?_, ?_⟩
  · refine List.isChain_append.2 ⟨hf.steps, List.isChain_singleton n, ?_⟩
    intro m hm n' hn'
    obtain rfl : f.node = m := by simpa [hf.last] using hm
    obtain rfl : n = n' := by simpa using hn'
    exact hs
  · refine List.nodup_append.2 ⟨hf.nodup, List.nodup_singleton n, ?_⟩
    rintro m hm n' hn' rfl
    obtain rfl : m = n := by simpa using hn'
    exact hnp hm

/-! ## Completions are the paths to leaves -/

/-- A completion goes on from the open path with one of its candidates. -/
theorem Completes.eq_append {g : Graph} {f : OpenPath} {p : Path} (h : Completes g f p) :
    ∃ n ∈ f.candidates g, ∃ tail, p = f.path ++ n :: tail := by
  induction h with
  | @leaf f n hn hl => exact ⟨n, hn, [], rfl⟩
  | @step f n p hn hl h ih =>
    obtain ⟨m, -, tail, hp⟩ := ih
    exact ⟨n, hn, m :: tail, by simpa [extend] using hp⟩

/-- A completion of a simple open path follows edges, repeats no block and ends at a leaf. -/
theorem Completes.sound {g : Graph} {f : OpenPath} {p : Path} (h : Completes g f p)
    (hf : f.Simple g) :
    p.IsChain (fun m n => n ∈ g.successors m) ∧ p.Nodup ∧
      ∃ n, p.getLast? = some n ∧ g.successors n = [] := by
  induction h with
  | @leaf f n hn hl =>
    have he := hf.extend hn
    refine ⟨he.steps, he.nodup, n, he.last, ?_⟩
    simpa [Graph.isLeaf] using hl
  | step hn hl h ih => exact ih (hf.extend hn)

/-- Whatever goes on from a simple open path to a leaf, along edges and without repetition, is a
completion of it. -/
theorem Completes.of_append {g : Graph} {tail : Path} {f : OpenPath} (hf : f.Simple g)
    (htail : tail ≠ []) (hsteps : (f.path ++ tail).IsChain (fun m n => n ∈ g.successors m))
    (hnodup : (f.path ++ tail).Nodup)
    (hend : ∃ n, (f.path ++ tail).getLast? = some n ∧ g.successors n = []) :
    Completes g f (f.path ++ tail) := by
  induction tail generalizing f with
  | nil => exact absurd rfl htail
  | cons n tail ih =>
    have hn : n ∈ f.candidates g := by
      refine mem_candidates.2 ⟨?_, ?_⟩
      · exact (List.isChain_append.1 hsteps).2.2 f.node hf.last n (by simp)
      · intro hmem
        exact (List.nodup_append.1 hnodup).2.2 n hmem n (by simp) rfl
    cases tail with
    | nil =>
      obtain ⟨m, hm, hleaf⟩ := hend
      obtain rfl : n = m := by simpa using hm
      exact .leaf hn (by simp [Graph.isLeaf, hleaf])
    | cons m tail =>
      have hassoc : f.path ++ n :: m :: tail = (f.extend n).path ++ m :: tail := by simp [extend]
      have hm : m ∈ g.successors n := by
        have := (List.isChain_append.1 hsteps).2.1
        exact (List.isChain_cons_cons.1 this).1
      have hl : g.isLeaf n = false := by
        rw [Graph.isLeaf, List.isEmpty_eq_false_iff]
        exact List.ne_nil_of_mem hm
      rw [hassoc] at hsteps hnodup hend ⊢
      exact .step hn hl (ih (hf.extend hn) (by simp) hsteps hnodup hend)

/-- The open path that a search begins with is simple. -/
theorem simple_start (g : Graph) (start : BlockId) : (OpenPath.mk start [start]).Simple g :=
  ⟨rfl, List.isChain_singleton start, List.nodup_singleton start⟩

/-- The completions of the start are the paths from it to a leaf. -/
theorem completes_start_iff {g : Graph} {start : BlockId} {p : Path} :
    Completes g ⟨start, [start]⟩ p ↔ g.IsLeafPath start p := by
  constructor
  · intro h
    obtain ⟨hsteps, hnodup, hend⟩ := h.sound (simple_start g start)
    obtain ⟨n, -, tail, rfl⟩ := h.eq_append
    exact ⟨by simp, rfl, hsteps, hnodup, hend⟩
  · rintro ⟨hlen, hhead, hsteps, hnodup, hend⟩
    obtain ⟨tail, rfl⟩ : ∃ tail, p = start :: tail := by
      cases p with
      | nil => simp at hhead
      | cons a tail => exact ⟨tail, by simpa using hhead⟩
    have htail : tail ≠ [] := by rintro rfl; simp at hlen
    exact Completes.of_append (simple_start g start) htail hsteps hnodup hend

end OpenPath

/-! ## One step of the search -/

namespace Search

/-- The consumer that keeps every path it is offered. -/
def collect (ps : Paths) (p : Path) : Paths × Bool := (ps ++ [p], true)

/-- The paths that an open path offers when it tries `ns`. -/
def offered (g : Graph) (f : OpenPath) (ns : List BlockId) : Paths :=
  (ns.filter g.isLeaf).map (fun n => (f.extend n).path)

/-- The open paths that take the place of an open path when it tries `ns`. -/
def pushed (g : Graph) (f : OpenPath) (ns : List BlockId) : List OpenPath :=
  ((ns.filter (fun n => !g.isLeaf n)).map f.extend).reverse

/-- The paths that are offered are those that a candidate which is a leaf completes. -/
theorem mem_offered {g : Graph} {f : OpenPath} {ns : List BlockId} {p : Path} :
    p ∈ offered g f ns ↔ ∃ n ∈ ns, g.isLeaf n = true ∧ (f.extend n).path = p := by
  simp [offered, and_assoc]

/-- The open paths that are pushed are those that a candidate which is no leaf prolongs. -/
theorem mem_pushed {g : Graph} {f e : OpenPath} {ns : List BlockId} :
    e ∈ pushed g f ns ↔ ∃ n ∈ ns, g.isLeaf n = false ∧ f.extend n = e := by
  simp [pushed, and_assoc]

/-- Trying candidates for a consumer that keeps everything offers the leaves among them and pushes
the others. -/
theorem tryAll_collect (g : Graph) (f : OpenPath) (ns : List BlockId) (s : Paths)
    (acc : List OpenPath) :
    tryAll g collect f ns s acc = (some (pushed g f ns ++ acc), s ++ offered g f ns) := by
  induction ns generalizing s acc with
  | nil => simp [tryAll, pushed, offered]
  | cons n ns ih =>
    rw [tryAll]
    split
    next hl =>
      simp only [collect]
      rw [ih]
      simp [pushed, offered, hl]
    next hl =>
      rw [ih]
      simp [pushed, offered, hl]

/-- The search that keeps everything, one open path popped. -/
theorem run_collect_cons (g : Graph) (order : CandidateOrder) (f : OpenPath)
    (rest : List OpenPath) (s : Paths) :
    run g order collect (f :: rest) s =
      run g order collect (pushed g f (order.arrange f.path (f.candidates g)) ++ rest)
        (s ++ offered g f (order.arrange f.path (f.candidates g))) := by
  rw [run]
  split
  next h => simp [tryAll_collect] at h
  next h =>
    rw [tryAll_collect, Prod.mk.injEq, Option.some.injEq] at h
    rw [← h.1, ← h.2, List.append_nil]

variable {g : Graph} {f : OpenPath} {ns : List BlockId}

/-- The completions of a popped open path are the paths it offers and the completions of the open
paths that take its place. -/
theorem completes_iff_offered_or_pushed (hns : ns.Perm (f.candidates g)) {p : Path} :
    f.Completes g p ↔ p ∈ offered g f ns ∨ ∃ e ∈ pushed g f ns, e.Completes g p := by
  constructor
  · intro h
    cases h with
    | @leaf _ n hn hl => exact .inl (mem_offered.2 ⟨n, hns.mem_iff.2 hn, hl, rfl⟩)
    | @step _ n _ hn hl h =>
      exact .inr ⟨f.extend n, mem_pushed.2 ⟨n, hns.mem_iff.2 hn, hl, rfl⟩, h⟩
  · rintro (h | ⟨e, he, h⟩)
    · obtain ⟨n, hn, hl, rfl⟩ := mem_offered.1 h
      exact .leaf (hns.mem_iff.1 hn) hl
    · obtain ⟨n, hn, hl, rfl⟩ := mem_pushed.1 he
      exact .step (hns.mem_iff.1 hn) hl h

/-- Two ways to go on from one path that lead to the same path begin with the same block. -/
theorem eq_of_extend_append {n m : BlockId} {t u : Path}
    (h : (f.extend n).path ++ t = (f.extend m).path ++ u) : n = m := by
  simp only [OpenPath.extend, List.append_assoc, List.singleton_append] at h
  exact (List.cons.inj (List.append_cancel_left h)).1

/-- An open path offers no path twice. -/
theorem nodup_offered (hns : ns.Perm (f.candidates g)) : (offered g f ns).Nodup := by
  refine ((hns.nodup_iff.2 (f.nodup_candidates g)).filter _).map ?_
  intro n m h
  exact eq_of_extend_append (congrArg (· ++ []) h)

/-- A path that is offered completes none of the open paths pushed beside it. -/
theorem not_completes_of_mem_offered {p : Path} (hp : p ∈ offered g f ns) {e : OpenPath}
    (he : e ∈ pushed g f ns) : ¬ e.Completes g p := by
  obtain ⟨n, -, hl, rfl⟩ := mem_offered.1 hp
  obtain ⟨m, -, hl', rfl⟩ := mem_pushed.1 he
  intro h
  obtain ⟨k, -, tail, hk⟩ := h.eq_append
  have hnm : n = m := eq_of_extend_append ((List.append_nil _).trans hk)
  rw [hnm, hl'] at hl
  exact absurd hl (by decide)

/-- No path completes two of the open paths that take the place of one. -/
theorem pairwise_apart_pushed (hns : ns.Perm (f.candidates g)) :
    (pushed g f ns).Pairwise (OpenPath.Apart g) := by
  have hnodup : (ns.filter (fun n => !g.isLeaf n)).Nodup :=
    (hns.nodup_iff.2 (f.nodup_candidates g)).filter _
  rw [pushed, List.pairwise_reverse, List.pairwise_map]
  refine hnodup.imp ?_
  intro n m hnm p hm hn
  obtain ⟨k, -, t, hk⟩ := hm.eq_append
  obtain ⟨l, -, u, hl⟩ := hn.eq_append
  exact hnm (eq_of_extend_append (hl.symm.trans hk))

/-- Popping an open path and pushing its extensions keeps the stack's open paths apart. -/
theorem pairwise_apart_step {rest : List OpenPath} (hns : ns.Perm (f.candidates g))
    (h : (f :: rest).Pairwise (OpenPath.Apart g)) :
    (pushed g f ns ++ rest).Pairwise (OpenPath.Apart g) := by
  obtain ⟨hf, hrest⟩ := List.pairwise_cons.1 h
  refine List.pairwise_append.2 ⟨pairwise_apart_pushed hns, hrest, ?_⟩
  intro e he e' he' p hp
  exact hf e' he' p ((completes_iff_offered_or_pushed hns).2 (.inr ⟨e, he, hp⟩))

/-! ## The whole search -/

/-- From a stack whose open paths are apart, a consumer that keeps everything is offered the
completions of these open paths, each of them once. -/
theorem run_collect (g : Graph) (order : CandidateOrder) (stack : List OpenPath) (s : Paths)
    (h : stack.Pairwise (OpenPath.Apart g)) :
    ∃ found, run g order collect stack s = ⟨s ++ found, true⟩ ∧ found.Nodup ∧
      ∀ p, p ∈ found ↔ ∃ f ∈ stack, f.Completes g p := by
  -- the search's own measure: a popped open path weighs more than those that take its place
  induction hw : total (OpenPath.weight g) stack using Nat.strong_induction_on
    generalizing stack s with
  | h w ih =>
    cases stack with
    | nil => exact ⟨[], by rw [run, List.append_nil], List.nodup_nil, by simp⟩
    | cons f rest =>
      have hns := order.perm f.path (f.candidates g)
      rw [run_collect_cons]
      generalize order.arrange f.path (f.candidates g) = ns at hns ⊢
      have hlt : total (OpenPath.weight g) (pushed g f ns ++ rest) < w := by
        have hstep := total_weight_tryAll_lt (s := ([] : Paths)) hns
          (congrArg Prod.fst (tryAll_collect g f ns [] []))
        rw [List.append_nil] at hstep
        rw [← hw, total_append, total]
        omega
      obtain ⟨later, hrun, hnodup, hmem⟩ :=
        ih _ hlt (pushed g f ns ++ rest) (s ++ offered g f ns) (pairwise_apart_step hns h) rfl
      refine ⟨offered g f ns ++ later, by rw [hrun, List.append_assoc], ?_, ?_⟩
      · refine List.nodup_append.2 ⟨nodup_offered hns, hnodup, ?_⟩
        rintro p hp q hq rfl
        obtain ⟨e, he, hep⟩ := (hmem p).1 hq
        rcases List.mem_append.1 he with he | he
        · exact not_completes_of_mem_offered hp he hep
        · exact (List.pairwise_cons.1 h).1 e he p
            ((completes_iff_offered_or_pushed hns).2 (.inl hp)) hep
      · intro p
        simp only [List.mem_append, hmem, List.exists_mem_cons_iff,
          completes_iff_offered_or_pushed hns, or_assoc]
        refine or_congr_right ?_
        simp only [or_and_right, exists_or]

end Search

namespace Graph

variable {g : Graph} {order : CandidateOrder} {s : BlockId} {p : Path}

/-- A search that keeps everything runs to its end, and keeps each path that completes its start
once. -/
theorem collect_spec (g : Graph) (order : CandidateOrder) (s : BlockId) :
    g.searchWith order s Search.collect [] = ⟨g.pathsWith order s, true⟩ ∧
      (g.pathsWith order s).Nodup ∧
      ∀ p, p ∈ g.pathsWith order s ↔ OpenPath.Completes g ⟨s, [s]⟩ p := by
  obtain ⟨found, hrun, hnodup, hmem⟩ :=
    Search.run_collect g order [⟨s, [s]⟩] [] (List.pairwise_singleton _ _)
  have hfound : g.pathsWith order s = found := congrArg Search.state hrun
  rw [hfound]
  refine ⟨hrun, hnodup, fun p => ?_⟩
  rw [hmem]
  simp only [List.mem_singleton, exists_eq_left]

/-- A search that keeps everything runs to its end. -/
theorem searchWith_collect (g : Graph) (order : CandidateOrder) (s : BlockId) :
    g.searchWith order s Search.collect [] = ⟨g.pathsWith order s, true⟩ :=
  (g.collect_spec order s).1

/-- No path is found twice. -/
theorem nodup_pathsWith (g : Graph) (order : CandidateOrder) (s : BlockId) :
    (g.pathsWith order s).Nodup :=
  (g.collect_spec order s).2.1

/-- What is found are the paths to leaves. -/
theorem mem_pathsWith : p ∈ g.pathsWith order s ↔ g.IsLeafPath s p :=
  ((g.collect_spec order s).2.2 p).trans OpenPath.completes_start_iff

end Graph

/-- Whatever the order in which candidates are tried, the search ends with an empty stack, and it
has offered each path from `start` to a leaf once and nothing else. -/
theorem Graph.search_finds_leaf_paths_once (g : Graph) (order : CandidateOrder)
    (start : BlockId) :
    g.searchWith order start Search.collect [] = ⟨g.pathsWith order start, true⟩ ∧
      (g.pathsWith order start).Nodup ∧
      ∀ p, p ∈ g.pathsWith order start ↔ g.IsLeafPath start p :=
  ⟨g.searchWith_collect order start, g.nodup_pathsWith order start, fun _ => mem_pathsWith⟩

end StackFlow
