import StackFlow.Graph
import StackFlow.Path

/-!
# Search for paths to leaves

Every path from a start block to a leaf that repeats no block, found with a stack of open paths. A
popped path is extended by each successor that is not on it: an extension that ends at a leaf is
offered to a consumer, any other goes back on the stack. The order in which the successors of an
open path are tried is a parameter, and the consumer may stop the search.
-/

namespace StackFlow

/-- An order in which the candidates for extending an open path are tried. -/
structure CandidateOrder where
  /-- The candidates of an open path, rearranged. -/
  arrange : Path → List BlockId → List BlockId
  /-- A rearrangement neither drops nor adds a candidate. -/
  perm : ∀ p l, (arrange p l).Perm l

/-- Candidates in the order in which their edges were added. -/
def CandidateOrder.insertion : CandidateOrder := ⟨fun _ l => l, fun _ l => .refl l⟩

/-- A path that has not reached a leaf. -/
structure OpenPath where
  /-- The path's last block. -/
  node : BlockId
  /-- The path. -/
  path : Path

namespace OpenPath

/-- The distinct successors of the last block that are not on the path. -/
def candidates (g : Graph) (f : OpenPath) : List BlockId :=
  (firsts (g.successors f.node)).filter (fun n => n ∉ f.path)

/-- The path with one more block. -/
def extend (f : OpenPath) (n : BlockId) : OpenPath := ⟨n, f.path ++ [n]⟩

/-- How many edge targets of the graph are not on the path. -/
def room (g : Graph) (f : OpenPath) : Nat := g.targets.countP (fun n => n ∉ f.path)

/-- Bounds the number of steps that the search spends on an open path. -/
def weight (g : Graph) (f : OpenPath) : Nat := Nat.pow (g.targets.length + 1) (f.room g)

/-- Extending by a candidate leaves less room. -/
theorem room_extend_lt {g : Graph} {f : OpenPath} {n : BlockId} (h : n ∈ f.candidates g) :
    (f.extend n).room g < f.room g := by
  obtain ⟨hs, hn⟩ := List.mem_filter.1 h
  have ht := Graph.mem_targets_of_mem_successors (mem_firsts.1 hs)
  refine countP_lt_countP (a := n) (fun x _ hx => ?_) ht (by simpa using hn) (by simp [extend])
  simp only [extend, List.mem_append, decide_eq_true_eq] at hx ⊢
  exact fun hx' => hx (.inl hx')

/-- There are no more candidates than edge targets. -/
theorem length_candidates_le (g : Graph) (f : OpenPath) :
    (f.candidates g).length ≤ g.targets.length :=
  Nat.le_trans (List.length_filter_le _ _)
    (Nat.le_trans (length_firsts_le _) (g.length_successors_le _))

end OpenPath

/-- What a search left behind: the consumer's last state, and whether it ran to its end. -/
structure Search (σ : Type) where
  /-- The consumer's state after its last call. -/
  state : σ
  /-- Whether no call stopped the search. -/
  complete : Bool
  deriving DecidableEq

namespace Search

variable {σ : Type}

/-- Tries the candidates of an open path in order. Extensions that end at a leaf go to `emit`, whose
second answer says whether to go on; the others are collected, last one first. -/
def tryAll (g : Graph) (emit : σ → Path → σ × Bool) (f : OpenPath) :
    List BlockId → σ → List OpenPath → Option (List OpenPath) × σ
  | [], s, opened => (some opened, s)
  | n :: rest, s, opened =>
    if g.isLeaf n then
      match emit s (f.extend n).path with
      | (s', true) => tryAll g emit f rest s' opened
      | (s', false) => (none, s')
    else tryAll g emit f rest s (f.extend n :: opened)

/-- What is collected are extensions by candidates. -/
theorem mem_tryAll {g : Graph} {emit : σ → Path → σ × Bool} {f : OpenPath} {ns : List BlockId}
    {s : σ} {acc opened : List OpenPath} (h : (tryAll g emit f ns s acc).1 = some opened) :
    ∀ e ∈ opened, e ∈ acc ∨ ∃ n ∈ ns, e = f.extend n := by
  induction ns generalizing s acc with
  | nil => simp only [tryAll, Option.some.injEq] at h; subst h; exact fun e he => .inl he
  | cons n ns ih =>
    intro e he
    rw [tryAll] at h
    split at h
    · split at h
      next => rcases ih h e he with h' | ⟨m, hm, h'⟩
              · exact .inl h'
              · exact .inr ⟨m, by simp [hm], h'⟩
      next => simp at h
    · rcases ih h e he with h' | ⟨m, hm, h'⟩
      · rcases List.mem_cons.1 h' with rfl | h'
        · exact .inr ⟨n, by simp, rfl⟩
        · exact .inl h'
      · exact .inr ⟨m, by simp [hm], h'⟩

/-- No more paths are collected than candidates tried. -/
theorem length_tryAll_le {g : Graph} {emit : σ → Path → σ × Bool} {f : OpenPath}
    {ns : List BlockId} {s : σ} {acc opened : List OpenPath}
    (h : (tryAll g emit f ns s acc).1 = some opened) :
    opened.length ≤ acc.length + ns.length := by
  induction ns generalizing s acc with
  | nil => simp only [tryAll, Option.some.injEq] at h; subst h; simp
  | cons n ns ih =>
    rw [tryAll] at h
    split at h
    · split at h
      · have := ih h; simp only [List.length_cons]; omega
      · simp at h
    · have := ih h; simp only [List.length_cons] at this ⊢; omega

/-- The open paths that replace a popped one weigh less than it. -/
theorem total_weight_tryAll_lt {g : Graph} {emit : σ → Path → σ × Bool} {f : OpenPath}
    {ns : List BlockId} {s : σ} {opened : List OpenPath} (hns : ns.Perm (f.candidates g))
    (h : (tryAll g emit f ns s []).1 = some opened) :
    total (OpenPath.weight g) opened < f.weight g := by
  have hlen : opened.length ≤ g.targets.length := by
    have h1 := length_tryAll_le h
    have h2 := f.length_candidates_le g
    have h3 := hns.length_eq
    simp only [List.length_nil] at h1
    omega
  have hw : ∀ e ∈ opened, e.room g < f.room g := by
    intro e he
    rcases mem_tryAll h e he with h' | ⟨n, hn, rfl⟩
    · simp at h'
    · exact OpenPath.room_extend_lt (hns.mem_iff.1 hn)
  cases hopen : opened with
  | nil => exact Nat.pow_pos (Nat.succ_pos _)
  | cons e es =>
    have hpos : 0 < f.room g := Nat.lt_of_le_of_lt (Nat.zero_le _) (hw e (by simp [hopen]))
    obtain ⟨k, hk⟩ : ∃ k, f.room g = k + 1 := ⟨f.room g - 1, by omega⟩
    -- each of the new paths weighs at most what a path with room for one block less does
    have h1 : total (OpenPath.weight g) opened ≤
        opened.length * Nat.pow (g.targets.length + 1) k :=
      total_le fun e he => Nat.pow_le_pow_right (Nat.succ_pos _) (by have := hw e he; omega)
    have h2 := Nat.mul_le_mul_right (Nat.pow (g.targets.length + 1) k) hlen
    have h3 : 0 < Nat.pow (g.targets.length + 1) k := Nat.pow_pos (Nat.succ_pos _)
    have h4 : f.weight g = g.targets.length * Nat.pow (g.targets.length + 1) k +
        Nat.pow (g.targets.length + 1) k := by
      rw [OpenPath.weight, hk, ← Nat.succ_mul, Nat.mul_comm]
      rfl
    rw [← hopen]
    omega

/-- Pops open paths and tries their candidates until the stack is empty or `emit` stops. -/
def run (g : Graph) (order : CandidateOrder) (emit : σ → Path → σ × Bool) :
    List OpenPath → σ → Search σ
  | [], s => ⟨s, true⟩
  | f :: rest, s =>
    match _h : tryAll g emit f (order.arrange f.path (f.candidates g)) s [] with
    | (none, s') => ⟨s', false⟩
    | (some opened, s') => run g order emit (opened ++ rest) s'
termination_by stack => total (OpenPath.weight g) stack
decreasing_by
  have h := total_weight_tryAll_lt (order.perm f.path (f.candidates g)) (congrArg Prod.fst _h)
  rw [total_append, total]
  omega

end Search

namespace Graph

/-- Offers the paths from `start` to `emit`, one call each, until a call asks to stop. -/
def searchWith {σ : Type} (g : Graph) (order : CandidateOrder) (start : BlockId)
    (emit : σ → Path → σ × Bool) (init : σ) : Search σ :=
  Search.run g order emit [⟨start, [start]⟩] init

/-- The paths from `start` in the order in which a search finds them. -/
def pathsWith (g : Graph) (order : CandidateOrder) (start : BlockId) : Paths :=
  (g.searchWith order start (fun ps p => (ps ++ [p], true)) []).state

/-- The paths from `start` to the leaves it reaches. A start that is a leaf or unknown has none. -/
def paths (g : Graph) (start : BlockId) : Paths := g.pathsWith .insertion start

end Graph

end StackFlow
