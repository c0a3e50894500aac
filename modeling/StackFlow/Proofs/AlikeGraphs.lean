import StackFlow.Proofs.LoopBodies
import StackFlow.Proofs.ReportForm

/-!
# Graphs that no analysis tells apart

Graphs are alike if they have the same nodes, successors and registered blocks, and the same
predecessors in whatever order. An analysis without a limit comes to the same reports on them
(`Alike.result_run`), also if its searches try candidates in another order. The predecessors matter
for the bodies of loops and for the choice of start blocks only. A body is a set, collected from the
latches backwards (`mem_gather`), and a start block is one without predecessors. All else depends on
the successors: the walk that finds the loops, step by step (`LoopWalk.run_congr`), and the paths as
a set, which a report sorts.
-/

namespace StackFlow

/-! ## Bodies of loops -/

/-- Graphs with the same nodes, successors and registered blocks, and with the same predecessors up
to their order. -/
structure Graph.Alike (g g' : Graph) : Prop where
  /-- The successors of each node are the same, in the same order. -/
  succs_eq : g.succs = g'.succs
  /-- The same blocks are registered. -/
  blocks_eq : g.blocks = g'.blocks
  /-- The predecessors of each node are the same. -/
  mem_predecessors_iff : ∀ u v, u ∈ g.predecessors v ↔ u ∈ g'.predecessors v

namespace Graph.Alike

variable {g g' : Graph}

/-- Alike graphs have the same successors in the same order. -/
theorem successors_eq (h : g.Alike g') : g.successors = g'.successors := by
  funext n
  rw [successors, h.succs_eq, successors]

/-- Alike graphs have the same stack effects. -/
theorem effect?_eq (h : g.Alike g') : g.effect? = g'.effect? := by
  funext n
  rw [effect?, block?, h.blocks_eq, effect?, block?]

/-- Alike graphs have the same nodes. -/
theorem hasNode_eq (h : g.Alike g') (n : BlockId) : g.hasNode n = g'.hasNode n := by
  rw [hasNode, h.succs_eq, hasNode]

/-- The body of a loop does not depend on the order of predecessors. -/
theorem findBody_eq (h : g.Alike g') : Loop.findBody g = Loop.findBody g' := by
  have hreach : g.Reach = g'.Reach := by
    unfold Reach Adj
    rw [h.successors_eq]
  exact findBody_congr h.mem_predecessors_iff hreach

end Graph.Alike

/-! ## Walks and paths -/

namespace LoopWalk

/-- One step of a walk: back from a block whose edges are explored, on to a new block, or past an
edge. -/
theorem run_eq (g : Graph) (w : LoopWalk) :
    run g w = match w.frames with
      | [] => w
      | f :: rest =>
        match (g.successors f.node)[f.next]? with
        | none => run g { w.mark f.node .done with frames := rest }
        | some t =>
          match w.detector.progress.get? t with
          | none =>
            run g { w.mark t .active with
              frames := ⟨t, 0⟩ :: { f with next := f.next + 1 } :: rest
              events := w.events ++ [.entered ⟨f.node, t⟩] }
          | some .active =>
            run g { w.noteBackEdge ⟨f.node, t⟩ with
              frames := { f with next := f.next + 1 } :: rest }
          | some .done => run g { w with frames := { f with next := f.next + 1 } :: rest } := by
  rw [run]
  split
  · next hf => rw [hf]
  · next f rest hf =>
    rw [hf]
    dsimp only
    split
    · next ht => rw [ht]
    · next t ht =>
      rw [ht]
      dsimp only
      split
      · next hp => rw [hp]
      · next hp => rw [hp]
      · next hp => rw [hp]

/-- A walk looks at successors only. -/
theorem run_congr {g g' : Graph} (hsuccs : g.successors = g'.successors) (w : LoopWalk) :
    run g w = run g' w := by
  fun_induction run g w with
  | case1 w hf => rw [run_eq, hf]
  | case2 w f rest hf ht ih => simp only [run_eq g' w, hf, ← hsuccs, ht, ih]
  | case3 w f rest hf t ht frames hp ih => simp only [run_eq g' w, hf, ← hsuccs, ht, hp, ih, frames]
  | case4 w f rest hf t ht frames hp ih => simp only [run_eq g' w, hf, ← hsuccs, ht, hp, ih, frames]
  | case5 w f rest hf t ht frames hp ih => simp only [run_eq g' w, hf, ← hsuccs, ht, hp, ih, frames]

end LoopWalk

namespace Graph.Alike

variable {g g' : Graph}

/-- In alike graphs the same loops are found, in the same order. -/
theorem detect_eq (h : g.Alike g') (d : LoopDetector) (s : BlockId) :
    d.detect g s = d.detect g' s := by
  unfold LoopDetector.detect
  rw [LoopWalk.run_congr h.successors_eq, h.findBody_eq]

end Graph.Alike

/-! ## Reports -/

namespace Analysis

variable {a b : Analysis} {g g' : Graph}

/-- Reconciling depends on the policy and on the stack effects only. -/
theorem reconcileAll_congr (hpolicy : a.policy = b.policy) (heffect : g.effect? = g'.effect?)
    (r : Report) (ns : List BlockId) : a.reconcileAll g r ns = b.reconcileAll g' r ns := by
  have hstep : ∀ r n, a.reconcile g r n = b.reconcile g' r n := by
    intro r n
    unfold reconcile
    rw [heffect, hpolicy]
  induction ns generalizing r with
  | nil => rfl
  | cons n ns ih =>
    unfold reconcileAll
    simp only [hstep, ih]

/-- Without a limit the listed paths depend on the successors only. -/
theorem listed_congr (hlimit : a.limit ≤ 0) (hlimit' : b.limit ≤ 0)
    (hsuccs : g.successors = g'.successors) (s : BlockId) : a.listed g s = b.listed g' s := by
  rw [listed, listed, if_pos hlimit, if_pos hlimit']
  exact Paths.sorted_eq_of_perm (Graph.pathsWith_perm hsuccs a.order b.order s)

/-- What is shared by analyses that ask for the same, but try candidates in different orders. -/
structure Agree (a b : Analysis) : Prop where
  /-- The start blocks are the same. -/
  starts_eq : a.starts = b.starts
  /-- Both are strict, or none is. -/
  strict_eq : a.strict = b.strict
  /-- Neither has a limit. -/
  limit_nonpos : a.limit ≤ 0 ∧ b.limit ≤ 0
  /-- The policy is the same. -/
  policy_eq : a.policy = b.policy
  /-- The functions are the same. -/
  members_eq : a.members = b.members

end Analysis

namespace Graph.Alike

variable {g g' : Graph} {a b : Analysis}

open Analysis

/-- Without a limit, alike graphs have the same reports before any paths are reconciled. -/
theorem unreconciled_eq (h : g.Alike g') (hlimit : a.limit ≤ 0) (hlimit' : b.limit ≤ 0)
    (s : BlockId) (c : Convergence) : a.unreconciled g s c = b.unreconciled g' s c := by
  have hexceeds : ∀ {a : Analysis} {g : Graph}, a.limit ≤ 0 → a.exceeds g s = false := by
    intro a g hlimit
    rw [exceeds, decide_eq_false (by omega), Bool.false_and]
  unfold unreconciled
  rw [h.detect_eq, listed_congr hlimit hlimit' h.successors_eq, hexceeds hlimit, hexceeds hlimit']

/-- The report on a start block is the same. -/
theorem fst_report_eq (h : g.Alike g') (hab : a.Agree b) (s : BlockId) :
    (a.report g s).1 = (b.report g' s).1 := by
  obtain ⟨hlimit, hlimit'⟩ := hab.limit_nonpos
  cases hs : g.hasNode s with
  | false =>
    rw [fst_report_of_not_hasNode hs, fst_report_of_not_hasNode ((h.hasNode_eq s).symm.trans hs),
      hab.strict_eq]
  | true =>
    rw [fst_report_of_hasNode hs, fst_report_of_hasNode ((h.hasNode_eq s).symm.trans hs),
      hab.strict_eq, listed_congr hlimit hlimit' h.successors_eq]
    simp only [h.unreconciled_eq hlimit hlimit', reconcileAll_congr hab.policy_eq h.effect?_eq]

/-- The same blocks are chosen to start from. -/
theorem startBlocks_eq (h : g.Alike g') (hab : a.Agree b) :
    a.startBlocks g = b.startBlocks g' := by
  have hnodes : g.nodes = g'.nodes := by rw [nodes, h.succs_eq, nodes]
  have hroots : roots g = roots g' := by
    unfold roots
    rw [hnodes]
    refine List.filter_congr (fun n _ => ?_)
    rw [Bool.eq_iff_iff, List.isEmpty_iff, List.isEmpty_iff, List.eq_nil_iff_forall_not_mem,
      List.eq_nil_iff_forall_not_mem]
    simp only [h.mem_predecessors_iff]
  unfold startBlocks sharedBlocks
  rw [hab.starts_eq, hab.members_eq, hroots, hnodes]

/-- Alike graphs have the same reports on given start blocks. -/
theorem result_reports_eq (h : g.Alike g') (hab : a.Agree b) (ns : List BlockId) :
    (a.reports g ns).result = (b.reports g' ns).result := by
  induction ns with
  | nil => rfl
  | cons n ns ih => rw [result_reports_cons, result_reports_cons, h.fst_report_eq hab, ih]

/-- An analysis comes to the same reports, or ends early for the same reason. -/
theorem result_run_eq (h : g.Alike g') (hab : a.Agree b) :
    (a.run g).result = (b.run g').result := by
  rw [result_run, result_run, h.startBlocks_eq hab, h.result_reports_eq hab]

end Graph.Alike

end StackFlow
