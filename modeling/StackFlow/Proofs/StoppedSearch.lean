import StackFlow.Proofs.LeafPaths

/-!
# Searches that their consumer stops

A search offers paths to a consumer, which may ask it to stop. Whatever the consumer does, it meets
the paths in the order in which a search that nobody stops finds them, up to and including the one
at which it asks to stop (`Graph.searchWith_eq_offer`). So nothing that a consumer keeps depends on
the stack of the search: `Search.offer` runs the consumer on a list of paths and knows no graph.

The proof follows the search. What an open path offers when it is popped is settled before the
consumer sees it, and if the consumer does not stop there, the open paths that take its place are
those of the search without a stop (`Search.tryAll_eq`).
-/

namespace StackFlow

namespace Search

variable {σ : Type}

/-- Offers paths to a consumer in turn, until a call asks to stop. -/
def offer (emit : σ → Path → σ × Bool) : σ → Paths → Search σ
  | s, [] => ⟨s, true⟩
  | s, p :: ps =>
    match emit s p with
    | (s', true) => offer emit s' ps
    | (s', false) => ⟨s', false⟩

/-- The paths behind the first ones are offered unless the consumer stops at one of these. -/
theorem offer_append (emit : σ → Path → σ × Bool) (s : σ) (ps qs : Paths) :
    offer emit s (ps ++ qs) =
      if (offer emit s ps).complete then offer emit (offer emit s ps).state qs
      else offer emit s ps := by
  induction ps generalizing s with
  | nil => rfl
  | cons p ps ih =>
    rw [List.cons_append, offer, offer]
    split
    next s' _ => exact ih s'
    next => rfl

/-- The consumer that keeps everything keeps what it is offered. -/
theorem offer_collect (s ps : Paths) : offer collect s ps = ⟨s ++ ps, true⟩ := by
  induction ps generalizing s with
  | nil => rw [List.append_nil, offer]
  | cons p ps ih =>
    rw [List.append_cons, offer]
    exact ih (s ++ [p])

/-! ## One step of the search -/

/-- Trying candidates offers the leaves among them. If the consumer does not stop, the others are
pushed. -/
theorem tryAll_eq (g : Graph) (emit : σ → Path → σ × Bool) (f : OpenPath) (ns : List BlockId)
    (s : σ) (acc : List OpenPath) :
    tryAll g emit f ns s acc =
      (if (offer emit s (offered g f ns)).complete then some (pushed g f ns ++ acc) else none,
        (offer emit s (offered g f ns)).state) := by
  induction ns generalizing s acc with
  | nil => rfl
  | cons n ns ih =>
    rw [tryAll]
    cases hl : g.isLeaf n with
    | true =>
      have hoffered : offered g f (n :: ns) = (f.extend n).path :: offered g f ns := by
        simp [offered, hl]
      have hpushed : pushed g f (n :: ns) = pushed g f ns := by simp [pushed, hl]
      rw [hoffered, hpushed, if_pos rfl, offer]
      cases emit s (f.extend n).path with
      | mk s' goOn =>
        cases goOn with
        | true => exact ih s' acc
        | false => rfl
    | false =>
      have hoffered : offered g f (n :: ns) = offered g f ns := by simp [offered, hl]
      have hpushed : pushed g f (n :: ns) ++ acc = pushed g f ns ++ f.extend n :: acc := by
        simp [pushed, hl]
      rw [hoffered, hpushed, if_neg Bool.false_ne_true]
      exact ih s (f.extend n :: acc)

/-- The search pops an open path and offers what this one offers. Then it ends, or it goes on with
the open paths that take its place. -/
theorem run_cons (g : Graph) (order : CandidateOrder) (emit : σ → Path → σ × Bool) (f : OpenPath)
    (rest : List OpenPath) (s : σ) {ns : List BlockId}
    (hns : order.arrange f.path (f.candidates g) = ns) :
    run g order emit (f :: rest) s =
      if (offer emit s (offered g f ns)).complete then
        run g order emit (pushed g f ns ++ rest) (offer emit s (offered g f ns)).state
      else offer emit s (offered g f ns) := by
  rw [run]
  split
  next s' h =>
    rw [hns, tryAll_eq, Prod.mk.injEq] at h
    obtain ⟨hnone, rfl⟩ := h
    split at hnone
    · exact absurd hnone (Option.some_ne_none _)
    next hstop =>
      rw [if_neg hstop, ← Bool.eq_false_iff.2 hstop]
  next opened s' h =>
    rw [hns, tryAll_eq, Prod.mk.injEq] at h
    obtain ⟨hsome, rfl⟩ := h
    split at hsome
    next hcomplete =>
      obtain rfl := Option.some.inj hsome
      rw [if_pos hcomplete, List.append_nil]
    · exact absurd hsome.symm (Option.some_ne_none _)

/-! ## The whole search -/

/-- From a given stack, every consumer is offered the same paths. -/
theorem exists_run_eq_offer (g : Graph) (order : CandidateOrder) (stack : List OpenPath) :
    ∃ found, ∀ (σ : Type) (emit : σ → Path → σ × Bool) (s : σ),
      run g order emit stack s = offer emit s found := by
  -- the search's own measure, as no consumer changes what takes the place of an open path
  induction hw : total (OpenPath.weight g) stack using Nat.strong_induction_on
    generalizing stack with
  | h w ih =>
    cases stack with
    | nil => exact ⟨[], fun σ emit s => by rw [run, offer]⟩
    | cons f rest =>
      have hns := order.perm f.path (f.candidates g)
      generalize hns' : order.arrange f.path (f.candidates g) = ns at hns
      have hlt : total (OpenPath.weight g) (pushed g f ns ++ rest) < w := by
        have hstep := total_weight_tryAll_lt (s := ([] : Paths)) hns
          (congrArg Prod.fst (tryAll_collect g f ns [] []))
        rw [List.append_nil] at hstep
        rw [← hw, total_append, total]
        omega
      obtain ⟨later, hlater⟩ := ih _ hlt (pushed g f ns ++ rest) rfl
      refine ⟨offered g f ns ++ later, fun σ emit s => ?_⟩
      rw [run_cons g order emit f rest s hns', offer_append, hlater]

end Search

namespace Graph

/-- A consumer is offered the paths of a search without a stop, in the same order. -/
theorem searchWith_eq_offer {σ : Type} (g : Graph) (order : CandidateOrder) (start : BlockId)
    (emit : σ → Path → σ × Bool) (init : σ) :
    g.searchWith order start emit init = Search.offer emit init (g.pathsWith order start) := by
  obtain ⟨found, hfound⟩ := Search.exists_run_eq_offer g order [⟨start, [start]⟩]
  have hpaths : g.pathsWith order start = found := by
    change (Search.run g order Search.collect [⟨start, [start]⟩] []).state = found
    rw [hfound, Search.offer_collect, List.nil_append]
  rw [hpaths]
  exact hfound σ emit init

end Graph

end StackFlow
