import StackFlow.CommandLine.Run
import StackFlow.Proofs.PathText
import StackFlow.Proofs.ReportForm

/-!
# The calls of a consumer

What a search does to its consumer shows in the calls that it makes. `Search.record` is any consumer
made to note its calls, and a search treats it like the consumer itself. `Search.IsRecord` says what
the notes are: the paths of a search that nobody stops, in order, up to and including the first one
at which the consumer asks to stop, each call in the state that the one before has left.

A consumer that asks to stop at its `k`-th call is then called as often as there are paths, and at
most `k` times (`IsRecord.length_eq`). The command that lists paths has such a consumer, so that it
shows the first `k` paths (`CommandLine.output_listPaths`).
-/

namespace StackFlow

namespace Search

/-- A call of a consumer. -/
structure Call (σ : Type) where
  /-- The consumer's state before the call. -/
  before : σ
  /-- The path that it is offered. -/
  path : Path
  /-- Its state after the call. -/
  after : σ
  /-- Whether it asks to go on. -/
  goOn : Bool

variable {σ : Type}

/-- The consumer that does what `emit` does and notes its calls. -/
def record (emit : σ → Path → σ × Bool) (s : σ × List (Call σ)) (p : Path) :
    (σ × List (Call σ)) × Bool :=
  let answer := emit s.1 p
  ((answer.1, s.2 ++ [⟨s.1, p, answer.1, answer.2⟩]), answer.2)

/-- The calls of a consumer that is offered the paths of a list, and what is left behind. -/
structure IsRecord (emit : σ → Path → σ × Bool) (init : σ) (ps : Paths) (r : Search σ)
    (calls : List (Call σ)) : Prop where
  /-- The consumer answers each call. -/
  answers : ∀ c ∈ calls, emit c.before c.path = (c.after, c.goOn)
  /-- The first call finds the consumer in its first state. -/
  first : ∀ c, calls.head? = some c → c.before = init
  /-- Each call finds the state that the one before has left. -/
  steps : calls.IsChain (fun c d => d.before = c.after)
  /-- The state that the last call leaves is the one that remains. -/
  state : r.state = (calls.getLast?.map Call.after).getD init
  /-- The paths are offered in their order. -/
  in_order : calls.map Call.path <+: ps
  /-- A call that asks to stop is the last one. -/
  no_more : ∀ c ∈ calls.dropLast, c.goOn = true
  /-- Unless a call asks to stop, all paths are offered. -/
  no_less : (∀ c ∈ calls, c.goOn = true) → calls.map Call.path = ps
  /-- The search runs to its end unless a call asks to stop. -/
  complete : r.complete = true ↔ ∀ c ∈ calls, c.goOn = true

variable {emit : σ → Path → σ × Bool} {s s' : σ} {p : Path} {ps : Paths} {r : Search σ}
  {calls : List (Call σ)}

/-! ## One call after the other -/

/-- A consumer that is offered nothing is not called. -/
theorem isRecord_nil (emit : σ → Path → σ × Bool) (s : σ) : IsRecord emit s [] ⟨s, true⟩ [] where
  answers := by simp
  first := by simp
  steps := List.isChain_nil
  state := rfl
  in_order := List.prefix_rfl
  no_more := by simp
  no_less _ := rfl
  complete := by simp

/-- A consumer that asks to stop is not called again. -/
theorem isRecord_stop (h : emit s p = (s', false)) (ps : Paths) :
    IsRecord emit s (p :: ps) ⟨s', false⟩ [⟨s, p, s', false⟩] where
  answers := by simpa using h
  first := by simp
  steps := List.isChain_singleton _
  state := rfl
  in_order := ⟨ps, rfl⟩
  no_more := by simp
  no_less := by simp
  complete := by simp

/-- A call that asks to go on stands before the calls behind it. -/
theorem IsRecord.cons (hp : emit s p = (s', true)) (h : IsRecord emit s' ps r calls) :
    IsRecord emit s (p :: ps) r (⟨s, p, s', true⟩ :: calls) where
  answers := List.forall_mem_cons.2 ⟨hp, h.answers⟩
  first := by simp
  steps := List.isChain_cons.2 ⟨h.first, h.steps⟩
  state := by
    rw [h.state, List.getLast?_cons]
    cases calls.getLast? <;> rfl
  in_order := List.prefix_cons_inj p |>.2 h.in_order
  no_more := by
    cases calls with
    | nil => simp
    | cons c calls =>
      rw [List.dropLast_cons_cons]
      exact List.forall_mem_cons.2 ⟨rfl, h.no_more⟩
  no_less hall := congrArg (p :: ·) (h.no_less (List.forall_mem_cons.1 hall).2)
  complete := by
    rw [h.complete, List.forall_mem_cons]
    exact (and_iff_right rfl).symm

/-- A consumer that notes its calls is offered what the consumer itself is offered. -/
theorem exists_offer_record (emit : σ → Path → σ × Bool) (s : σ) (noted : List (Call σ))
    (ps : Paths) :
    ∃ calls, offer (record emit) (s, noted) ps =
        ⟨((offer emit s ps).state, noted ++ calls), (offer emit s ps).complete⟩ ∧
      IsRecord emit s ps (offer emit s ps) calls := by
  induction ps generalizing s noted with
  | nil => exact ⟨[], by rw [List.append_nil]; rfl, isRecord_nil emit s⟩
  | cons p ps ih =>
    rw [offer, offer, record]
    cases hp : emit s p with
    | mk s' goOn =>
      cases goOn with
      | false => exact ⟨_, rfl, isRecord_stop hp ps⟩
      | true =>
        obtain ⟨calls, hcalls, hrecord⟩ := ih s' (noted ++ [⟨s, p, s', true⟩])
        refine ⟨⟨s, p, s', true⟩ :: calls, ?_, hrecord.cons hp⟩
        rw [List.append_assoc] at hcalls
        exact hcalls

/-! ## Consumers that stop at a given call -/

/-- The calls before the `k`-th ask to go on, and that one asks to stop. -/
def StopAt (k : Nat) (calls : List (Call σ)) : Prop :=
  ∀ i c, calls[i]? = some c → (c.goOn = true ↔ i + 1 < k)

/-- Calls that all ask to go on do not come to the `k`-th. -/
theorem StopAt.length_lt {k : Nat} (h : StopAt k calls) (hk : 1 ≤ k)
    (hall : ∀ c ∈ calls, c.goOn = true) : calls.length < k := by
  cases hlast : calls.getLast? with
  | none =>
    rw [List.getLast?_eq_none_iff.1 hlast, List.length_nil]
    omega
  | some c =>
    have hgo := hall c (List.mem_of_getLast? hlast)
    rw [List.getLast?_eq_getElem?] at hlast
    have hlt := (h _ c hlast).1 hgo
    omega

/-- A consumer that asks to stop at its `k`-th call is called once for each path, but at most `k`
times, and the search runs to its end if there are fewer paths. -/
theorem IsRecord.length_eq (h : IsRecord emit s ps r calls) {k : Nat} (hk : 1 ≤ k)
    (hstop : StopAt k calls) :
    calls.length = min k ps.length ∧ (r.complete = true ↔ ps.length < k) := by
  by_cases hall : ∀ c ∈ calls, c.goOn = true
  · have hlength : calls.length = ps.length := by rw [← h.no_less hall, List.length_map]
    have hlt := hstop.length_lt hk hall
    exact ⟨by omega, iff_of_true (h.complete.2 hall) (by omega)⟩
  · -- the last call asks to stop, and those before it to go on
    obtain ⟨c, hc, hno⟩ : ∃ c ∈ calls, ¬ c.goOn = true := by
      simpa only [not_forall, exists_prop] using hall
    obtain rfl | ⟨front, last, rfl⟩ := List.eq_nil_or_concat' calls
    · exact absurd hc List.not_mem_nil
    have hfront := h.no_more
    rw [List.dropLast_concat] at hfront
    obtain rfl : c = last := by
      rcases List.mem_append.1 hc with hmem | hmem
      · exact absurd (hfront c hmem) hno
      · exact List.mem_singleton.1 hmem
    have hlast : ¬ front.length + 1 < k :=
      mt (hstop front.length c List.getElem?_concat_length).2 hno
    have hlt : front.length < k := by
      refine StopAt.length_lt (fun i d hd => hstop i d ?_) hk hfront
      rw [List.getElem?_append_left (List.getElem?_eq_some_iff.1 hd).1, hd]
    have hle := h.in_order.length_le
    rw [List.length_map, List.length_append, List.length_singleton] at hle
    rw [List.length_append, List.length_singleton, h.complete]
    exact ⟨by omega, iff_of_false hall (by omega)⟩

end Search

namespace CommandLine

variable {order : CandidateOrder} {s : Settings} {g : Graph} {start : BlockId} {k : Nat}

/-- With a limit the search for a listing keeps as many paths as the limit allows. -/
theorem state_searchWith_limited (hk : 1 ≤ k) (hmax : s.maxPaths = k) :
    (g.searchWith order start (fun (found : Paths) p =>
        (found ++ [p], decide (s.maxPaths ≤ 0) || decide ((found.length : Int) + 1 < s.maxPaths)))
      []).state = (g.pathsWith order start).take k := by
  have hemit : ∀ (found : Paths) (p : Path),
      (found ++ [p], decide (s.maxPaths ≤ 0) || decide ((found.length : Int) + 1 < s.maxPaths)) =
        (found ++ [p], decide (found.length + 1 ≤ k - 1)) := by
    intro found p
    have hpos : ¬ s.maxPaths ≤ 0 := by omega
    have hiff : (found.length : Int) + 1 < s.maxPaths ↔ found.length + 1 ≤ k - 1 := by omega
    rw [decide_eq_false hpos, Bool.false_or, decide_eq_decide.2 hiff]
  rw [g.searchWith_eq_offer, Search.offer_limited hemit [] _ (Nat.zero_le _), List.nil_append,
    Nat.sub_add_cancel hk]
  split
  next hall =>
    rw [List.length_nil, Nat.zero_add] at hall
    rw [List.take_of_length_le (by omega)]
  next => rfl

/-- A listing shows its paths line by line; if there has to be a path and there is none, it shows
none. -/
theorem output_listPaths (hk : 1 ≤ k) (hmax : s.maxPaths = k) :
    (listPaths order s g start).output =
      String.join (((g.pathsWith order start).take k).map fun p => p.text ++ "\n") := by
  unfold listPaths
  dsimp only
  rw [state_searchWith_limited hk hmax]
  split
  next hnone =>
    rw [Bool.and_eq_true, List.isEmpty_iff] at hnone
    rw [hnone.2]
    rfl
  next => rfl

/-- The command lists the paths from the block that its word names. -/
theorem perform_paths {word : String} (hword : blockOf word = .ok start) (color : Bool)
    (input : Input) :
    perform order .paths s color [word] input = listPaths order s input.graph start := by
  unfold perform
  rw [if_neg (by decide), List.mapM_cons, hword]
  rfl

end CommandLine

namespace Graph

/-- A search calls its consumer for the paths that it finds if nobody stops it, in their order, up
to and including the first call that asks to stop, and it runs to its end if there is no such call.
A consumer that asks to stop at its `k`-th call is called as often as there are paths, and at most
`k` times; the search runs to its end if there are fewer than `k` paths. So the command that lists
paths, limited to `k`, shows that many different ones. -/
theorem stopped_search_calls (g : Graph) (order : CandidateOrder) (start : BlockId) :
    (∀ (σ : Type) (emit : σ → Path → σ × Bool) (init : σ), ∃ calls : List (Search.Call σ),
      g.searchWith order start (Search.record emit) (init, []) =
        ⟨((g.searchWith order start emit init).state, calls),
          (g.searchWith order start emit init).complete⟩ ∧
      Search.IsRecord emit init (g.pathsWith order start) (g.searchWith order start emit init)
        calls ∧
      ∀ k, 1 ≤ k → Search.StopAt k calls →
        calls.length = min k (g.pathsWith order start).length ∧
        ((g.searchWith order start emit init).complete = true ↔
          (g.pathsWith order start).length < k)) ∧
    ∀ (s : CommandLine.Settings) (k : Nat) (color : Bool) (word : String)
        (input : CommandLine.Input), 1 ≤ k → s.maxPaths = k → input.graph = g →
      CommandLine.blockOf word = .ok start →
      (CommandLine.perform order .paths s color [word] input).output =
        String.join (((g.pathsWith order start).take k).map fun p => p.text ++ "\n") ∧
      ((g.pathsWith order start).take k).length = min k (g.pathsWith order start).length ∧
      (((g.pathsWith order start).take k).map Path.text).Nodup := by
  constructor
  · intro σ emit init
    obtain ⟨calls, hcalls, hrecord⟩ :=
      Search.exists_offer_record emit init [] (g.pathsWith order start)
    rw [g.searchWith_eq_offer, g.searchWith_eq_offer]
    exact ⟨calls, hcalls, hrecord, fun k hk hstop => hrecord.length_eq hk hstop⟩
  · rintro s k color word input hk hmax rfl hword
    have hnodup := (input.graph.nodup_pathsWith order start).sublist (List.take_sublist k _)
    rw [CommandLine.perform_paths hword, CommandLine.output_listPaths hk hmax]
    exact ⟨rfl, List.length_take, hnodup.map Path.text_injective⟩

/-- Block 0 goes on to block 1, which is no leaf, and to three leaves. -/
def leavesBesideWay : Graph := ofEdges [⟨0, 1⟩, ⟨0, 2⟩, ⟨0, 3⟩, ⟨0, 4⟩, ⟨1, 5⟩]

/-- A consumer that counts its calls and asks to stop at the second leaves a leaf of block 0 and the
way over block 1 to a search that goes no further. A listing of two paths shows the same two. -/
theorem stopped_search_calls_leavesBesideWay :
    leavesBesideWay.pathsWith .insertion 0 = [[0, 2], [0, 3], [0, 4], [0, 1, 5]] ∧
      (∃ calls : List (Search.Call Nat),
        calls = [⟨0, [0, 2], 1, true⟩, ⟨1, [0, 3], 2, false⟩] ∧
        leavesBesideWay.searchWith .insertion 0
          (Search.record fun n _ => (n + 1, decide (n + 1 < 2))) (0, []) = ⟨(2, calls), false⟩ ∧
        Search.StopAt 2 calls ∧ calls.length = 2) ∧
      CommandLine.blockOf "0" = .ok 0 ∧
      (CommandLine.Settings.ofArguments ⟨[(.maxPaths, "2")], ["0"]⟩).maxPaths = (2 : Nat) ∧
      (CommandLine.perform .insertion .paths
        (CommandLine.Settings.ofArguments ⟨[(.maxPaths, "2")], ["0"]⟩) false ["0"]
        ⟨leavesBesideWay, .empty, []⟩).output = "[0 → 2]\n[0 → 3]\n" := by
  have hpaths : leavesBesideWay.pathsWith .insertion 0 = [[0, 2], [0, 3], [0, 4], [0, 1, 5]] := by
    cbv
  have hword : CommandLine.blockOf "0" = .ok 0 := by cbv
  have hmax : (CommandLine.Settings.ofArguments ⟨[(.maxPaths, "2")], ["0"]⟩).maxPaths =
      (2 : Nat) := by cbv
  have hsearch : leavesBesideWay.searchWith .insertion 0
      (Search.record fun n _ => (n + 1, decide (n + 1 < 2))) (0, []) =
        ⟨(2, [⟨0, [0, 2], 1, true⟩, ⟨1, [0, 3], 2, false⟩]), false⟩ := by cbv
  obtain ⟨hcalls, hcommand⟩ := stopped_search_calls leavesBesideWay .insertion 0
  obtain ⟨calls, hrun, -, hcount⟩ := hcalls Nat (fun n _ => (n + 1, decide (n + 1 < 2))) 0
  obtain rfl : [⟨0, [0, 2], 1, true⟩, ⟨1, [0, 3], 2, false⟩] = calls :=
    congrArg (fun r => r.state.2) (hsearch.symm.trans hrun)
  have hstop : Search.StopAt 2 [⟨0, [0, 2], 1, true⟩, ⟨1, [0, 3], 2, false⟩] := by
    rintro (_ | _ | i) c hc
    · cases hc; decide
    · cases hc; decide
    · cases hc
  have houtput :=
    (hcommand _ 2 false "0" ⟨leavesBesideWay, .empty, []⟩ (by decide) hmax rfl hword).1
  rw [hpaths] at houtput hcount
  exact ⟨hpaths, ⟨_, rfl, hsearch, hstop, (hcount 2 (by decide) hstop).1⟩, hword, hmax,
    houtput.trans (by cbv)⟩

end Graph

end StackFlow
