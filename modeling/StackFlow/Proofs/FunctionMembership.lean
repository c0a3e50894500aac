import StackFlow.Proofs.EdgeTraversal
import StackFlow.Proofs.ProgramGraph

/-!
# The functions around a block

A block belongs to every function whose entry reaches it. `Records` says of a membership which
blocks it has in which functions; a membership is determined by that (`Records.unique`), so that the
order in which functions are recorded does not matter. Recording a function by a traversal from its
entry records just what the entry reaches (`records_membershipOf`), and all of it is registered in
the graph of the program.
-/

namespace StackFlow

namespace Membership

variable {m m' : Membership} {r r' : BlockId → String → Prop}

/-- The names of the functions around a block in ascending order. -/
def names (m : Membership) (n : BlockId) : List String := (m.names? n).getD []

/-- The membership has a block in a function exactly if the relation holds of them, and lists no
block without a function. -/
structure Records (m : Membership) (r : BlockId → String → Prop) : Prop where
  /-- The names of a block are those that the relation gives. -/
  mem_names_iff : ∀ n s, s ∈ m.names n ↔ r n s
  /-- A block that is listed has a name. -/
  exists_of_names? : ∀ n, m.names? n ≠ none → ∃ s, r n s

/-! ## What recording does -/

/-- Adding a name to a block changes the names of that block only. -/
theorem names?_add (m : Membership) (n : BlockId) (s : String) (k : BlockId) :
    (m.add n s).names? k =
      if k = n then some (((m.funcs.get? n).getD .empty).add s).toList else m.names? k := by
  unfold names? add
  rw [SortedMap.get?_upsert]
  split <;> rfl

/-- The name that is added is a name of the block, and no other is new. -/
theorem mem_names_add {n k : BlockId} {s t : String} :
    t ∈ (m.add n s).names k ↔ t ∈ m.names k ∨ k = n ∧ t = s := by
  unfold names
  rw [names?_add]
  by_cases hk : k = n
  · subst hk
    rw [if_pos rfl, Option.getD_some, SortedSet.mem_toList_add, names?]
    cases m.funcs.get? k with
    | none => simp [SortedSet.toList, SortedMap.keys, SortedMap.empty]
    | some set => simp
  · simp [hk]

/-- Nothing is on record at first. -/
theorem records_empty : Records .empty (fun _ _ => False) :=
  ⟨fun _ _ => iff_of_false List.not_mem_nil id, fun _ h => absurd rfl h⟩

/-- What is on record may be said in other words. -/
theorem Records.congr (h : m.Records r) (hr : ∀ n s, r n s ↔ r' n s) : m.Records r' :=
  ⟨fun n s => (h.mem_names_iff n s).trans (hr n s),
    fun n hn => (h.exists_of_names? n hn).imp (fun s => (hr n s).1)⟩

/-- A name that is added to a block is on record. -/
theorem Records.add (h : m.Records r) (n : BlockId) (s : String) :
    (m.add n s).Records (fun k t => r k t ∨ k = n ∧ t = s) := by
  constructor
  case mem_names_iff =>
    intro k t
    rw [mem_names_add, h.mem_names_iff]
  case exists_of_names? =>
    intro k hk
    by_cases hkn : k = n
    · exact ⟨s, .inr ⟨hkn, rfl⟩⟩
    · rw [names?_add, if_neg hkn] at hk
      exact (h.exists_of_names? k hk).imp (fun _ => .inl)

/-- A name that is added to blocks in turn is on record for all of them. -/
theorem Records.addAll (h : m.Records r) (s : String) (ns : List BlockId) :
    (m.addAll s ns).Records (fun k t => r k t ∨ k ∈ ns ∧ t = s) := by
  unfold Membership.addAll
  induction ns generalizing m r with
  | nil => exact h.congr (by simp)
  | cons n ns ih =>
    refine (ih (h.add n s)).congr (fun k t => ?_)
    rw [or_assoc, ← or_and_right, List.mem_cons]

/-- A block is not listed exactly if it is in no function. -/
theorem Records.get?_eq_none_iff (h : m.Records r) (n : BlockId) :
    m.funcs.get? n = none ↔ ∀ s, ¬ r n s := by
  constructor
  · intro hn s hs
    have hmem := (h.mem_names_iff n s).2 hs
    rw [names, names?, hn] at hmem
    exact absurd hmem List.not_mem_nil
  · intro hnone
    by_contra hsome
    obtain ⟨s, hs⟩ := h.exists_of_names? n (by rwa [names?, Ne, Option.map_eq_none_iff])
    exact hnone s hs

/-- A membership is determined by what it records. -/
theorem Records.unique (h : m.Records r) (h' : m'.Records r) : m = m' := by
  suffices hget : ∀ n, m.funcs.get? n = m'.funcs.get? n by
    obtain ⟨f⟩ := m
    obtain ⟨f'⟩ := m'
    exact congrArg Membership.mk (SortedMap.ext_get? hget)
  intro n
  -- both list the same blocks, and a block that both list with the same names
  have hnone := (h.get?_eq_none_iff n).trans (h'.get?_eq_none_iff n).symm
  have hmem := fun s => (h.mem_names_iff n s).trans (h'.mem_names_iff n s).symm
  unfold names names? at hmem
  cases hn : m.funcs.get? n with
  | none => exact (hnone.1 hn).symm
  | some set =>
    cases hn' : m'.funcs.get? n with
    | none => exact absurd (hnone.2 hn') (by simp [hn])
    | some set' =>
      rw [hn, hn'] at hmem
      exact congrArg some (SortedSet.ext_toList hmem)

/-! ## Shared blocks -/

/-- Shared blocks are listed in ascending order. -/
theorem pairwise_lt_shared (m : Membership) : m.shared.Pairwise (· < ·) :=
  m.funcs.pairwise_lt_keys.sublist (List.filter_sublist.map _)

/-- A set has more than one element exactly if it has two different ones. -/
theorem one_lt_size_iff (set : SortedSet String) :
    1 < set.size ↔ ∃ s t, s ≠ t ∧ s ∈ set.toList ∧ t ∈ set.toList := by
  rw [← one_lt_length_iff_of_nodup set.nodup_toList, SortedSet.toList, SortedMap.keys,
    List.length_map, SortedMap.size]

/-- The shared blocks are those with two different names. -/
theorem mem_shared_iff {n : BlockId} :
    n ∈ m.shared ↔ ∃ s t, s ≠ t ∧ s ∈ m.names n ∧ t ∈ m.names n := by
  unfold shared names names?
  constructor
  · intro h
    obtain ⟨⟨k, set⟩, he, rfl⟩ := List.mem_map.1 h
    obtain ⟨he, hlt⟩ := List.mem_filter.1 he
    rw [SortedMap.mem_entries_iff.1 he]
    exact (one_lt_size_iff set).1 (of_decide_eq_true hlt)
  · intro h
    cases hn : m.funcs.get? n with
    | none =>
      rw [hn] at h
      obtain ⟨s, t, -, hs, -⟩ := h
      exact absurd hs List.not_mem_nil
    | some set =>
      rw [hn] at h
      refine List.mem_map.2 ⟨(n, set), List.mem_filter.2 ⟨SortedMap.mem_entries_iff.2 hn, ?_⟩, rfl⟩
      exact decide_eq_true ((one_lt_size_iff set).2 h)

/-! ## Copying names into a graph -/

/-- The block registered under a number takes up the names recorded for it, and keeps all else. -/
theorem block?_apply (m : Membership) (g : Graph) (n : BlockId) :
    (m.apply g).block? n = (g.block? n).map (fun b => { b with
      funcs := ((m.funcs.get? n).map b.funcs.union).getD b.funcs }) := by
  unfold Graph.block? apply
  dsimp only
  rw [SortedMap.get?_foldl_modify (f := fun set (b : Block) =>
    { b with funcs := b.funcs.union set }) m.funcs.ascending]
  -- each block is changed by the one entry with its number, if there is one
  refine congrFun (congrArg Option.map (funext (fun b => ?_))) _
  rw [← SortedMap.get?]
  cases m.funcs.get? n <;> rfl

/-- A block that was in no function has just the names recorded for it. -/
theorem funcs_of_block?_apply {g : Graph} {n : BlockId} {b : Block}
    (hg : ∀ b, g.block? n = some b → b.funcs = .empty) (h : (m.apply g).block? n = some b) :
    b.funcs.toList = m.names n := by
  rw [block?_apply] at h
  obtain ⟨c, hc, rfl⟩ := Option.map_eq_some_iff.1 h
  unfold names names?
  dsimp only
  rw [hg c hc]
  cases hn : m.funcs.get? n with
  | none => rfl
  | some set =>
    -- the union with no names is the set itself
    rw [Option.map_some, Option.getD_some, Option.map_some, Option.getD_some]
    refine congrArg SortedSet.toList (SortedSet.ext_toList (fun s => ?_))
    rw [SortedSet.mem_toList_union]
    exact or_iff_right List.not_mem_nil

/-! ## Recording what an entry reaches -/

/-- A traversal from an entry names the blocks that the entry reaches. -/
theorem Records.traverse (h : m.Records r) (g : Graph) (s : String) (e : BlockId) :
    ((m.add e s).addAll s ((g.traverse e).edges.map (·.target))).Records
      (fun n t => r n t ∨ t = s ∧ g.Reach e n) := by
  refine ((h.add e s).addAll s _).congr (fun n t => ?_)
  -- what is reached is the entry itself or the end of an edge that is followed
  have hreach : g.Reach e n ↔ n = e ∨ n ∈ (g.traverse e).edges.map (·.target) := by
    unfold Graph.Reach
    rw [Relation.ReflTransGen.cases_tail_iff, List.mem_map]
    refine or_congr_right ⟨?_, ?_⟩
    · rintro ⟨u, hu, hun⟩
      exact ⟨⟨u, n⟩, (g.mem_edges_traverse e).2 ⟨hu, hun⟩, rfl⟩
    · rintro ⟨⟨u, v⟩, huv, rfl⟩
      exact ⟨u, (g.mem_edges_traverse e).1 huv⟩
  rw [hreach, or_assoc, ← or_and_right, and_comm]

/-- Traversing from each entry in turn puts its name on record for what it reaches. -/
theorem Records.foldl_traverse (h : m.Records r) (g : Graph) (es : List (String × BlockId)) :
    (es.foldl (fun m e => (m.add e.2 e.1).addAll e.1 ((g.traverse e.2).edges.map (·.target)))
      m).Records (fun n s => r n s ∨ ∃ e, (s, e) ∈ es ∧ g.Reach e n) := by
  induction es generalizing m r with
  | nil => exact h.congr (by simp)
  | cons a es ih =>
    obtain ⟨s, e⟩ := a
    refine (ih (h.traverse g s e)).congr (fun n t => ?_)
    simp only [List.mem_cons, Prod.mk.injEq, or_assoc]
    refine or_congr_right ⟨?_, ?_⟩
    · rintro (⟨rfl, hn⟩ | ⟨e', he', hn⟩)
      · exact ⟨e, .inl ⟨rfl, rfl⟩, hn⟩
      · exact ⟨e', .inr he', hn⟩
    · rintro ⟨e', ⟨rfl, rfl⟩ | he', hn⟩
      · exact .inl ⟨rfl, hn⟩
      · exact .inr ⟨e', he', hn⟩

end Membership

/-! ## The functions of a program -/

namespace Program

/-- A block is in a function if the function's entry reaches it. -/
def InFunction (p : Program) (s : String) (n : BlockId) : Prop :=
  ∃ e, p.entries.get? s = some e ∧ p.Reach e n

/-- The names of a block are those of the entries that reach it. -/
theorem records_membershipOf (g : Graph) (es : List (String × BlockId)) :
    (membershipOf g es).Records (fun n s => ∃ e, (s, e) ∈ es ∧ g.Reach e n) :=
  (Membership.records_empty.foldl_traverse g es).congr (fun _ _ => or_iff_right id)

/-- The order in which functions are recorded does not matter. -/
theorem membershipOf_perm (g : Graph) {es es' : List (String × BlockId)} (h : es.Perm es') :
    membershipOf g es = membershipOf g es' := by
  refine (records_membershipOf g es).unique ((records_membershipOf g es').congr (fun n s => ?_))
  exact exists_congr (fun e => and_congr_left (fun _ => h.mem_iff.symm))

/-- The names of a program's block are those of the functions that it is in. -/
theorem IsGraphOf.records_membership {p : Program} {g : Graph} (hg : p.IsGraphOf g) :
    (p.membership g).Records (fun n s => p.InFunction s n) := by
  refine (records_membershipOf g _).congr (fun n s => ?_)
  unfold InFunction
  simp only [SortedMap.mem_entries_iff, hg.reach_iff]

/-- A block that is in a function is a block of the program. -/
theorem IsDecoded.isBlock_of_inFunction {code : List UInt8} {p : Program} (hp : IsDecoded code p)
    {s : String} {n : BlockId} (h : p.InFunction s n) : p.IsBlock n := by
  obtain ⟨e, he, hreach⟩ := h
  exact hp.isBlock_of_reach (hp.isBlock_entry he) hreach

/-- Code that is not empty has a program, and a graph unless it is longer than there are block
numbers. In whatever order the functions are recorded, a block gets the names of the functions whose
entries reach it along the edges of the program, and the shared blocks are in ascending order those
that the entries of two functions reach. Copied into the graph, the names recorded for a block are
those of the block registered under its number, and none is recorded for another number. -/
theorem membership_by_reachability (code : List UInt8) (hcode : code ≠ []) :
    ∃ p, decode code = .ok p ∧
      (code.length ≤ UInt64.size → ∃ g, p.graph = .ok g) ∧
      ∀ g, p.graph = .ok g →
        (∀ es, es.Perm p.entries.entries → membershipOf g es = p.membership g) ∧
        (∀ n s, s ∈ (p.membership g).names n ↔ p.InFunction s n) ∧
        (p.membership g).shared.Pairwise (· < ·) ∧
        (∀ n, n ∈ (p.membership g).shared ↔
          ∃ s t, s ≠ t ∧ p.InFunction s n ∧ p.InFunction t n) ∧
        (∀ n, (((p.membership g).apply g).block? n).isSome = (g.block? n).isSome) ∧
        (∀ n b, ((p.membership g).apply g).block? n = some b →
          b.funcs.toList = (p.membership g).names n) ∧
        (∀ n, (p.membership g).names? n ≠ none → (g.block? n).isSome = true) := by
  obtain ⟨p, hdecode, hp⟩ := decode_eq_ok hcode
  refine ⟨p, hdecode, hp.exists_graph, fun g hgraph => ?_⟩
  have hg := isGraphOf_of_graph hgraph
  have hm := hg.records_membership
  refine ⟨fun es hes => membershipOf_perm g hes, hm.mem_names_iff,
    Membership.pairwise_lt_shared _, fun n => ?_, fun n => ?_, fun n b hb => ?_, fun n hn => ?_⟩
  · rw [Membership.mem_shared_iff]
    simp only [hm.mem_names_iff]
  · rw [Membership.block?_apply, Option.isSome_map]
  · exact Membership.funcs_of_block?_apply (hg.registers.funcs_eq_empty n) hb
  · obtain ⟨s, hs⟩ := hm.exists_of_names? n hn
    exact (hg.registers.isSome_block?_iff n).2 (hp.isBlock_of_inFunction hs)

/-- A dispatcher that sends two selectors to one entry, which jumps to itself. -/
def twoSelectors : List UInt8 :=
  [0x63, 0, 0, 0, 1, 0x14, 0x60, 0x13, 0x57, 0x63, 0, 0, 0, 2, 0x14, 0x60, 0x13, 0x57, 0x00,
    0x5b, 0x60, 0x13, 0x56]

/-- The instructions of the code. -/
theorem read_twoSelectors :
    Instruction.read twoSelectors =
      [⟨0, ⟨0x63⟩, [0, 0, 0, 1]⟩, ⟨5, ⟨0x14⟩, []⟩, ⟨6, ⟨0x60⟩, [0x13]⟩, ⟨8, ⟨0x57⟩, []⟩,
        ⟨9, ⟨0x63⟩, [0, 0, 0, 2]⟩, ⟨14, ⟨0x14⟩, []⟩, ⟨15, ⟨0x60⟩, [0x13]⟩, ⟨17, ⟨0x57⟩, []⟩,
        ⟨18, ⟨0x00⟩, []⟩, ⟨19, ⟨0x5b⟩, []⟩, ⟨20, ⟨0x60⟩, [0x13]⟩, ⟨22, ⟨0x56⟩, []⟩] := by
  simp [twoSelectors, Instruction.read, Instruction.readFrom, Opcode.immediateSize]

/-- The entry of both functions is shared, and the blocks of the dispatcher are not. -/
theorem membership_by_reachability_twoSelectors :
    twoSelectors ≠ [] ∧
      ∃ p g, decode twoSelectors = .ok p ∧ p.graph = .ok g ∧
        "0x00000001" ∈ (p.membership g).names 19 ∧
        19 ∈ (p.membership g).shared ∧ 9 ∉ (p.membership g).shared := by
  have hne : twoSelectors ≠ [] := by decide
  obtain ⟨p, hdecode, hexists, hall⟩ := membership_by_reachability twoSelectors hne
  obtain ⟨g, hgraph⟩ := hexists (by decide)
  obtain ⟨-, hnames, -, hshared, -⟩ := hall g hgraph
  obtain ⟨p', hdecode', hp⟩ := decode_eq_ok hne
  obtain rfl : p = p' := Except.ok.inj (hdecode.symm.trans hdecode')
  -- both tests lead to the jump destination at offset 19
  have hentries : p.entries = (SortedMap.empty.insert "0x00000001" 19).insert "0x00000002" 19 := by
    rw [hp.entries, destinations, read_twoSelectors]
    decide
  have hedges : p.edges = [⟨0, 19⟩, ⟨0, 9⟩, ⟨9, 19⟩, ⟨9, 18⟩, ⟨19, 19⟩] := by
    rw [hp.edges, hp.blocks, CodeBlock.ofCode, destinations, read_twoSelectors]
    decide
  have hfirst : p.InFunction "0x00000001" 19 := ⟨19, by rw [hentries]; decide, .refl⟩
  have hsecond : p.InFunction "0x00000002" 19 := ⟨19, by rw [hentries]; decide, .refl⟩
  refine ⟨hne, p, g, hdecode, hgraph, (hnames 19 _).2 hfirst,
    (hshared 19).2 ⟨_, _, by decide, hfirst, hsecond⟩, ?_⟩
  intro h
  obtain ⟨s, -, -, ⟨e, he, hreach⟩, -⟩ := (hshared 9).1 h
  obtain rfl : 19 = e := by
    rw [hentries] at he
    simp only [SortedMap.get?_insert, SortedMap.get?_empty] at he
    split_ifs at he
    · exact Option.some.inj he
    · exact Option.some.inj he
  -- the entry leads to itself only
  have hloop : ∀ n, p.Reach 19 n → n = 19 := by
    intro n hn
    induction hn with
    | refl => rfl
    | @tail u v _ huv ih =>
      rw [hedges, ih] at huv
      simpa using huv
  exact absurd (hloop 9 hreach) (by decide)

end Program

end StackFlow
