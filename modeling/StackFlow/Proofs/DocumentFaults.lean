import StackFlow.Proofs.DocumentGraphs

/-!
# Documents that make no graph

A document makes no graph if an entry has other contents than the first entry of its number
(`BlockEntry.differs`) or if an edge is not a pair. Entries are registered before edges are added,
so that a fault of an entry is reported whatever the edges are (`build_eq_error_iff`). Within either
list the first fault is reported: `Describes.addBlocks_eq_error_iff` carries this along the entries,
with the entries already registered in front, and `addEdges_eq_error_iff` along the edges. Without a
fault the graph is the one that the document describes.
-/

namespace StackFlow

/-- Whether an entry has other contents than the first one of its number. -/
def BlockEntry.differs (bs : List BlockEntry) (b : BlockEntry) : Bool :=
  (bs.find? (fun c => c.id = b.id)).any (fun first => first.contents ≠ b.contents)

/-- The block that an edge entry leads to from `u`, if it is a pair and starts there. -/
def GraphDocument.targetFrom? (u : BlockId) : List BlockId → Option BlockId
  | [source, target] => if source = u then some target else none
  | _ => none

/-- A block is refused only because its number is taken. -/
theorem Graph.eq_duplicateBlock_of_addBlock {g : Graph} {b : Block} {e : GraphError}
    (h : g.addBlock b = .error e) : e = .duplicateBlock b.id := by
  cases hb : g.block? b.id with
  | none =>
    rw [addBlock_of_new hb] at h
    exact absurd h (by nofun)
  | some known =>
    rw [addBlock_of_known hb] at h
    split at h
    · exact absurd h (by nofun)
    · exact (Except.error.inj h).symm

/-- For an entry behind others, what counts is the first of these with its number, if there is one.
-/
theorem BlockEntry.differs_append_cons (bs cs : List BlockEntry) (b : BlockEntry) :
    b.differs (bs ++ b :: cs) =
      (bs.find? (fun c => c.id = b.id)).any (fun first => first.contents ≠ b.contents) := by
  unfold differs
  rw [List.find?_append]
  cases bs.find? (fun c => c.id = b.id) with
  | none => simp
  | some first => rfl

namespace GraphDocument

variable {d : GraphDocument} {bs cs : List BlockEntry} {es : List Edge} {g : Graph} {m : Membership}
  {e : BuildError}

/-! ## The first entry at fault -/

/-- The contents registered under a number are those of the first entry. -/
theorem Describes.contents?_eq (h : Describes bs es g m) (n : BlockId) :
    g.contents? n = (bs.find? (fun b => b.id = n)).map BlockEntry.contents := by
  cases hfirst : bs.find? (fun b => b.id = n) with
  | some first =>
    have hid : first.id = n := of_decide_eq_true (List.find?_some hfirst :)
    exact (h.contents_iff n _).2 ⟨first, List.mem_of_find?_eq_some hfirst, hid, rfl⟩
  | none =>
    rw [Option.map_none, Option.eq_none_iff_forall_ne_some]
    intro x hx
    obtain ⟨b, hb, hid, -⟩ := (h.contents_iff n x).1 hx
    exact List.find?_eq_none.1 hfirst b hb (decide_eq_true hid)

/-- The block of a further entry is refused exactly if the entry differs from the first of its
number. -/
theorem Describes.exists_addBlock_iff (h : Describes bs es g m) (b : BlockEntry)
    (cs : List BlockEntry) :
    (∃ g', g.addBlock b.block = .ok g') ↔ ¬ b.differs (bs ++ b :: cs) = true := by
  rw [Graph.exists_addBlock_iff, BlockEntry.differs_append_cons]
  have hcontents : g.contents? b.block.id = _ := h.contents?_eq b.id
  rw [hcontents]
  cases bs.find? (fun c => c.id = b.id) with
  | none => simp
  | some first =>
    rw [Option.map_some, Option.any_some, decide_eq_true_iff, not_ne_iff]
    exact ⟨fun hall => hall _ rfl, fun heq x hx => (Option.some.inj hx).symm.trans heq⟩

/-- Adding entries behind others fails exactly if one of them differs from the first of its number,
and names the first that does. -/
theorem Describes.addBlocks_eq_error_iff (h : Describes bs es g m) :
    addBlocks g m cs = .error e ↔
      ∃ b, cs.find? (BlockEntry.differs (bs ++ cs)) = some b ∧
        e = .block (.duplicateBlock b.id) := by
  -- each entry moves from `cs` to `bs`, so that the whole list `bs ++ cs` stays the same
  induction cs generalizing bs g m with
  | nil => simp [addBlocks]
  | cons c cs ih =>
    have hrefused := h.exists_addBlock_iff c cs
    rw [addBlocks]
    cases hc : g.addBlock c.block with
    | error refusal =>
      have hdiffers : c.differs (bs ++ c :: cs) = true := by
        by_contra hnot
        obtain ⟨g', hg'⟩ := hrefused.2 hnot
        cases hc.symm.trans hg'
      rw [List.find?_cons_of_pos hdiffers, Graph.eq_duplicateBlock_of_addBlock hc]
      dsimp only
      rw [Except.error.injEq]
      constructor
      · rintro rfl
        exact ⟨c, rfl, rfl⟩
      · rintro ⟨b, hb, rfl⟩
        rw [← Option.some.inj hb]
        rfl
    | ok g₁ =>
      have hrest := ih (h.addEntry hc)
      rw [List.append_assoc] at hrest
      rw [List.find?_cons_of_neg (hrefused.1 ⟨g₁, hc⟩)]
      exact hrest

/-- The blocks of a document can be registered if no two of a number differ. -/
theorem exists_addBlocks_iff :
    (∃ g m, addBlocks .empty .empty bs = .ok (g, m)) ↔
      bs.find? (BlockEntry.differs bs) = none := by
  have herror : ∀ e, addBlocks .empty .empty bs = .error e ↔
      ∃ b, bs.find? (BlockEntry.differs bs) = some b ∧ e = .block (.duplicateBlock b.id) :=
    fun _ => describes_empty.addBlocks_eq_error_iff
  cases hbs : addBlocks .empty .empty bs with
  | error e =>
    obtain ⟨b, hb, -⟩ := (herror e).1 hbs
    rw [hb]
    exact iff_of_false (by rintro ⟨g, m, h⟩; exact absurd h (by nofun)) (by nofun)
  | ok r =>
    refine iff_of_true ⟨r.1, r.2, rfl⟩ (Option.eq_none_iff_forall_ne_some.2 (fun b hb => ?_))
    exact absurd (hbs.symm.trans ((herror _).2 ⟨b, hb, rfl⟩)) (by nofun)

/-! ## The first edge at fault -/

/-- Adding edges fails exactly if one of them is not a pair, and gives the first that is not with
its index. -/
theorem addEdges_eq_error_iff {i : Nat} {l : List (List BlockId)} :
    addEdges g i l = .error e ↔
      ∃ k entry, l[k]? = some entry ∧ entry.length ≠ 2 ∧ (∀ other ∈ l.take k, other.length = 2) ∧
        e = .edge (i + k) entry := by
  fun_induction addEdges g i l with
  | case1 => simp
  | case2 g i source target l ih =>
    rw [ih]
    constructor
    · rintro ⟨k, entry, hk, hlength, hbefore, rfl⟩
      refine ⟨k + 1, entry, hk, hlength, List.forall_mem_cons.2 ⟨rfl, hbefore⟩, ?_⟩
      rw [Nat.add_assoc, Nat.add_comm 1 k]
    · rintro ⟨k, entry, hk, hlength, hbefore, rfl⟩
      cases k with
      | zero =>
        -- the pair itself is in order
        obtain rfl : [source, target] = entry := Option.some.inj hk
        exact absurd rfl hlength
      | succ k =>
        refine ⟨k, entry, hk, hlength, (List.forall_mem_cons.1 hbefore).2, ?_⟩
        rw [Nat.add_assoc, Nat.add_comm 1 k]
  | case3 g i entry l hpair =>
    have hlength : entry.length ≠ 2 := by
      intro htwo
      obtain ⟨source, target, rfl⟩ := List.length_eq_two.1 htwo
      exact hpair source target rfl
    rw [Except.error.injEq]
    constructor
    · rintro rfl
      exact ⟨0, entry, rfl, hlength, by simp, rfl⟩
    · rintro ⟨k, other, hk, -, hbefore, rfl⟩
      cases k with
      | zero => rw [Option.some.inj hk, Nat.add_zero]
      | succ k => exact absurd ((List.forall_mem_cons.1 hbefore).1) hlength

/-! ## The outcome of building a document -/

/-- Building fails at the entries, or else at the edges. -/
theorem build_eq_error_iff :
    d.build = .error e ↔ addBlocks .empty .empty d.blocks = .error e ∨
      ∃ g m, addBlocks .empty .empty d.blocks = .ok (g, m) ∧ addEdges g 0 d.edges = .error e := by
  unfold build
  cases hblocks : addBlocks .empty .empty d.blocks with
  | error e' =>
    refine (or_iff_left ?_).symm
    rintro ⟨g, m, h, -⟩
    exact absurd h (by nofun)
  | ok r =>
    obtain ⟨g, m⟩ := r
    change (addEdges g 0 d.edges >>= fun g => pure (m.apply g, m)) = _ ↔ _
    constructor
    · intro h
      refine .inr ⟨g, m, rfl, ?_⟩
      cases hedges : addEdges g 0 d.edges with
      | error e' => rw [hedges] at h; rw [Except.error.inj h]
      | ok g' => rw [hedges] at h; exact absurd h (by nofun)
    · rintro (h | ⟨g', m', h, hedges⟩)
      · exact absurd h (by nofun)
      · obtain ⟨rfl, rfl⟩ := Prod.mk.inj (Except.ok.inj h)
        rw [hedges]
        rfl

/-- A document is refused for a block exactly if this is the first that differs from an earlier one
of its number. -/
theorem build_eq_duplicateBlock_iff {id : BlockId} :
    d.build = .error (.block (.duplicateBlock id)) ↔
      ∃ b, d.blocks.find? (BlockEntry.differs d.blocks) = some b ∧ b.id = id := by
  rw [build_eq_error_iff, describes_empty.addBlocks_eq_error_iff, List.nil_append]
  simp only [addEdges_eq_error_iff, BuildError.block.injEq, GraphError.duplicateBlock.injEq,
    reduceCtorEq, and_false, exists_false, or_false]
  simp only [eq_comm]

/-- A document is refused for an edge exactly if its blocks are fine and this is the first edge that
is no pair. -/
theorem build_eq_edge_iff {i : Nat} {entry : List BlockId} :
    d.build = .error (.edge i entry) ↔
      d.blocks.find? (BlockEntry.differs d.blocks) = none ∧ d.edges[i]? = some entry ∧
        entry.length ≠ 2 ∧ ∀ other ∈ d.edges.take i, other.length = 2 := by
  rw [build_eq_error_iff, describes_empty.addBlocks_eq_error_iff, ← exists_addBlocks_iff]
  simp only [addEdges_eq_error_iff, BuildError.edge.injEq, reduceCtorEq, and_false, exists_false,
    false_or, Nat.zero_add]
  constructor
  · rintro ⟨g, m, hblocks, k, entry, hk, hlength, hbefore, rfl, rfl⟩
    exact ⟨⟨g, m, hblocks⟩, hk, hlength, hbefore⟩
  · rintro ⟨⟨g, m, hblocks⟩, hi, hlength, hbefore⟩
    exact ⟨g, m, hblocks, i, entry, hi, hlength, hbefore, rfl, rfl⟩

/-- Entries that are all pairs are the edges that they stand for. -/
theorem exists_map_pair_iff {l : List (List BlockId)} :
    (∃ es : List Edge, l = es.map (fun e => [e.source, e.target])) ↔
      ∀ entry ∈ l, entry.length = 2 := by
  constructor
  · rintro ⟨es, rfl⟩ entry hentry
    obtain ⟨e, -, rfl⟩ := List.mem_map.1 hentry
    rfl
  · intro hall
    induction l with
    | nil => exact ⟨[], rfl⟩
    | cons entry l ih =>
      obtain ⟨hentry, hl⟩ := List.forall_mem_cons.1 hall
      obtain ⟨source, target, rfl⟩ := List.length_eq_two.1 hentry
      obtain ⟨es, rfl⟩ := ih hl
      exact ⟨⟨source, target⟩ :: es, rfl⟩

/-- A document makes a graph if no two blocks of a number differ and every edge is a pair. -/
theorem exists_build_iff :
    (∃ g m, d.build = .ok (g, m)) ↔
      d.blocks.find? (BlockEntry.differs d.blocks) = none ∧
        ∀ entry ∈ d.edges, entry.length = 2 := by
  rw [← exists_addBlocks_iff, ← exists_map_pair_iff]
  simp only [build_eq_ok_iff]
  constructor
  · rintro ⟨-, m, g, es, hblocks, hedges, -⟩
    exact ⟨⟨g, m, hblocks⟩, es, hedges⟩
  · rintro ⟨⟨g, m, hblocks⟩, es, hedges⟩
    exact ⟨_, m, g, es, hblocks, hedges, rfl⟩

/-- The edges that start at a block lead where its entries say, in their order. -/
theorem filterMap_targetFrom? (es : List Edge) (u : BlockId) :
    (es.map (fun e => [e.source, e.target])).filterMap (targetFrom? u) =
      (es.filter (fun e => e.source = u)).map (·.target) := by
  induction es with
  | nil => rfl
  | cons e es ih => by_cases hu : e.source = u <;> simp [targetFrom?, hu, ih]

/-- The effects of a graph are those of the entries that it is described by. -/
theorem Describes.effect?_eq_some_iff (h : Describes bs es g m) (n : BlockId) (x : StackEffect) :
    g.effect? n = some x ↔ ∃ b ∈ bs, b.id = n ∧ x = ⟨b.need, b.stack⟩ := by
  have heffect : g.effect? n = (g.contents? n).map (·.1) := by
    unfold Graph.effect? Graph.contents?
    rw [Option.map_map]
    rfl
  rw [heffect, Option.map_eq_some_iff]
  simp only [h.contents_iff]
  constructor
  · rintro ⟨-, ⟨b, hb, hid, rfl⟩, rfl⟩
    exact ⟨b, hb, hid, rfl⟩
  · rintro ⟨b, hb, hid, rfl⟩
    exact ⟨b.contents, ⟨b, hb, hid, rfl⟩, rfl⟩

/-- Building a document fails over an entry exactly if one differs in its need, stack or
instructions from the first entry of its number, whatever the edges are, and then names the first
that does. Otherwise it fails over an edge exactly if one is not a pair, and then gives the first
such edge with its index. Otherwise it succeeds. The successors of a block are then the targets of
the edges from it, in the order of the document, and its effect on the stack is the one of its
entries. Its functions, as recorded and as kept with the registered block, are those named in any of
its entries. -/
theorem build_fails_at_first_fault (d : GraphDocument) :
    (∀ id, d.build = .error (.block (.duplicateBlock id)) ↔
        ∃ b, d.blocks.find? (BlockEntry.differs d.blocks) = some b ∧ b.id = id) ∧
      (∀ i entry, d.build = .error (.edge i entry) ↔
        (∀ b ∈ d.blocks, b.differs d.blocks = false) ∧ d.edges[i]? = some entry ∧
          entry.length ≠ 2 ∧ ∀ other ∈ d.edges.take i, other.length = 2) ∧
      ((∃ g m, d.build = .ok (g, m)) ↔
        (∀ b ∈ d.blocks, b.differs d.blocks = false) ∧ ∀ entry ∈ d.edges, entry.length = 2) ∧
      ∀ g m, d.build = .ok (g, m) →
        (∀ u, g.successors u = d.edges.filterMap (targetFrom? u)) ∧
          (∀ n x, g.effect? n = some x ↔ ∃ b ∈ d.blocks, b.id = n ∧ x = ⟨b.need, b.stack⟩) ∧
          (∀ n s, s ∈ m.names n ↔ ∃ b ∈ d.blocks, b.id = n ∧ s ∈ b.funcs) ∧
          ∀ n c, g.block? n = some c →
            ∀ s, s ∈ c.funcs.toList ↔ ∃ b ∈ d.blocks, b.id = n ∧ s ∈ b.funcs := by
  have hnone : d.blocks.find? (BlockEntry.differs d.blocks) = none ↔
      ∀ b ∈ d.blocks, b.differs d.blocks = false := by
    simp only [List.find?_eq_none, Bool.not_eq_true]
  refine ⟨fun id => build_eq_duplicateBlock_iff, fun i entry => ?_, ?_, fun g m hbuild => ?_⟩
  · rw [build_eq_edge_iff, hnone]
  · rw [exists_build_iff, hnone]
  · obtain ⟨es, hyields⟩ := exists_yields_of_build hbuild
    have hnames := hyields.records.mem_names_iff
    refine ⟨fun u => ?_, hyields.effect?_eq_some_iff, hnames, fun n c hc s => ?_⟩
    · rw [hyields.coherent.successors_eq, hyields.edges_eq, filterMap_targetFrom?]
    · rw [hyields.funcs_eq n c hc, hnames]

/-- Block 1 comes twice with the same contents and different names. -/
def agreeing : List BlockEntry :=
  [⟨1, 0, 1, ["PUSH0"], ["f"]⟩, ⟨2, 1, -1, ["POP"], []⟩, ⟨1, 0, 1, ["PUSH0"], ["g"]⟩]

/-- Blocks 2 and 1 with other contents than before. -/
def clashing : List BlockEntry := [⟨2, 1, -1, ["STOP"], []⟩, ⟨1, 5, 1, ["PUSH0"], []⟩]

/-- The first clash is that of block 2, and an edge that is no pair does not matter beside it. Of
two edges that are no pairs the first is given. -/
theorem build_fails_at_first_fault_clashing :
    build ⟨agreeing ++ clashing, [[1]]⟩ = .error (.block (.duplicateBlock 2)) ∧
      build ⟨agreeing, [[1, 2], [2], [1]]⟩ = .error (.edge 1 [2]) ∧
      ∃ g m, build ⟨agreeing, [[1, 2], [2, 1], [1, 2]]⟩ = .ok (g, m) ∧ g.successors 1 = [2, 2] ∧
        g.effect? 1 = some ⟨0, 1⟩ ∧ "f" ∈ m.names 1 ∧ "g" ∈ m.names 1 := by
  obtain ⟨hclash, -⟩ := build_fails_at_first_fault ⟨agreeing ++ clashing, [[1]]⟩
  obtain ⟨-, hloose, -⟩ := build_fails_at_first_fault ⟨agreeing, [[1, 2], [2], [1]]⟩
  obtain ⟨-, -, hexists, hgraph⟩ :=
    build_fails_at_first_fault ⟨agreeing, [[1, 2], [2, 1], [1, 2]]⟩
  obtain ⟨g, m, hbuild⟩ := hexists.2 (by decide)
  obtain ⟨hsuccs, heffect, hnames, -⟩ := hgraph g m hbuild
  refine ⟨(hclash 2).2 ⟨⟨2, 1, -1, ["STOP"], []⟩, by decide, rfl⟩,
    (hloose 1 [2]).2 (by decide), g, m, hbuild, hsuccs 1, (heffect 1 _).2 ?_,
    (hnames 1 "f").2 ?_, (hnames 1 "g").2 ?_⟩
  · exact ⟨⟨1, 0, 1, ["PUSH0"], ["f"]⟩, by decide, rfl, rfl⟩
  · exact ⟨⟨1, 0, 1, ["PUSH0"], ["f"]⟩, by decide, rfl, by decide⟩
  · exact ⟨⟨1, 0, 1, ["PUSH0"], ["g"]⟩, by decide, rfl, by decide⟩

end GraphDocument

end StackFlow
