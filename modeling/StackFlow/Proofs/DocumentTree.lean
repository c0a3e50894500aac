import Mathlib.Data.List.Forall2
import StackFlow.Proofs.DocumentTokens
import StackFlow.Yaml.Node.Read

/-!
# The tree behind the tokens of a document

`Reads r ls ls' P` says of a reader of tokens that it succeeds where the tokens `ls` are left,
leaves `ls'` and gives a result with `P`. `StandsFor` says this of a node, whatever follows it, as
soon as the fuel is not below the number of its tokens. Its rules follow the form of the tokens: a
scalar, a list on one line, a list in a block, and a mapping in a block with plain keys. The places
of nodes are left open everywhere, since nothing that is read from a tree depends on them.
-/

namespace StackFlow.Yaml

namespace Read

variable {α β : Type} {r : Read α} {k : α → Read β} {ls ls' rest : List Lexeme} {l : Lexeme}
  {fuel : Nat} {block indentless : Bool}

/-! ## Readers -/

/-- With the tokens `ls` left a reader succeeds, and leaves `ls'`. -/
def Reads (r : Read α) (ls ls' : List Lexeme) (P : α → Prop) : Prop :=
  ∀ s : ReadState, s.tokens.map Token.lexeme = ls →
    ∃ a s', r s = .ok (a, s') ∧ s'.tokens.map Token.lexeme = ls' ∧ P a

namespace Reads

variable {P P' : α → Prop} {Q : β → Prop}

/-- A reader that reads nothing. -/
theorem pure {a : α} (h : P a) : Reads (pure a) ls ls P := fun s hs => ⟨a, s, rfl, hs, h⟩

/-- One reader after the other. -/
theorem bind {mid : List Lexeme} (h : Reads r ls mid P) (hk : ∀ a, P a → Reads (k a) mid ls' Q) :
    Reads (r >>= k) ls ls' Q := by
  intro s hs
  obtain ⟨a, s₁, hr, hs₁, ha⟩ := h s hs
  obtain ⟨b, s₂, hk, hs₂, hb⟩ := hk a ha s₁ hs₁
  refine ⟨b, s₂, ?_, hs₂, hb⟩
  show (r s).bind (fun x => k x.1 x.2) = _
  rw [hr]
  exact hk

/-- What is known of the result may be weakened. -/
theorem imp (h : Reads r ls ls' P) (hP : ∀ a, P a → P' a) : Reads r ls ls' P' := by
  intro s hs
  obtain ⟨a, s', hr, hs', ha⟩ := h s hs
  exact ⟨a, s', hr, hs', hP a ha⟩

end Reads

/-- Whether the text cannot be read beyond a token. -/
def isFault : Lexeme → Bool
  | .fault _ => true
  | _ => false

/-- Looking at a token reads nothing. -/
theorem reads_peek (hl : isFault l = false) :
    Reads peek (l :: ls) (l :: ls) (fun t => t.lexeme = l) := by
  intro s hs
  obtain ⟨t, ts, htokens, ht, -⟩ := List.map_eq_cons_iff.1 hs
  refine ⟨t, s, ?_, hs, ht⟩
  simp only [peek, htokens]
  split
  next e he =>
    rw [← ht, he] at hl
    exact absurd hl.symm Bool.false_ne_true
  next => rfl

/-- Skipping a token reads it. -/
theorem reads_skip : Reads skip (l :: ls) ls (fun _ => True) := by
  intro s hs
  refine ⟨(), _, rfl, ?_, trivial⟩
  rw [List.map_drop, hs]
  rfl

/-- Skipping a token shows the one behind it. -/
theorem reads_next {l' : Lexeme} (hl : isFault l = false) :
    Reads next (l' :: l :: ls) (l :: ls) (fun t => t.lexeme = l) :=
  reads_skip.bind (fun _ _ => reads_peek hl)

/-! ## Nodes -/

/-- Whether a token begins a node that has neither a name nor a tag. -/
def opensNode : Lexeme → Bool
  | .scalar .. | .flowSequenceStart | .blockSequenceStart | .blockMappingStart => true
  | _ => false

/-- A token that opens a node is none that does not. -/
theorem ne_of_opensNode {l' : Lexeme} (h : opensNode l = true) (h' : opensNode l' = false) :
    l ≠ l' := by
  rintro rfl
  exact Bool.false_ne_true (h'.symm.trans h)

/-- A token that opens a node is no fault. -/
theorem isFault_of_opensNode (h : opensNode l = true) : isFault l = false := by
  unfold isFault
  split
  next => exact absurd h Bool.false_ne_true
  next => rfl

/-- A node that begins with such a token has neither a name nor a tag. -/
theorem properties_of_opensNode {t : Token} (h : opensNode t.lexeme = true) :
    properties t = pure (⟨t.start, none, none⟩, t) := by
  unfold properties
  split
  next hanchor => exact absurd hanchor (ne_of_opensNode h rfl)
  next htag => exact absurd htag (ne_of_opensNode h rfl)
  next => rfl

/-- A scalar is read as a node. -/
theorem reads_scalar (text : String) (style : ScalarStyle) :
    Reads (node (fuel + 1) block indentless) (.scalar text style :: ls) ls
      (fun n => ∃ m, n = .scalar m none text style) := by
  unfold node
  refine (reads_peek rfl).bind (fun t ht => ?_)
  simp only [ht, properties_of_opensNode (t := t) (by rw [ht]; rfl), pure_bind, declare]
  exact reads_skip.bind (fun _ _ => .pure ⟨t.start, rfl⟩)

/-- A node that holds a sequence of nodes with `P`. -/
def IsSequence (P : List Node → Prop) (n : Node) : Prop := ∃ m ns, n = .sequence m none ns ∧ P ns

/-- A node that holds a mapping of entries with `P`. -/
def IsMapping (P : List (Node × Node) → Prop) (n : Node) : Prop :=
  ∃ m es, n = .mapping m none es ∧ P es

/-- A list on one line is read as the sequence of its items. -/
theorem reads_flowSequence {P : List Node → Prop}
    (h : ∀ start, Reads (flowItems fuel start true []) ls ls' P) :
    Reads (node (fuel + 1) block indentless) (.flowSequenceStart :: ls) ls' (IsSequence P) := by
  unfold node
  refine (reads_peek rfl).bind (fun t ht => ?_)
  simp only [ht, properties_of_opensNode (t := t) (by rw [ht]; rfl), pure_bind, declare]
  refine reads_skip.bind (fun _ _ => (h t.start).bind (fun ns hns => ?_))
  exact .pure ⟨t.start, ns, rfl, hns⟩

/-- A list in a block is read as the sequence of its items. -/
theorem reads_blockSequence {P : List Node → Prop}
    (h : ∀ start, Reads (blockItems fuel start []) ls ls' P) :
    Reads (node (fuel + 1) true indentless) (.blockSequenceStart :: ls) ls' (IsSequence P) := by
  unfold node
  refine (reads_peek rfl).bind (fun t ht => ?_)
  simp only [ht, properties_of_opensNode (t := t) (by rw [ht]; rfl), pure_bind, declare]
  refine reads_skip.bind (fun _ _ => (h t.start).bind (fun ns hns => ?_))
  exact .pure ⟨t.start, ns, rfl, hns⟩

/-- A mapping in a block is read as its entries. -/
theorem reads_blockMapping {P : List (Node × Node) → Prop}
    (h : ∀ start, Reads (blockEntries fuel start []) ls ls' P) :
    Reads (node (fuel + 1) true indentless) (.blockMappingStart :: ls) ls' (IsMapping P) := by
  unfold node
  refine (reads_peek rfl).bind (fun t ht => ?_)
  simp only [ht, properties_of_opensNode (t := t) (by rw [ht]; rfl), pure_bind, declare]
  refine reads_skip.bind (fun _ _ => (h t.start).bind (fun es hes => ?_))
  exact .pure ⟨t.start, es, rfl, hes⟩

/-- The tokens `ls` stand for a node with `P`, whatever follows them. -/
structure StandsFor (block : Bool) (ls : List Lexeme) (P : Node → Prop) : Prop where
  opens : ∃ l ls', ls = l :: ls' ∧ opensNode l = true
  reads : ∀ fuel indentless rest, ls.length ≤ fuel →
    Reads (node fuel block indentless) (ls ++ rest) rest P

/-- The token of a scalar stands for a node with its text and style. -/
theorem standsFor_scalar (text : String) (style : ScalarStyle) :
    StandsFor block [.scalar text style] (fun n => ∃ m, n = .scalar m none text style) where
  opens := ⟨_, _, rfl, rfl⟩
  reads := by
    intro fuel indentless rest hfuel
    obtain ⟨fuel, rfl⟩ : ∃ k, fuel = k + 1 := Nat.exists_eq_add_one.2 hfuel
    exact reads_scalar text style

namespace StandsFor

variable {P : Node → Prop}

/-- The first of the tokens opens the node. -/
theorem peek (h : StandsFor block ls P) :
    Reads peek (ls ++ rest) (ls ++ rest) (fun t => opensNode t.lexeme = true) := by
  obtain ⟨l, ls', rfl, hl⟩ := h.opens
  exact (reads_peek (isFault_of_opensNode hl)).imp (fun t ht => ht ▸ hl)

/-- The node is opened by the token behind the one that is skipped. -/
theorem next (h : StandsFor block ls P) :
    Reads next (l :: (ls ++ rest)) (ls ++ rest) (fun t => opensNode t.lexeme = true) :=
  reads_skip.bind (fun _ _ => h.peek)

/-- A node has a token. -/
theorem length_pos (h : StandsFor block ls P) : 0 < ls.length := by
  obtain ⟨l, ls', rfl, -⟩ := h.opens
  exact Nat.succ_pos _

/-- What is known of the node may be weakened. -/
theorem imp {P' : Node → Prop} (h : StandsFor block ls P) (hP : ∀ n, P n → P' n) :
    StandsFor block ls P' :=
  ⟨h.opens, fun fuel indentless rest hfuel => (h.reads fuel indentless rest hfuel).imp hP⟩

end StandsFor

/-! ## Lists on one line -/

section Items

variable {γ : Type} {lexemes : γ → List Lexeme} {P : γ → Node → Prop} {xs : List γ} {start : Mark}

/-- The items behind the first are read in turn, each behind its comma, up to the end of the list.
-/
theorem reads_flowItems_tail (h : ∀ x ∈ xs, StandsFor false (lexemes x) (P x)) :
    ∀ fuel acc, (xs.flatMap (fun x => .flowEntry :: lexemes x)).length < fuel →
      Reads (flowItems fuel start false acc)
        (xs.flatMap (fun x => .flowEntry :: lexemes x) ++ .flowSequenceEnd :: rest) rest
        (fun ns => ∃ new, ns = acc ++ new ∧ List.Forall₂ P xs new) := by
  induction xs with
  | nil =>
    intro fuel acc hfuel
    obtain ⟨fuel, rfl⟩ : ∃ k, fuel = k + 1 := Nat.exists_eq_add_one.2 hfuel
    unfold flowItems
    refine (reads_peek rfl).bind (fun t ht => ?_)
    simp only [ht]
    exact reads_skip.bind (fun _ _ => .pure ⟨[], (List.append_nil acc).symm, .nil⟩)
  | cons x xs ih =>
    intro fuel acc hfuel
    obtain ⟨fuel, rfl⟩ : ∃ k, fuel = k + 1 := Nat.exists_eq_add_one.2 (Nat.zero_lt_of_lt hfuel)
    have hx := h x List.mem_cons_self
    have hlength : (lexemes x).length ≤ fuel ∧
        (xs.flatMap (fun x => .flowEntry :: lexemes x)).length < fuel := by
      simp only [List.flatMap_cons, List.cons_append, List.length_cons, List.length_append] at hfuel
      omega
    rw [List.flatMap_cons, List.cons_append, List.cons_append, List.append_assoc]
    unfold flowItems
    refine (reads_peek rfl).bind (fun t ht => ?_)
    simp only [ht]
    -- behind the comma neither a key nor the end of the list stands, but the next item
    refine hx.next.bind (fun t ht => ?_)
    split
    next hkey => exact absurd hkey (ne_of_opensNode ht rfl)
    next hend => exact absurd hend (ne_of_opensNode ht rfl)
    next =>
      refine (hx.reads fuel false _ hlength.1).bind (fun n hn => ?_)
      refine (ih (fun y hy => h y (List.mem_cons_of_mem x hy)) fuel _ hlength.2).imp ?_
      rintro _ ⟨new, rfl, hnew⟩
      exact ⟨n :: new, by simp, .cons hn hnew⟩

/-- Commas between items stand before all but the first. -/
theorem intercalate_flowEntry (x : γ) (xs : List γ) :
    [.flowEntry].intercalate ((x :: xs).map lexemes) =
      lexemes x ++ xs.flatMap (fun y => .flowEntry :: lexemes y) := by
  induction xs generalizing x with
  | nil => simp
  | cons y ys ih =>
    rw [List.map_cons, List.map_cons, List.intercalate_cons_cons, ← List.map_cons, ih,
      List.flatMap_cons, List.append_assoc, List.singleton_append, List.cons_append]

/-- The items of a list on one line. -/
theorem standsFor_flow (h : ∀ x ∈ xs, StandsFor false (lexemes x) (P x)) :
    StandsFor block (flowLexemes (xs.map lexemes)) (IsSequence (List.Forall₂ P xs)) where
  opens := ⟨_, _, rfl, rfl⟩
  reads := by
    intro fuel indentless rest hfuel
    simp only [flowLexemes, List.length_cons, List.length_append, List.length_nil] at hfuel
    obtain ⟨fuel, rfl⟩ : ∃ k, fuel = k + 2 := ⟨fuel - 2, by omega⟩
    rw [flowLexemes, List.cons_append, List.append_assoc]
    refine reads_flowSequence (fun start => ?_)
    cases xs with
    | nil =>
      unfold flowItems
      refine (reads_peek rfl).bind (fun t ht => ?_)
      simp only [ht]
      exact reads_skip.bind (fun _ _ => .pure .nil)
    | cons x xs =>
      -- the first item has no comma before it, and its token neither ends the list nor is a key
      have hx := h x List.mem_cons_self
      have hpos := hx.length_pos
      rw [intercalate_flowEntry, List.length_append] at hfuel
      rw [intercalate_flowEntry, List.append_assoc]
      unfold flowItems
      refine hx.peek.bind (fun t ht => ?_)
      split
      next hend => exact absurd hend (ne_of_opensNode ht rfl)
      next =>
        simp only [pure_bind]
        split
        next hkey => exact absurd hkey (ne_of_opensNode ht rfl)
        next hend => exact absurd hend (ne_of_opensNode ht rfl)
        next =>
          refine (hx.reads fuel false _ (by omega)).bind (fun n hn => ?_)
          refine (reads_flowItems_tail (fun y hy => h y (List.mem_cons_of_mem x hy)) fuel _
            (by omega)).imp ?_
          rintro _ ⟨new, rfl, hnew⟩
          exact .cons hn hnew

/-! ## Collections in a block -/

/-- The items of a list in a block are read in turn, each behind its mark. -/
theorem reads_blockItems (h : ∀ x ∈ xs, StandsFor true (lexemes x) (P x)) :
    ∀ fuel acc, (xs.flatMap (fun x => itemLexemes (lexemes x))).length < fuel →
      Reads (blockItems fuel start acc)
        (xs.flatMap (fun x => itemLexemes (lexemes x)) ++ .blockEnd :: rest) rest
        (fun ns => ∃ new, ns = acc ++ new ∧ List.Forall₂ P xs new) := by
  induction xs with
  | nil =>
    intro fuel acc hfuel
    obtain ⟨fuel, rfl⟩ : ∃ k, fuel = k + 1 := Nat.exists_eq_add_one.2 hfuel
    unfold blockItems
    refine (reads_peek rfl).bind (fun t ht => ?_)
    simp only [ht]
    exact reads_skip.bind (fun _ _ => .pure ⟨[], (List.append_nil acc).symm, .nil⟩)
  | cons x xs ih =>
    intro fuel acc hfuel
    obtain ⟨fuel, rfl⟩ : ∃ k, fuel = k + 1 := Nat.exists_eq_add_one.2 (Nat.zero_lt_of_lt hfuel)
    have hx := h x List.mem_cons_self
    have hlength : (lexemes x).length ≤ fuel ∧
        (xs.flatMap (fun x => itemLexemes (lexemes x))).length < fuel := by
      rw [List.flatMap_cons, itemLexemes, List.length_append, List.length_append,
        List.length_singleton] at hfuel
      omega
    rw [List.flatMap_cons, itemLexemes, List.append_assoc, List.append_assoc, List.singleton_append]
    unfold blockItems
    -- behind the mark stands the item, whose token is not the mark of another one
    refine (reads_peek rfl).bind (fun t ht => ?_)
    simp only [ht]
    refine hx.next.bind (fun t ht => ?_)
    split
    next hentry => exact absurd hentry (ne_of_opensNode ht rfl)
    next hend => exact absurd hend (ne_of_opensNode ht rfl)
    next =>
      refine (hx.reads fuel false _ hlength.1).bind (fun n hn => ?_)
      refine (ih (fun y hy => h y (List.mem_cons_of_mem x hy)) fuel _ hlength.2).imp ?_
      rintro _ ⟨new, rfl, hnew⟩
      exact ⟨n :: new, by simp, .cons hn hnew⟩

/-- The items of a list in a block. -/
theorem standsFor_block (h : ∀ x ∈ xs, StandsFor true (lexemes x) (P x)) :
    StandsFor true
      (.blockSequenceStart :: xs.flatMap (fun x => itemLexemes (lexemes x)) ++ [.blockEnd])
      (IsSequence (List.Forall₂ P xs)) where
  opens := ⟨_, _, rfl, rfl⟩
  reads := by
    intro fuel indentless rest hfuel
    obtain ⟨fuel, rfl⟩ : ∃ k, fuel = k + 1 := Nat.exists_eq_add_one.2 (Nat.zero_lt_of_lt hfuel)
    rw [List.append_assoc]
    refine reads_blockSequence (fun start => (reads_blockItems h fuel [] ?_).imp ?_)
    · rw [List.length_append, List.length_cons, List.length_singleton] at hfuel
      omega
    · rintro _ ⟨ns, rfl, hns⟩
      exact hns

variable {name : γ → String}

/-- An entry with a plain key, whose value has `P`. -/
def IsEntry (name : String) (P : Node → Prop) (e : Node × Node) : Prop :=
  (∃ m, e.1 = .scalar m none name .plain) ∧ P e.2

/-- The value behind a colon is read. -/
theorem reads_blockValue {P : Node → Prop} (h : StandsFor true ls P) (hfuel : ls.length < fuel) :
    Reads (blockValue fuel) (.value :: (ls ++ rest)) rest P := by
  obtain ⟨fuel, rfl⟩ : ∃ k, fuel = k + 1 := Nat.exists_eq_add_one.2 (Nat.zero_lt_of_lt hfuel)
  unfold blockValue
  refine (reads_peek rfl).bind (fun t ht => ?_)
  simp only [ht]
  refine h.next.bind (fun t ht => ?_)
  split
  next hkey => exact absurd hkey (ne_of_opensNode ht rfl)
  next hvalue => exact absurd hvalue (ne_of_opensNode ht rfl)
  next hend => exact absurd hend (ne_of_opensNode ht rfl)
  next => exact h.reads fuel true rest (by omega)

/-- The entries of a mapping in a block are read in turn, each key before its value. -/
theorem reads_blockEntries (h : ∀ x ∈ xs, StandsFor true (lexemes x) (P x)) :
    ∀ fuel acc, (xs.flatMap (fun x => fieldLexemes (name x) (lexemes x))).length < fuel →
      Reads (blockEntries fuel start acc)
        (xs.flatMap (fun x => fieldLexemes (name x) (lexemes x)) ++ .blockEnd :: rest) rest
        (fun es => ∃ new, es = acc ++ new ∧
          List.Forall₂ (fun x => IsEntry (name x) (P x)) xs new) := by
  induction xs with
  | nil =>
    intro fuel acc hfuel
    obtain ⟨fuel, rfl⟩ : ∃ k, fuel = k + 1 := Nat.exists_eq_add_one.2 hfuel
    unfold blockEntries
    refine (reads_peek rfl).bind (fun t ht => ?_)
    simp only [ht]
    exact reads_skip.bind (fun _ _ => .pure ⟨[], (List.append_nil acc).symm, .nil⟩)
  | cons x xs ih =>
    intro fuel acc hfuel
    have hx := h x List.mem_cons_self
    rw [List.flatMap_cons, fieldLexemes, List.length_append, List.length_append, List.length_cons,
      List.length_cons, List.length_singleton] at hfuel
    obtain ⟨fuel, rfl⟩ : ∃ k, fuel = k + 2 := ⟨fuel - 2, by omega⟩
    rw [List.flatMap_cons, fieldLexemes, List.append_assoc, List.append_assoc]
    unfold blockEntries
    refine (reads_peek rfl).bind (fun t ht => ?_)
    simp only [ht]
    refine (reads_next rfl).bind (fun t ht => ?_)
    simp only [ht]
    -- the key is one token, so that the fuel that is left is enough for it and for its value
    refine (reads_scalar (name x) .plain).bind (fun key hkey => ?_)
    refine (reads_blockValue hx (by omega)).bind (fun n hn => ?_)
    refine (ih (fun y hy => h y (List.mem_cons_of_mem x hy)) (fuel + 1) _ (by omega)).imp ?_
    rintro _ ⟨new, rfl, hnew⟩
    exact ⟨(key, n) :: new, by simp, .cons ⟨hkey, hn⟩ hnew⟩

/-- The entries of a mapping in a block. -/
theorem standsFor_mapping (h : ∀ x ∈ xs, StandsFor true (lexemes x) (P x)) :
    StandsFor true
      (.blockMappingStart :: xs.flatMap (fun x => fieldLexemes (name x) (lexemes x)) ++ [.blockEnd])
      (IsMapping (List.Forall₂ (fun x => IsEntry (name x) (P x)) xs)) where
  opens := ⟨_, _, rfl, rfl⟩
  reads := by
    intro fuel indentless rest hfuel
    obtain ⟨fuel, rfl⟩ : ∃ k, fuel = k + 1 := Nat.exists_eq_add_one.2 (Nat.zero_lt_of_lt hfuel)
    rw [List.append_assoc]
    refine reads_blockMapping (fun start => (reads_blockEntries h fuel [] ?_).imp ?_)
    · rw [List.length_append, List.length_cons, List.length_singleton] at hfuel
      omega
    · rintro _ ⟨es, rfl, hes⟩
      exact hes

end Items

/-! ## Documents -/

/-- A document whose tokens stand for a node has this node as its tree. -/
theorem reads_document {P : Node → Prop} (h : StandsFor true ls P) (hfuel : ls.length ≤ fuel) :
    Reads (document fuel) (.streamStart :: (ls ++ [.streamEnd])) [.streamEnd]
      (fun root => ∃ n, root = some n ∧ P n) := by
  unfold document
  refine (reads_peek rfl).bind (fun t ht => h.next.bind (fun t ht => ?_))
  split
  next hend => exact absurd hend (ne_of_opensNode ht rfl)
  next hversion => exact absurd hversion (ne_of_opensNode ht rfl)
  next htag => exact absurd htag (ne_of_opensNode ht rfl)
  next hstart => exact absurd hstart (ne_of_opensNode ht rfl)
  next =>
    have hmodify : Reads (modify fun s => { s with handles := defaultHandles })
        (ls ++ [.streamEnd]) (ls ++ [.streamEnd]) (fun _ => True) :=
      fun s hs => ⟨(), _, rfl, hs, trivial⟩
    refine hmodify.bind (fun _ _ => (h.reads fuel false _ hfuel).bind (fun n hn => ?_))
    exact (reads_peek rfl).bind (fun _ _ => .pure ⟨n, rfl, hn⟩)

end Read

/-- The tree of a text whose tokens stand for a node. -/
theorem Document.exists_read_eq {text : String} {ls : List Lexeme} {P : Node → Prop}
    (htokens : (tokens text).map Token.lexeme = .streamStart :: (ls ++ [.streamEnd]))
    (h : Read.StandsFor true ls P) :
    ∃ d : Document, Document.read text = .ok (some d) ∧ P d.root := by
  have hlength := congrArg List.length htokens
  rw [List.length_map, List.length_cons, List.length_append] at hlength
  have hfuel : ls.length ≤ 4 * (tokens text).length + 8 := by omega
  obtain ⟨_, s, hread, -, n, rfl, hn⟩ :=
    Read.reads_document h hfuel ⟨tokens text, [], [], []⟩ htokens
  refine ⟨⟨n, s.named⟩, ?_, hn⟩
  simp only [Document.read, StateT.run, hread]
  rfl

end StackFlow.Yaml
