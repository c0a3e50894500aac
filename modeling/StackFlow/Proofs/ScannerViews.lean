import Mathlib.Logic.Relation
import StackFlow.Proofs.WrittenScalars
import StackFlow.Yaml.Token.Scan

/-!
# What a scanner shows

What becomes of a text depends on few things that a scanner knows: the text that is left and its
column, how deep in flow collections it is, whether a key may begin, the columns of the open
blocks, and the kinds of the tokens so far. `View` has these, and `View.Leads` says that a scanner
at a token with one view comes by its own steps to a token with another. A view at a token has its
deeper blocks closed (`View.close`), so that the ends of blocks are there before the token that
makes them known.

The places of tokens are not part of a view. The scanner's `Shows` only asks that no possible key is
a required one, so that it can be dropped at any token.
-/

namespace StackFlow.Yaml

/-- What of a scanner decides its tokens. -/
structure View where
  /-- The text that is left. -/
  text : List Char
  /-- The column that it begins in. -/
  column : Nat
  /-- The number of flow collections around it. -/
  depth : Nat
  /-- Whether a key may begin. -/
  allowed : Bool
  /-- The columns of the open blocks, innermost first. -/
  blocks : List Nat
  /-- The kinds of the tokens so far. -/
  lexemes : List Lexeme

/-- The ends of the blocks that are deeper than a column. -/
def blockEnds (column : Nat) (blocks : List Nat) : List Lexeme :=
  (blocks.takeWhile (column < ·)).map fun _ => .blockEnd

/-- The blocks that are not deeper than a column. -/
def blocksAt (column : Nat) (blocks : List Nat) : List Nat := blocks.dropWhile (column < ·)

/-- The view with deeper blocks closed. -/
def View.close (v : View) : View :=
  if v.depth = 0 then
    { v with blocks := blocksAt v.column v.blocks
             lexemes := v.lexemes ++ blockEnds v.column v.blocks }
  else v

/-- Spaces before a token are skipped. -/
theorem Cursor.skipWhile_spaces {p : Char → Bool} {tok : List Char} (hp : p ' ' = true)
    (htok : ∀ c ∈ tok.head?, p c = false) (n : Nat) (m : Mark) :
    Cursor.skipWhile ⟨spaces n ++ tok, m⟩ p = ⟨tok, m.forward n⟩ := by
  have hspaces : ∀ c ∈ spaces n, p c = true := by
    intro c hc
    rw [List.eq_of_mem_replicate hc]
    exact hp
  have hnone : tok.takeWhile p = [] := by
    cases tok with
    | nil => rfl
    | cons c rest => simp [htok c rfl]
  have hlength : ((spaces n ++ tok).takeWhile p).length = n := by
    rw [List.takeWhile_append_of_pos hspaces, hnone]
    simp [spaces]
  rw [Cursor.skipWhile, Cursor.forward, hlength]
  simp [spaces]

variable {s s' : Scanner} {v : View} {tok rest : List Char} {c : Char} {column depth : Nat}
  {allowed : Bool} {blocks : List Nat} {ls : List Lexeme}

namespace Scanner

/-- The scanner has the view, and no token has to turn out to be a key. -/
structure Shows (s : Scanner) (v : View) : Prop where
  rest_eq : s.cursor.rest = v.text
  column_eq : s.mark.column = v.column
  length_keys : s.keys.length = v.depth + 1
  optional : ∀ k, some k ∈ s.keys → k.required = false
  keyAllowed_eq : s.keyAllowed = v.allowed
  blocks_eq : s.blocks = v.blocks
  lexemes_eq : s.tokens.map Token.lexeme = v.lexemes

namespace Shows

/-- A view tells whether the scanner is inside a list on one line. -/
theorem inFlow_eq (h : s.Shows v) : s.inFlow = decide (v.depth ≠ 0) := by
  rw [inFlow, h.length_keys]
  exact decide_eq_decide.2 (by omega)

/-- A view tells the column of the innermost block. -/
theorem indent_eq (h : s.Shows v) : s.indent = (v.blocks.head?.map Int.ofNat).getD (-1) := by
  rw [indent, h.blocks_eq]

/-- A view tells whether the scanner is at the end. -/
theorem atEnd_eq (h : s.Shows v) : s.atEnd = (v.lexemes.getLast? == some .streamEnd) := by
  rw [atEnd, ← h.lexemes_eq, List.getLast?_map]

/-- A view tells the text that is still to be scanned. -/
theorem cursor_eq (h : s.Shows v) : s.cursor = ⟨v.text, s.mark⟩ := by
  rw [← h.rest_eq]
  rfl

end Shows

/-! ## White space -/

/-- The scanner at its next token: white space is skipped and deeper blocks are closed. -/
def ready (s : Scanner) : Scanner :=
  let s := skipSpace (s.cursor.rest.length + 1) s
  s.closeBlocks s.mark.column

/-- The first character of a token is neither white space nor the sign of a comment. -/
theorem head?_of_beginsToken (htok : beginsToken tok = true) (c : Char) (hc : c ∈ tok.head?) :
    isBlank c = false ∧ isBreak c = false ∧ c ≠ '#' := by
  cases tok with
  | nil => nomatch hc
  | cons d rest =>
    obtain rfl : d = c := by simpa using hc
    simpa [beginsToken, and_assoc] using htok

/-- The spaces before a token are skipped. -/
theorem skipSpace_spaces (fuel n : Nat) {m : Mark} (htok : beginsToken tok = true)
    (hs : s.cursor = ⟨spaces n ++ tok, m⟩) :
    skipSpace (fuel + 1) s = { s with cursor := ⟨tok, m.forward n⟩ } := by
  have hhead := head?_of_beginsToken htok
  have hskip :
      s.cursor.skipWhile (fun d => d == ' ' || ((s.inFlow || !s.keyAllowed) && d == '\t')) =
        ⟨tok, m.forward n⟩ := by
    rw [hs]
    refine Cursor.skipWhile_spaces (by simp) (fun c hc => ?_) n m
    obtain ⟨hblank, -, -⟩ := hhead c hc
    rw [isBlank, Bool.or_eq_false_iff] at hblank
    rw [hblank.1, hblank.2, Bool.and_false, Bool.or_false]
  rw [skipSpace]
  dsimp only
  rw [hskip]
  cases tok with
  | nil => rfl
  | cons c rest =>
    obtain ⟨-, hbreak, hhash⟩ := hhead c rfl
    dsimp only
    -- neither a comment nor a line break stands there, so that nothing more is skipped
    split
    next heq =>
      split at heq
      next hc => exact absurd (List.cons.inj hc).1 hhash
      next => exact absurd heq (List.cons_ne_nil c rest)
    next d rest' heq =>
      split at heq
      next hc => exact absurd (List.cons.inj hc).1 hhash
      next =>
        obtain ⟨rfl, rfl⟩ := List.cons.inj heq
        rw [if_neg (by simp [hbreak])]

/-- A line break leads to the next line, where a key may begin outside of flow collections. -/
theorem skipSpace_line (fuel n : Nat) {m : Mark} (htok : beginsToken tok = true)
    (hs : s.cursor = ⟨'\n' :: (spaces n ++ tok), m⟩) :
    skipSpace (fuel + 2) s =
      { s with cursor := ⟨tok, (m.nextLine 1).forward n⟩
               keyAllowed := s.keyAllowed || !s.inFlow } := by
  have hskip :
      s.cursor.skipWhile (fun d => d == ' ' || ((s.inFlow || !s.keyAllowed) && d == '\t')) =
        s.cursor := by
    rw [hs]
    simp [Cursor.skipWhile, Cursor.forward, Mark.forward]
  rw [skipSpace]
  dsimp only
  rw [hskip, hs]
  exact skipSpace_spaces fuel n htok rfl

/-- Closing blocks is seen as such. -/
theorem Shows.closeBlocks (h : s.Shows v) : (s.closeBlocks s.mark.column).Shows v.close := by
  have hflow := h.inFlow_eq
  unfold Scanner.closeBlocks View.close
  rw [h.column_eq]
  by_cases hdepth : v.depth = 0
  · rw [if_neg (by simp [hflow, hdepth]), if_pos hdepth]
    refine ⟨h.rest_eq, h.column_eq, h.length_keys, h.optional, h.keyAllowed_eq, ?_, ?_⟩
    · simp only [h.blocks_eq, Int.ofNat_lt, blocksAt]
    · simp only [List.map_append, h.lexemes_eq, List.map_map, h.blocks_eq, Int.ofNat_lt, blockEnds]
      rfl
  · rw [if_pos (by simp [hflow, hdepth]), if_neg hdepth]
    exact h

/-- Spaces lead to the token behind them. -/
theorem Shows.ready_spaces {n : Nat} (htok : beginsToken tok = true)
    (h : s.Shows ⟨spaces n ++ tok, column, depth, allowed, blocks, ls⟩) :
    s.ready.Shows (View.close ⟨tok, column + n, depth, allowed, blocks, ls⟩) := by
  rw [ready, skipSpace_spaces _ n htok h.cursor_eq]
  refine Shows.closeBlocks ⟨rfl, ?_, h.length_keys, h.optional, h.keyAllowed_eq, h.blocks_eq,
    h.lexemes_eq⟩
  exact congrArg (· + n) h.column_eq

/-- The end of a line leads to the token of the next line. -/
theorem Shows.ready_line {n : Nat} (htok : beginsToken tok = true)
    (h : s.Shows ⟨'\n' :: (spaces n ++ tok), column, 0, allowed, blocks, ls⟩) :
    s.ready.Shows (View.close ⟨tok, n, 0, true, blocks, ls⟩) := by
  have hfuel : s.cursor.rest.length + 1 = (spaces n ++ tok).length + 2 := by
    rw [h.rest_eq]
    rfl
  rw [ready, hfuel, skipSpace_line _ n htok h.cursor_eq]
  refine Shows.closeBlocks ⟨rfl, Nat.zero_add n, h.length_keys, h.optional, ?_, h.blocks_eq,
    h.lexemes_eq⟩
  simp [h.inFlow_eq]

/-! ## Taking tokens -/

/-- Takes the token that the text begins with. -/
def takeToken (s : Scanner) : Except ReadError Scanner :=
  match s.cursor.rest with
  | [] => s.fetchEnd
  | c :: rest =>
    if s.mark.column == 0 && c == '%' then s.fetchDirective
    else if s.mark.column == 0 && atMark '-' (c :: rest) then s.fetchDocumentMark .documentStart
    else if s.mark.column == 0 && atMark '.' (c :: rest) then s.fetchDocumentMark .documentEnd
    else do
      let s ← s.fetchToken c rest
      return if s.takesLineComment then s.skipLineComment else s

/-- The scanner gets ready and takes a token. -/
theorem fetch_eq (s : Scanner) : s.fetch = s.ready.takeToken := rfl

/-- No mark between documents begins with another character than its own. -/
theorem atDocumentMark_of_first (h : c ≠ '-' ∧ c ≠ '.') (rest : List Char) :
    atDocumentMark (c :: rest) = false := by
  unfold atDocumentMark atMark
  split <;> simp_all

/-- No mark between documents goes on with another character than its own. -/
theorem atDocumentMark_of_second {d : Char} (h : d ≠ '-' ∧ d ≠ '.') (c : Char) (rest : List Char) :
    atDocumentMark (c :: d :: rest) = false := by
  unfold atDocumentMark atMark
  split <;> simp_all

/-- Whether a comment follows blanks. -/
def atComment (text : List Char) : Bool := (text.dropWhile isBlank).head? == some '#'

/-- A token is no comment. -/
theorem atComment_of_beginsToken (htok : beginsToken tok = true) : atComment tok = false := by
  have hhead := head?_of_beginsToken htok
  cases tok with
  | nil => rfl
  | cons c rest =>
    obtain ⟨hblank, -, hhash⟩ := hhead c rfl
    simp [atComment, hblank, hhash]

/-- A token behind a space is no comment. -/
theorem atComment_space (htok : beginsToken tok = true) : atComment (' ' :: tok) = false := by
  show atComment tok = false
  exact atComment_of_beginsToken htok

/-- Where there is no comment none is skipped. -/
theorem skipLineComment_eq (h : atComment s.cursor.rest = false) : s.skipLineComment = s := by
  have hskip : (s.cursor.skipWhile isBlank).rest = s.cursor.rest.dropWhile isBlank := by
    have happend := List.takeWhile_append_dropWhile (p := isBlank) (l := s.cursor.rest)
    calc (s.cursor.skipWhile isBlank).rest
        = (s.cursor.rest.takeWhile isBlank ++ s.cursor.rest.dropWhile isBlank).drop
            (s.cursor.rest.takeWhile isBlank).length := by rw [happend]; rfl
      _ = s.cursor.rest.dropWhile isBlank := List.drop_left
  rw [skipLineComment, hskip]
  unfold atComment at h
  split
  next heq => exact absurd h (by simp [heq])
  next => rfl

/-- A scanner that is not at its end takes a token and goes on behind it. -/
def Takes (s s' : Scanner) : Prop :=
  s.atEnd = false ∧ s.fetch = .ok s' ∧ s'.cursor.rest.length < s.cursor.rest.length

/-- The tokens that a scanner takes are part of its run, for which each character may take fuel. -/
theorem exists_run_eq (h : Relation.ReflTransGen Takes s s') (fuel : Nat)
    (hfuel : s.cursor.rest.length < fuel) :
    ∃ fuel', s'.cursor.rest.length < fuel' ∧ run fuel s = run fuel' s' := by
  induction h using Relation.ReflTransGen.head_induction_on generalizing fuel with
  | refl => exact ⟨fuel, hfuel, rfl⟩
  | @head s t htakes _ ih =>
    obtain ⟨hend, hfetch, hlength⟩ := htakes
    -- a token takes one piece of fuel and at least one character
    obtain ⟨fuel, rfl⟩ : ∃ k, fuel = k + 1 := ⟨fuel - 1, by omega⟩
    obtain ⟨fuel', hfuel', hrun⟩ := ih fuel (by omega)
    refine ⟨fuel', hfuel', ?_⟩
    rw [run, if_neg (by simp [hend]), hfetch]
    exact hrun

/-- The scanner is before a token at which it has the view. -/
structure Faces (s : Scanner) (v : View) : Prop where
  unended : s.atEnd = false
  ready : s.ready.Shows v
  length_le : v.text.length ≤ s.cursor.rest.length

/-- A scanner before spaces faces the token behind them. -/
theorem Shows.faces_spaces {n : Nat} (htok : beginsToken tok = true)
    (hlast : ls.getLast? ≠ some .streamEnd)
    (h : s.Shows ⟨spaces n ++ tok, column, depth, allowed, blocks, ls⟩) :
    s.Faces (View.close ⟨tok, column + n, depth, allowed, blocks, ls⟩) := by
  refine ⟨?_, h.ready_spaces htok, ?_⟩
  · rw [h.atEnd_eq]
    exact beq_eq_false_iff_ne.2 hlast
  · have htext : (View.close ⟨tok, column + n, depth, allowed, blocks, ls⟩).text = tok := by
      unfold View.close
      split <;> rfl
    rw [htext, h.rest_eq]
    simp

/-- A scanner at the end of a line faces the token on the next one, which closes the deeper blocks.
-/
theorem Shows.faces_line {n : Nat} (htok : beginsToken tok = true)
    (hlast : ls.getLast? ≠ some .streamEnd)
    (h : s.Shows ⟨'\n' :: (spaces n ++ tok), column, 0, allowed, blocks, ls⟩) :
    s.Faces (View.close ⟨tok, n, 0, true, blocks, ls⟩) := by
  refine ⟨?_, h.ready_line htok, ?_⟩
  · rw [h.atEnd_eq]
    exact beq_eq_false_iff_ne.2 hlast
  · have htext : (View.close ⟨tok, n, 0, true, blocks, ls⟩).text = tok := rfl
    rw [htext, h.rest_eq, List.length_cons, List.length_append]
    omega

/-- A token that is no mark of a document is taken by its first character. -/
theorem takes_of_fetchToken {after : List Char} (hend : s.atEnd = false)
    (hready : s.ready.cursor.rest = c :: rest)
    (hmark : s.ready.mark.column = 0 → c ≠ '%' ∧ atDocumentMark (c :: rest) = false)
    (hfetch : s.ready.fetchToken c rest = .ok s') (hafter : s'.cursor.rest = after)
    (hcomment : atComment after = false) (hlength : after.length < s.cursor.rest.length) :
    s.Takes s' := by
  -- directives and marks of documents are only looked for in the first column
  have hmarks : (s.ready.mark.column == 0 && c == '%') = false ∧
      (s.ready.mark.column == 0 && atMark '-' (c :: rest)) = false ∧
      (s.ready.mark.column == 0 && atMark '.' (c :: rest)) = false := by
    by_cases hzero : s.ready.mark.column = 0
    · obtain ⟨hpercent, hdocument⟩ := hmark hzero
      rw [atDocumentMark, Bool.or_eq_false_iff] at hdocument
      simp [hpercent, hdocument]
    · simp [hzero]
  subst hafter
  refine ⟨hend, ?_, hlength⟩
  rw [fetch_eq, takeToken, hready]
  dsimp only
  rw [hmarks.1, hmarks.2.1, hmarks.2.2, hfetch]
  simp only [bind, Except.bind, pure, Except.pure, skipLineComment_eq hcomment, ite_self]
  rfl

/-- A scanner that faces a token takes it. -/
theorem Faces.takes {after : List Char}
    (h : s.Faces ⟨c :: rest, column, depth, allowed, blocks, ls⟩)
    (hmark : column = 0 → c ≠ '%' ∧ atDocumentMark (c :: rest) = false)
    (hfetch : s.ready.fetchToken c rest = .ok s') (hafter : s'.cursor.rest = after)
    (hcomment : atComment after = false) (hlength : after.length ≤ rest.length) : s.Takes s' := by
  refine takes_of_fetchToken h.unended h.ready.rest_eq ?_ hfetch hafter hcomment
    (Nat.lt_of_le_of_lt hlength h.length_le)
  rw [h.ready.column_eq]
  exact hmark

end Scanner

/-- A scanner at a token with the one view comes to a token with the other. -/
def View.Leads (v w : View) : Prop :=
  ∀ s : Scanner, s.Faces v → ∃ s', Relation.ReflTransGen Scanner.Takes s s' ∧ s'.Faces w

namespace View

variable {u w : View}

/-- A view leads to itself. -/
theorem Leads.refl (v : View) : v.Leads v := fun s h => ⟨s, .refl, h⟩

/-- Where one view leads to the next, the first leads to the last. -/
theorem Leads.trans (huv : u.Leads v) (hvw : v.Leads w) : u.Leads w := by
  intro s hs
  obtain ⟨t, hst, ht⟩ := huv s hs
  obtain ⟨t', htt', ht'⟩ := hvw t ht
  exact ⟨t', hst.trans htt', ht'⟩

end View

namespace Scanner

/-! ## Possible keys -/

/-- A possible key that is not required does not change what a scanner shows. -/
theorem Shows.setKey (h : s.Shows v) {k : Option PossibleKey}
    (hk : ∀ p, k = some p → p.required = false) : (s.setKey k).Shows v := by
  refine ⟨h.rest_eq, h.column_eq, ?_, ?_, h.keyAllowed_eq, h.blocks_eq, h.lexemes_eq⟩
  · have hlength := h.length_keys
    simp only [Scanner.setKey, List.length_cons, List.length_drop]
    omega
  · intro p hp
    rcases List.mem_cons.1 hp with hp | hp
    · exact hk p hp.symm
    · exact h.optional p (List.mem_of_mem_drop hp)

/-- A possible key that is not required can be dropped. -/
theorem Shows.dropKey_eq (h : s.Shows v) :
    s.dropKey = .ok s ∨ s.dropKey = .ok (s.setKey none) := by
  unfold Scanner.dropKey
  split
  next k hk =>
    have hmem : some k ∈ s.keys := by
      rw [Option.join_eq_some_iff] at hk
      exact List.mem_of_head? hk
    rw [h.optional k hmem]
    exact .inr rfl
  next => exact .inl rfl

/-- Dropping a possible key does not change what a scanner shows. -/
theorem Shows.dropKey (h : s.Shows v) : ∃ t, s.dropKey = .ok t ∧ t.Shows v := by
  rcases h.dropKey_eq with hdrop | hdrop
  · exact ⟨s, hdrop, h⟩
  · exact ⟨s.setKey none, hdrop, h.setKey (by nofun)⟩

/-- Where a key may begin the next token becomes the possible key. -/
theorem Shows.saveKey_eq (h : s.Shows v) (hallowed : v.allowed = true) :
    s.saveKey = .ok (s.setKey (some
      ⟨s.tokens.length, !s.inFlow && s.indent == s.mark.column, s.mark⟩)) := by
  rw [Scanner.saveKey, h.keyAllowed_eq, if_pos hallowed]
  rcases h.dropKey_eq with hdrop | hdrop
  · rw [hdrop]
    rfl
  · rw [hdrop]
    rfl

/-- A key is required only at the column of a block. -/
theorem Shows.saveKey (h : s.Shows v)
    (hfree : v.allowed = true → v.depth = 0 → v.blocks.head? ≠ some v.column) :
    ∃ t, s.saveKey = .ok t ∧ t.Shows v := by
  cases hallowed : v.allowed with
  | false => exact ⟨s, by rw [Scanner.saveKey, h.keyAllowed_eq, hallowed]; rfl, h⟩
  | true =>
    refine ⟨_, h.saveKey_eq hallowed, h.setKey ?_⟩
    rintro p hp
    obtain rfl := Option.some.inj hp
    dsimp only
    rw [h.inFlow_eq, h.indent_eq, h.column_eq]
    by_cases hdepth : v.depth = 0
    · have hne := hfree hallowed hdepth
      cases hblocks : v.blocks.head? with
      | none => simp [hdepth]
      | some b =>
        rw [hblocks] at hne
        have hb : b ≠ v.column := fun hb => hne (by rw [hb])
        simp [hdepth]; omega
    · simp [hdepth]

/-! ## Small changes -/

/-- A token that is added is the last one shown. -/
theorem Shows.push (h : s.Shows v) (start : Mark) (lexeme : Lexeme) :
    (s.push start lexeme).Shows { v with lexemes := v.lexemes ++ [lexeme] } := by
  refine ⟨h.rest_eq, h.column_eq, h.length_keys, h.optional, h.keyAllowed_eq, h.blocks_eq, ?_⟩
  simp [Scanner.push, h.lexemes_eq]

/-- Allowing a key is shown. -/
theorem Shows.allowKey (h : s.Shows v) (a : Bool) : (s.allowKey a).Shows { v with allowed := a } :=
  ⟨h.rest_eq, h.column_eq, h.length_keys, h.optional, rfl, h.blocks_eq, h.lexemes_eq⟩

/-- Moving on is shown. -/
theorem Shows.moveTo (h : s.Shows v) (cursor : Cursor) :
    { s with cursor := cursor }.Shows
      { v with text := cursor.rest, column := cursor.mark.column } :=
  ⟨rfl, rfl, h.length_keys, h.optional, h.keyAllowed_eq, h.blocks_eq, h.lexemes_eq⟩

/-- A mark that is taken is the last token shown. -/
theorem Shows.take (h : s.Shows ⟨c :: rest, column, depth, allowed, blocks, ls⟩) (lexeme : Lexeme) :
    (s.take 1 lexeme).Shows ⟨rest, column + 1, depth, allowed, blocks, ls ++ [lexeme]⟩ := by
  have hmove := (h.push s.mark lexeme).moveTo (s.cursor.forward 1)
  have hrest : (s.cursor.forward 1).rest = rest := by
    rw [Cursor.forward, h.rest_eq]
    rfl
  have hcolumn : (s.cursor.forward 1).mark.column = column + 1 := congrArg (· + 1) h.column_eq
  rw [hrest, hcolumn] at hmove
  exact hmove

end Scanner

end StackFlow.Yaml
