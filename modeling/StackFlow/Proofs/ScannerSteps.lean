import StackFlow.Proofs.ScannerViews

/-!
# Steps of the scanner

Each kind of token has one lemma about where it leads: the marks of sequences on one line, words and
texts, the marks of items, and keys. `lexemes_tokens` gives the tokens of a text from a way through
it to the end.

Places do not matter here, with one exception: the token in front of a colon is a key only if it is
on the same line and begins not far back (`Faces.key`).
-/

namespace StackFlow.Yaml

variable {s s' : Scanner} {v : View} {tok rest : List Char} {c : Char} {column depth : Nat}
  {allowed : Bool} {blocks : List Nat} {ls : List Lexeme}

namespace Scanner

/-! ## Flow collections -/

/-- The start of a sequence. -/
theorem leads_flowStart (htok : beginsToken tok = true)
    (hfree : allowed = true → depth = 0 → blocks.head? ≠ some column) (hdepth : depth < 10000) :
    View.Leads ⟨'[' :: tok, column, depth, allowed, blocks, ls⟩
      ⟨tok, column + 1, depth + 1, true, blocks, ls ++ [.flowSequenceStart]⟩ := by
  intro s hs
  obtain ⟨t, hsave, ht⟩ := hs.ready.saveKey hfree
  have hkeys : Shows { t with keys := none :: t.keys }
      ⟨'[' :: tok, column, depth + 1, allowed, blocks, ls⟩ := by
    refine ⟨ht.rest_eq, ht.column_eq, congrArg (· + 1) ht.length_keys, ?_, ht.keyAllowed_eq,
      ht.blocks_eq, ht.lexemes_eq⟩
    intro k hk
    exact ht.optional k (by simpa using hk)
  have hlength : t.keys.length = depth + 1 := ht.length_keys
  have hfetch : s.ready.fetchToken '[' tok =
      .ok (({ t with keys := none :: t.keys }.take 1 .flowSequenceStart).allowKey true) := by
    change s.ready.fetchFlowStart .flowSequenceStart = _
    rw [fetchFlowStart, hsave]
    simp only [bind, Except.bind]
    rw [if_neg (by omega)]
    rfl
  have hshows := (hkeys.take .flowSequenceStart).allowKey true
  refine ⟨_, .single (hs.takes (fun _ => ⟨by decide, atDocumentMark_of_first (by decide) _⟩) hfetch
    hshows.rest_eq (atComment_of_beginsToken htok) (Nat.le_refl _)), ?_⟩
  exact Shows.faces_spaces (n := 0) htok (by simp) hshows

/-- The end of a sequence. -/
theorem Faces.flowEnd (hs : s.Faces ⟨']' :: rest, column, depth + 1, allowed, blocks, ls⟩)
    (hrest : atComment rest = false) :
    ∃ s', s.Takes s' ∧
      s'.Shows ⟨rest, column + 1, depth, false, blocks, ls ++ [.flowSequenceEnd]⟩ := by
  obtain ⟨t, hdrop, ht⟩ := hs.ready.dropKey
  have hflow : t.inFlow = true := by simp [ht.inFlow_eq]
  have hkeys : Shows { t with keys := t.keys.drop 1 }
      ⟨']' :: rest, column, depth, allowed, blocks, ls⟩ := by
    refine ⟨ht.rest_eq, ht.column_eq, ?_, ?_, ht.keyAllowed_eq, ht.blocks_eq, ht.lexemes_eq⟩
    · rw [List.length_drop, ht.length_keys]
      rfl
    · exact fun k hk => ht.optional k (List.mem_of_mem_drop hk)
  have hfetch : s.ready.fetchToken ']' rest =
      .ok (({ t with keys := t.keys.drop 1 }.take 1 .flowSequenceEnd).allowKey false) := by
    change s.ready.fetchFlowEnd .flowSequenceEnd = _
    rw [fetchFlowEnd, hdrop]
    simp only [bind, Except.bind, pure, Except.pure, hflow, if_true]
  have hshows := (hkeys.take .flowSequenceEnd).allowKey false
  exact ⟨_, hs.takes (fun _ => ⟨by decide, atDocumentMark_of_first (by decide) _⟩) hfetch
    hshows.rest_eq hrest (Nat.le_refl _), hshows⟩

/-- The comma between two items of a sequence. -/
theorem leads_flowEntry (htok : beginsToken tok = true) :
    View.Leads ⟨',' :: ' ' :: tok, column, depth + 1, allowed, blocks, ls⟩
      ⟨tok, column + 2, depth + 1, true, blocks, ls ++ [.flowEntry]⟩ := by
  intro s hs
  obtain ⟨t, hdrop, ht⟩ := hs.ready.dropKey
  have hfetch : s.ready.fetchToken ',' (' ' :: tok) =
      .ok ((t.take 1 .flowEntry).allowKey true) := by
    change s.ready.fetchFlowEntry = _
    rw [fetchFlowEntry, hdrop]
    rfl
  have hshows := (ht.take .flowEntry).allowKey true
  refine ⟨_, .single (hs.takes (fun _ => ⟨by decide, atDocumentMark_of_first (by decide) _⟩) hfetch
    hshows.rest_eq (atComment_space htok) (Nat.le_refl _)), ?_⟩
  exact Shows.faces_spaces (n := 1) htok (by simp) hshows

/-! ## Plain scalars -/

/-- Whether a character and what follows it begin a plain scalar. -/
def startsPlain (c : Char) (rest : List Char) : Bool :=
  !isBlank c && !isBreak c &&
    if c == '-' || c == '?' || c == ':' then !atSpace rest else !isIndicator c

/-- A character that starts a plain scalar is taken for one. -/
theorem fetchToken_of_startsPlain (h : startsPlain c rest = true)
    (hflow : s.inFlow = true → c ≠ '?' ∧ c ≠ ':') : s.fetchToken c rest = s.fetchPlain := by
  simp only [startsPlain, Bool.and_eq_true, Bool.not_eq_true'] at h
  obtain ⟨⟨hblank, hbreak⟩, hmark⟩ := h
  split at hmark
  next hc =>
    -- a mark before white space, which is none elsewhere
    rw [Bool.not_eq_true'] at hmark
    have hhead : (rest.head?.map isBlank).getD false = false := by
      cases rest with
      | nil => rfl
      | cons d rest =>
        rw [atSpace, Bool.or_eq_false_iff] at hmark
        simp [hmark.1]
    simp only [Bool.or_eq_true, beq_iff_eq] at hc
    rcases hc with (rfl | rfl) | rfl
    · simp [fetchToken, beginsPlain, hmark, hhead]
    · have hblock : s.inFlow = false := by simpa using fun hf => (hflow hf).1
      simp [fetchToken, beginsPlain, hmark, hblock]
    · have hblock : s.inFlow = false := by simpa using fun hf => (hflow hf).2
      simp [fetchToken, beginsPlain, hmark, hblock]
  next =>
    rw [Bool.not_eq_true'] at hmark
    have hplain : s.beginsPlain c rest = true := by simp [beginsPlain, hblank, hbreak, hmark]
    simp only [isIndicator, List.contains_cons, List.contains_nil, Bool.or_eq_false_iff] at hmark
    simp [fetchToken, hmark, hplain]

/-- A text that fits a plain scalar begins one. -/
theorem startsPlain_of_fitsPlain {cs after : List Char}
    (hprintable : (c :: cs).all isPrintableAscii = true) (h : fitsPlain (c :: cs) = true)
    (hafter : atSpace after = true) : startsPlain c (cs ++ after) = true := by
  obtain ⟨hblank, -, hmark, -⟩ := begins_of_fitsPlain hprintable h
  rw [List.all_cons, Bool.and_eq_true] at hprintable
  rw [startsPlain, hblank, isBreak_of_isPrintableAscii hprintable.1,
    atSpace_append hprintable.2 hafter]
  rw [beginsWithMark] at hmark
  by_cases hc : c = '-' ∨ c = '?' ∨ c = ':'
  · rcases hc with rfl | rfl | rfl <;> simpa using hmark
  · rw [not_or, not_or] at hc
    rw [if_neg (by simp [hc])] at hmark
    simp only [List.contains_cons, List.contains_nil, Bool.or_eq_false_iff,
      beq_eq_false_iff_ne] at hmark
    simp [hc, isIndicator, hmark]

/-- A word begins a plain scalar and no mark of a document. -/
theorem begins_of_isWord {cs : List Char} (h : isWord (c :: cs) = true) (rest : List Char) :
    startsPlain c (cs ++ rest) = true ∧ c ≠ '?' ∧ c ≠ ':' ∧ c ≠ '%' ∧
      atDocumentMark (c :: (cs ++ rest)) = false := by
  obtain ⟨c', cs', heq, hname, hbegin⟩ := exists_cons_of_isWord h
  obtain ⟨rfl, rfl⟩ := List.cons.inj heq
  rw [List.all_cons, Bool.and_eq_true] at hname
  have hne : ∀ d : Char, isNameChar d = false → c ≠ d := fun d => ne_of_test hname.1
  obtain ⟨hblank, hbreak, -, hcolon⟩ := marks_of_isNameChar hname.1
  refine ⟨?_, hne _ rfl, hcolon, hne _ rfl, ?_⟩
  · by_cases hhyphen : c = '-'
    · subst hhyphen
      obtain ⟨d, ds, rfl, -⟩ := hbegin.resolve_left (by decide)
      rw [List.all_cons, Bool.and_eq_true] at hname
      obtain ⟨hblank', hbreak', -⟩ := marks_of_isNameChar hname.2.1
      simp [startsPlain, atSpace, hblank, hbreak, hblank', hbreak']
    · have hindicator : isIndicator c = false := by
        simp (disch := decide) [isIndicator, hne, hhyphen]
      simp [startsPlain, hblank, hbreak, hhyphen, hcolon, hne '?' rfl, hindicator]
  · rcases hbegin with hbegin | ⟨d, ds, rfl, hbegin⟩
    · exact atDocumentMark_of_first ⟨ne_of_test hbegin rfl, ne_of_test hbegin rfl⟩ _
    · exact atDocumentMark_of_second ⟨ne_of_test hbegin rfl, ne_of_test hbegin rfl⟩ _ _

/-- A plain scalar is taken if it can be read. -/
theorem Shows.fetchPlain {t : String} {broken : Bool} (h : s.Shows v)
    (hfree : v.allowed = true → v.depth = 0 → v.blocks.head? ≠ some v.column)
    (hread : ∀ m : Mark, m.column = v.column → ∃ m' : Mark, m'.column = column ∧
      readPlain (decide (v.depth ≠ 0)) ((v.blocks.head?.map Int.ofNat).getD (-1) + 1) m [] .none
        ⟨v.text, m⟩ = .ok ⟨t.toList, ⟨rest, m'⟩, broken⟩) :
    ∃ s', s.fetchPlain = .ok s' ∧
      s'.Shows ⟨rest, column, v.depth, broken, v.blocks, v.lexemes ++ [.scalar t .plain]⟩ := by
  obtain ⟨k, hsave, hk⟩ := h.saveKey hfree
  obtain ⟨m', rfl, hplain⟩ := hread k.mark hk.column_eq
  rw [← hk.inFlow_eq, ← hk.indent_eq, ← hk.cursor_eq] at hplain
  refine ⟨_, ?_, ((hk.push k.mark (.scalar t .plain)).allowKey broken).moveTo ⟨rest, m'⟩⟩
  rw [Scanner.fetchPlain, hsave]
  simp only [bind, Except.bind, pure, Except.pure]
  rw [hplain]
  simp only [String.ofList_toList]

/-- A word as an item of a sequence. -/
theorem leads_flowWord {t : String} (ht : isWord t.toList = true) (hc : c = ',' ∨ c = ']') :
    View.Leads ⟨t.toList ++ c :: rest, column, depth + 1, allowed, blocks, ls⟩
      ⟨c :: rest, column + t.toList.length, depth + 1, false, blocks,
        ls ++ [.scalar t .plain]⟩ := by
  intro s hs
  obtain ⟨d, ds, hcons, hname, -⟩ := exists_cons_of_isWord ht
  rw [hcons] at ht
  obtain ⟨hstarts, hquestion, hcolon, hpercent, hmark⟩ := begins_of_isWord ht (c :: rest)
  have htok : beginsToken (c :: rest) = true := by
    rcases hc with rfl | rfl <;> rfl
  have hends : endsFlowPlain c = true := by
    rcases hc with rfl | rfl <;> rfl
  obtain ⟨s', hfetch, hshows⟩ := hs.ready.fetchPlain (fun _ hdepth => absurd hdepth (by simp)) (by
    intro m hm
    refine ⟨m.forward t.toList.length, congrArg (· + t.toList.length) hm,
      readPlain_until htok (by simp [hends]) ?_
        (hcons ▸ continuesPlain_of_all_isNameChar hname)⟩
    rw [hcons, List.cons_append, hmark, Bool.and_false])
  rw [hcons] at hs
  have htoken : s.ready.fetchToken d (ds ++ c :: rest) = .ok s' := by
    rw [fetchToken_of_startsPlain hstarts (fun _ => ⟨hquestion, hcolon⟩)]
    exact hfetch
  refine ⟨s', .single (hs.takes (fun _ => ⟨hpercent, hmark⟩) htoken hshows.rest_eq
    (atComment_of_beginsToken htok) (by simp)), ?_⟩
  exact Shows.faces_spaces (n := 0) htok (by simp) hshows

/-! ## Scalars that end their line -/

section Line

variable {b n : Nat} {t : String} (htok : beginsToken tok = true)
include htok

/-- A plain scalar that ends its line. The next line is not indented deeper than the block. -/
theorem leads_plainLine {cs : List Char} (hn : n ≤ b) (hcolumn : 0 < column)
    (hfree : allowed = true → b ≠ column) (hcons : t.toList = c :: cs)
    (hstarts : startsPlain c (cs ++ '\n' :: (spaces n ++ tok)) = true)
    (hcontinues : continuesPlain false ('\n' :: (spaces n ++ tok)) false (c :: cs) = true) :
    View.Leads ⟨t.toList ++ '\n' :: (spaces n ++ tok), column, 0, allowed, b :: blocks, ls⟩
      (View.close ⟨tok, n, 0, true, b :: blocks, ls ++ [.scalar t .plain]⟩) := by
  intro s hs
  obtain ⟨s', hfetch, hshows⟩ := hs.ready.fetchPlain
    (fun hallowed _ hb => hfree hallowed (Option.some.inj hb)) (by
      intro m hm
      refine ⟨_, Nat.zero_add n, readPlain_line ?_ htok ?_ (hcons ▸ hcontinues)⟩
      · simp
        omega
      · rw [hm]
        exact hcolumn)
  rw [hcons] at hs
  have hblock : s.ready.inFlow = false := by simp [hs.ready.inFlow_eq]
  have htoken : s.ready.fetchToken c (cs ++ '\n' :: (spaces n ++ tok)) = .ok s' := by
    rw [fetchToken_of_startsPlain hstarts (fun hflow => absurd hflow (by simp [hblock]))]
    exact hfetch
  refine ⟨s', .single (hs.takes (fun hzero => absurd hzero (by omega)) htoken hshows.rest_eq
    (atComment_of_beginsToken htok) (by simp; omega)), ?_⟩
  exact Shows.faces_spaces (n := 0) htok (by simp) hshows

/-- A word that ends its line. -/
theorem leads_wordLine (hn : n ≤ b) (hcolumn : 0 < column) (hfree : allowed = true → b ≠ column)
    (ht : isWord t.toList = true) :
    View.Leads ⟨t.toList ++ '\n' :: (spaces n ++ tok), column, 0, allowed, b :: blocks, ls⟩
      (View.close ⟨tok, n, 0, true, b :: blocks, ls ++ [.scalar t .plain]⟩) := by
  obtain ⟨c, ds, hcons, hname, -⟩ := exists_cons_of_isWord ht
  rw [hcons] at ht
  exact leads_plainLine htok hn hcolumn hfree hcons (begins_of_isWord ht _).1
    (continuesPlain_of_all_isNameChar hname)

/-- A printable text without quotes that ends its line. -/
theorem leads_plainText (ht : t.toList.all isPrintableAscii = true)
    (hfits : fitsPlain t.toList = true) (hne : t ≠ "") (hn : n ≤ b) (hcolumn : 0 < column)
    (hfree : allowed = true → b ≠ column) :
    View.Leads ⟨t.toList ++ '\n' :: (spaces n ++ tok), column, 0, allowed, b :: blocks, ls⟩
      (View.close ⟨tok, n, 0, true, b :: blocks, ls ++ [.scalar t .plain]⟩) := by
  cases hcs : t.toList with
  | nil => exact absurd (String.toList_eq_nil_iff.1 hcs) hne
  | cons c cs =>
    rw [hcs] at ht hfits
    rw [← hcs]
    exact leads_plainLine htok hn hcolumn hfree hcs (startsPlain_of_fitsPlain ht hfits rfl)
      (continuesPlain_of_fitsPlain ht hfits rfl)

/-- A printable text in quotes that ends its line. -/
theorem leads_quotedText (double : Bool) (ht : t.toList.all isPrintableAscii = true)
    (hcolumn : 0 < column) (hfree : allowed = true → b ≠ column) :
    View.Leads
      ⟨inQuotes double t.toList ++ '\n' :: (spaces n ++ tok), column, 0, allowed, b :: blocks, ls⟩
      (View.close ⟨tok, n, 0, true, b :: blocks,
        ls ++ [.scalar t (if double then .doubleQuoted else .singleQuoted)]⟩) := by
  intro s hs
  have hquotes : inQuotes double t.toList ++ '\n' :: (spaces n ++ tok) =
      quoteMark double :: (t.toList.flatMap (quotedForm double) ++
        quoteMark double :: '\n' :: (spaces n ++ tok)) := by
    simp [inQuotes]
  rw [hquotes] at hs
  obtain ⟨k, hsave, hk⟩ := hs.ready.saveKey
    (fun hallowed _ hb => hfree hallowed (Option.some.inj hb))
  have hforward : k.cursor.forward 1 = ⟨t.toList.flatMap (quotedForm double) ++
      quoteMark double :: '\n' :: (spaces n ++ tok), k.mark.forward 1⟩ := by
    rw [hk.cursor_eq]
    rfl
  -- what is read between the quotes is the text
  obtain ⟨m', hread⟩ := readQuoted_body k.mark [] .none (k.mark.forward 1) double ht rfl
    (Nat.succ_pos _) (show ('\n' :: (spaces n ++ tok)).head? ≠ some '\'' by simp)
  rw [← hforward, List.nil_append] at hread
  have htoken : s.ready.fetchToken (quoteMark double) (t.toList.flatMap (quotedForm double) ++
      quoteMark double :: '\n' :: (spaces n ++ tok)) = s.ready.fetchQuoted double := by
    cases double <;> rfl
  have hshows := ((hk.push k.mark (.scalar t
    (if double then .doubleQuoted else .singleQuoted))).allowKey false).moveTo
    ⟨'\n' :: (spaces n ++ tok), m'⟩
  refine ⟨_, .single (hs.takes (fun hzero => absurd hzero (by omega)) (htoken.trans ?_)
    hshows.rest_eq rfl (by simp; omega)), Shows.faces_line htok (by simp) hshows⟩
  rw [fetchQuoted, hsave]
  simp only [bind, Except.bind, pure, Except.pure]
  rw [hread]
  simp only [Gap.text, List.nil_append, String.ofList_toList]

end Line

/-! ## Blocks -/

/-- The open blocks when a block goes on, or begins, in a column. -/
def openAt (column : Nat) (blocks : List Nat) : List Nat :=
  if blocks.head? = some column then blocks else column :: blocks

/-- The block that is opened at a column is the innermost. -/
theorem exists_openAt (column : Nat) (blocks : List Nat) :
    ∃ outer, openAt column blocks = column :: outer := by
  unfold openAt
  split
  next hhead => exact ⟨blocks.tail, (List.cons_head?_tail hhead).symm⟩
  next => exact ⟨blocks, rfl⟩

/-- The start of a block, unless it goes on. -/
def opening (start : Lexeme) (column : Nat) (blocks : List Nat) : List Lexeme :=
  if blocks.head? = some column then [] else [start]

/-- Opening a block where none is deeper inserts its token, unless there is a block in the column.
-/
theorem openBlock_eq (hflow : s.inFlow = false) (number : Nat) (start : Mark) (lexeme : Lexeme)
    (hcolumn : ∀ b ∈ s.blocks.head?, b ≤ start.column) (hlength : s.blocks.length < 10000) :
    s.openBlock number start lexeme = .ok (if s.blocks.head? = some start.column then s
      else { s.insert number start lexeme with blocks := start.column :: s.blocks }) := by
  -- the innermost block is not deeper, so that the column is either its own or a new one
  have hle : start.column ≤ s.indent ↔ s.blocks.head? = some start.column := by
    rw [indent]
    cases hb : s.blocks.head? with
    | none => simp; omega
    | some b =>
      have hb' := hcolumn b hb
      simp
      omega
  unfold openBlock
  rw [hflow, Bool.false_or]
  by_cases hhead : s.blocks.head? = some start.column
  · rw [if_pos (by simpa using hle.2 hhead), if_pos hhead]
  · rw [if_neg (by simpa using fun h => hhead (hle.1 h)), if_neg (by omega), if_neg hhead]

/-- A block that has begun in a column stays open in the columns behind it. -/
theorem close_openAt {column' : Nat} (h : column ≤ column') :
    View.close ⟨tok, column', 0, allowed, openAt column blocks, ls⟩ =
      ⟨tok, column', 0, allowed, openAt column blocks, ls⟩ := by
  obtain ⟨outer, houter⟩ := exists_openAt column blocks
  simp [View.close, blocksAt, blockEnds, houter, h]

/-- The mark of an item of a block sequence. -/
theorem leads_blockEntry (htok : beginsToken tok = true) (hcolumn : ∀ b ∈ blocks.head?, b ≤ column)
    (hlength : blocks.length < 10000) :
    View.Leads ⟨'-' :: ' ' :: tok, column, 0, true, blocks, ls⟩
      ⟨tok, column + 2, 0, true, openAt column blocks,
        ls ++ opening .blockSequenceStart column blocks ++ [.blockEntry]⟩ := by
  intro s hs
  have hblock : s.ready.inFlow = false := by simp [hs.ready.inFlow_eq]
  -- a block of items begins, unless there is one in this column
  obtain ⟨t, hopen, ht⟩ : ∃ t, s.ready.openBlock s.ready.tokens.length s.ready.mark
      .blockSequenceStart = .ok t ∧ t.Shows ⟨'-' :: ' ' :: tok, column, 0, true,
        openAt column blocks, ls ++ opening .blockSequenceStart column blocks⟩ := by
    have hblocks := hs.ready.blocks_eq
    have hmark := hs.ready.column_eq
    refine ⟨_, openBlock_eq hblock _ _ _ (by rw [hblocks, hmark]; exact hcolumn)
      (by rw [hblocks]; exact hlength), ?_⟩
    rw [hblocks, hmark]
    unfold openAt opening
    by_cases hhead : blocks.head? = some column
    · simpa only [if_pos hhead, List.append_nil] using hs.ready
    · simp only [if_neg hhead]
      refine ⟨hs.ready.rest_eq, hmark, hs.ready.length_keys, hs.ready.optional,
        hs.ready.keyAllowed_eq, rfl, ?_⟩
      simp [Scanner.insert, hs.ready.lexemes_eq]
  -- then the mark is taken, and a key may stand behind it
  obtain ⟨k, hdrop, hk⟩ := ht.dropKey
  have hfetch : s.ready.fetchToken '-' (' ' :: tok) =
      .ok ((k.take 1 .blockEntry).allowKey true) := by
    change s.ready.fetchBlockEntry = _
    rw [fetchBlockEntry, hblock, hs.ready.keyAllowed_eq]
    simp only [bind, Except.bind, pure, Except.pure]
    rw [if_neg (by decide), hopen]
    dsimp only
    rw [hdrop]
  have hshows := (hk.take .blockEntry).allowKey true
  have hmark : atDocumentMark ('-' :: ' ' :: tok) = false :=
    atDocumentMark_of_second (by decide) _ _
  refine ⟨_, .single (hs.takes (fun _ => ⟨by decide, hmark⟩) hfetch hshows.rest_eq
    (atComment_space htok) (Nat.le_refl _)), ?_⟩
  rw [← close_openAt (show column ≤ column + 2 by omega)]
  exact Shows.faces_spaces (n := 1) htok (by simp) hshows

/-! ## Keys -/

/-- Nothing is to be skipped or closed at a token behind the last block's column. -/
theorem ready_eq_self (htok : beginsToken s.cursor.rest = true)
    (hblocks : ∀ b ∈ s.blocks.head?, b ≤ s.mark.column) : s.ready = s := by
  have hcursor : s.cursor = ⟨spaces 0 ++ s.cursor.rest, s.cursor.mark⟩ := rfl
  have hskip : skipSpace (s.cursor.rest.length + 1) s = s :=
    skipSpace_spaces _ 0 htok hcursor
  rw [ready, hskip, closeBlocks]
  split
  next => rfl
  next =>
    obtain ⟨cursor, tokens, blocks, keys, keyAllowed⟩ := s
    cases blocks with
    | nil => simp
    | cons b blocks => simpa using hblocks b rfl

/-- A word in front of a colon is taken and remembered as a possible key. -/
theorem Shows.fetchPlain_key {t : String}
    (h : s.Shows ⟨t.toList ++ ':' :: rest, column, 0, true, blocks, ls⟩)
    (ht : isWord t.toList = true) (hrest : atSpace rest = true) :
    ∃ k : PossibleKey, k.token = s.tokens.length ∧ k.mark = s.mark ∧
      s.fetchPlain = .ok ⟨⟨':' :: rest, s.mark.forward t.toList.length⟩,
        s.tokens ++ [⟨s.mark, .scalar t .plain⟩], s.blocks, [some k], false⟩ := by
  obtain ⟨c, cs, hcons, hname, -⟩ := exists_cons_of_isWord ht
  have hmark : atDocumentMark (t.toList ++ ':' :: rest) = false := by
    rw [hcons] at ht ⊢
    exact (begins_of_isWord ht (':' :: rest)).2.2.2.2
  have hkeys : s.keys.drop 1 = [] := List.drop_eq_nil_of_le (Nat.le_of_eq h.length_keys)
  have hread : readPlain false (s.indent + 1) s.mark [] .none s.cursor =
      .ok ⟨t.toList, ⟨':' :: rest, s.mark.forward t.toList.length⟩, false⟩ := by
    rw [h.cursor_eq]
    refine readPlain_until rfl (by simp [hrest]) ?_ (hcons ▸ continuesPlain_of_all_isNameChar hname)
    rw [hmark, Bool.and_false]
  -- outside of lists on one line there is only one place for a possible key
  obtain ⟨k, hk, hmark', hsave⟩ : ∃ k : PossibleKey, k.token = s.tokens.length ∧ k.mark = s.mark ∧
      s.saveKey = .ok { s with keys := [some k] } := by
    refine ⟨⟨s.tokens.length, !s.inFlow && s.indent == s.mark.column, s.mark⟩, rfl, rfl, ?_⟩
    rw [h.saveKey_eq rfl, Scanner.setKey, hkeys]
  refine ⟨k, hk, hmark', ?_⟩
  rw [Scanner.fetchPlain, hsave]
  change Except.bind (readPlain false (s.indent + 1) s.mark [] .none s.cursor) _ = _
  rw [hread]
  simp only [Except.bind, String.ofList_toList]
  rfl

/-- A token that is inserted between others. -/
theorem insertIdx_length_append (before after : List Token) (t : Token) :
    (before ++ after).insertIdx before.length t = before ++ t :: after := by
  induction before with
  | nil => rfl
  | cons a before ih => simp [ih]

/-- A colon makes the last token a key if it is the possible one, and this is on the same line and
not far back. -/
theorem fetchValue_eq {k : PossibleKey} {before : List Token} {token : Token}
    (hkeys : s.keys = [some k]) (htokens : s.tokens = before ++ [token])
    (hk : k.token = before.length) (hline : k.mark.line = s.mark.line)
    (hindex : s.mark.index ≤ k.mark.index + 1024)
    (hcolumn : ∀ b ∈ s.blocks.head?, b ≤ k.mark.column)
    (hlength : s.blocks.length < 10000) :
    s.fetchValue = .ok { s with
      cursor := s.cursor.forward 1
      keys := [none]
      keyAllowed := false
      blocks := openAt k.mark.column s.blocks
      tokens := before ++ (opening .blockMappingStart k.mark.column s.blocks).map (⟨k.mark, ·⟩) ++
        [⟨k.mark, .key⟩, token, ⟨s.mark, .value⟩] } := by
  have hvalid : s.validKey = .ok (some k) := by
    have hstale : s.isStale k = false := by
      simp [isStale, hline]
      omega
    simp [validKey, hkeys, hstale]
  have hflow : (s.insert k.token k.mark .key).inFlow = false := by
    simp [inFlow, Scanner.insert, hkeys]
  rw [fetchValue, hvalid]
  simp only [bind, Except.bind, pure, Except.pure]
  rw [openBlock_eq hflow _ _ _ hcolumn hlength]
  have hblocks : (s.insert k.token k.mark .key).blocks = s.blocks := rfl
  rw [hblocks]
  -- the mark of the key is put before the last token, and the start of a new block before both
  unfold openAt opening
  by_cases hhead : s.blocks.head? = some k.mark.column
  · simp [if_pos hhead, Scanner.insert, setKey, Scanner.take, Scanner.push, Scanner.allowKey, hkeys,
      htokens, hk, insertIdx_length_append, mark]
  · simp [if_neg hhead, Scanner.insert, setKey, Scanner.take, Scanner.push, Scanner.allowKey, hkeys,
      htokens, hk, insertIdx_length_append, mark]

/-- The scanner goes on behind the colon. -/
theorem takes_colon {k : PossibleKey} {before : List Token} {token : Token}
    (hkeys : s.keys = [some k]) (htokens : s.tokens = before ++ [token])
    (htoken : token.lexeme ≠ .streamEnd) (hk : k.token = before.length)
    (hline : k.mark.line = s.mark.line) (hindex : s.mark.index ≤ k.mark.index + 1024)
    (hbehind : k.mark.column ≤ s.mark.column) (hcolumn : ∀ b ∈ s.blocks.head?, b ≤ k.mark.column)
    (hlength : s.blocks.length < 10000) (hcursor : s.cursor.rest = ':' :: rest)
    (hrest : atSpace rest = true) (hcomment : atComment rest = false) :
    s.Takes { s with
      cursor := s.cursor.forward 1
      keys := [none]
      keyAllowed := false
      blocks := openAt k.mark.column s.blocks
      tokens := before ++ (opening .blockMappingStart k.mark.column s.blocks).map (⟨k.mark, ·⟩) ++
        [⟨k.mark, .key⟩, token, ⟨s.mark, .value⟩] } := by
  have hready : s.ready = s := by
    refine ready_eq_self (by rw [hcursor]; rfl) (fun b hb => ?_)
    exact Nat.le_trans (hcolumn b hb) hbehind
  have hfetch : s.fetchToken ':' rest = s.fetchValue := by simp [fetchToken, hrest]
  have hafter : (s.cursor.forward 1).rest = rest := by
    rw [Cursor.forward, hcursor]
    rfl
  refine takes_of_fetchToken ?_ (by rw [hready, hcursor]) ?_ ?_ hafter hcomment ?_
  · simpa [atEnd, htokens] using htoken
  · exact fun _ => ⟨by decide, atDocumentMark_of_first (by decide) _⟩
  · rw [hready, hfetch]
    exact fetchValue_eq hkeys htokens hk hline hindex hcolumn hlength
  · rw [hcursor]
    exact Nat.lt_succ_self _

/-- A word in front of a colon that stands apart is a key. -/
theorem Faces.key {t : String} (hs : s.Faces ⟨t.toList ++ ':' :: rest, column, 0, true, blocks, ls⟩)
    (ht : isWord t.toList = true) (hshort : t.toList.length ≤ 1024) (hrest : atSpace rest = true)
    (hcomment : atComment rest = false) (hcolumn : ∀ b ∈ blocks.head?, b ≤ column)
    (hlength : blocks.length < 10000) :
    ∃ s', Relation.ReflTransGen Takes s s' ∧
      s'.Shows ⟨rest, column + t.toList.length + 1, 0, false, openAt column blocks,
        ls ++ opening .blockMappingStart column blocks ++ [.key, .scalar t .plain, .value]⟩ := by
  obtain ⟨k, hk, hkmark, hplain⟩ := hs.ready.fetchPlain_key ht hrest
  have hkcolumn : k.mark.column = column := by
    rw [hkmark]
    exact hs.ready.column_eq
  have hblocks : s.ready.blocks = blocks := hs.ready.blocks_eq
  have hlexemes : s.ready.tokens.map Token.lexeme = ls := hs.ready.lexemes_eq
  -- the word is taken first
  have hname : s.Takes ⟨⟨':' :: rest, s.ready.mark.forward t.toList.length⟩,
      s.ready.tokens ++ [⟨s.ready.mark, .scalar t .plain⟩], s.ready.blocks, [some k], false⟩ := by
    obtain ⟨c, cs, hcons, -⟩ := exists_cons_of_isWord ht
    rw [hcons] at hs ht
    obtain ⟨hstarts, hquestion, hcolon, hpercent, hdocument⟩ := begins_of_isWord ht (':' :: rest)
    have htoken : s.ready.fetchToken c (cs ++ ':' :: rest) = s.ready.fetchPlain :=
      fetchToken_of_startsPlain hstarts (fun _ => ⟨hquestion, hcolon⟩)
    exact hs.takes (fun _ => ⟨hpercent, hdocument⟩) (htoken.trans hplain) rfl rfl (by simp)
  -- then the colon makes it a key
  refine ⟨_, .tail (.single hname) (takes_colon rfl rfl nofun hk ?_ ?_ ?_ ?_ ?_ rfl hrest hcomment),
    ?_⟩
  · rw [hkmark]
    rfl
  · rw [hkmark]
    exact Nat.add_le_add_left hshort _
  · rw [hkmark]
    exact Nat.le_add_right _ _
  · rw [hblocks, hkcolumn]
    exact hcolumn
  · rw [hblocks]
    exact hlength
  · refine ⟨rfl, ?_, rfl, by simp, rfl, ?_, ?_⟩
    · rw [hkmark] at hkcolumn
      exact congrArg (· + t.toList.length + 1) hkcolumn
    · rw [hblocks, hkcolumn]
    · simp [hlexemes, hkcolumn, hblocks, Function.comp_def]

/-- A key with a value on its line. -/
theorem leads_key_value {t : String} (ht : isWord t.toList = true) (hshort : t.toList.length ≤ 1024)
    (htok : beginsToken tok = true) (hcolumn : ∀ b ∈ blocks.head?, b ≤ column)
    (hlength : blocks.length < 10000) :
    View.Leads ⟨t.toList ++ ':' :: ' ' :: tok, column, 0, true, blocks, ls⟩
      ⟨tok, column + t.toList.length + 2, 0, false, openAt column blocks,
        ls ++ opening .blockMappingStart column blocks ++ [.key, .scalar t .plain, .value]⟩ := by
  intro s hs
  obtain ⟨s', hsteps, hshows⟩ := hs.key ht hshort rfl (atComment_space htok) hcolumn hlength
  refine ⟨s', hsteps, ?_⟩
  rw [← close_openAt (show column ≤ column + t.toList.length + 2 by omega)]
  exact Shows.faces_spaces (n := 1) htok (by simp) hshows

/-- A key with a value below it. -/
theorem leads_key_line {t : String} {n : Nat} (ht : isWord t.toList = true)
    (hshort : t.toList.length ≤ 1024) (htok : beginsToken tok = true)
    (hcolumn : ∀ b ∈ blocks.head?, b ≤ column) (hlength : blocks.length < 10000)
    (hn : column ≤ n) :
    View.Leads ⟨t.toList ++ ':' :: '\n' :: (spaces n ++ tok), column, 0, true, blocks, ls⟩
      ⟨tok, n, 0, true, openAt column blocks,
        ls ++ opening .blockMappingStart column blocks ++ [.key, .scalar t .plain, .value]⟩ := by
  intro s hs
  obtain ⟨s', hsteps, hshows⟩ := hs.key ht hshort rfl rfl hcolumn hlength
  refine ⟨s', hsteps, ?_⟩
  rw [← close_openAt hn]
  exact Shows.faces_line htok (by simp) hshows

/-! ## The end of the text -/

/-- At the end all blocks are closed. -/
theorem closeBlocks_all (hflow : s.inFlow = false) :
    s.closeBlocks (-1) = { s with
      tokens := s.tokens ++ s.blocks.map fun _ => ⟨s.mark, .blockEnd⟩, blocks := [] } := by
  have hall : ∀ b ∈ s.blocks, decide ((-1 : Int) < (b : Int)) = true := by
    intro b _
    simp
    omega
  unfold closeBlocks
  rw [if_neg (by simp [hflow])]
  dsimp only
  rw [List.takeWhile_eq_self_iff.2 hall, List.dropWhile_eq_nil_iff.2 hall]

/-- At the end of the text all blocks are closed. -/
theorem Faces.finish (hs : s.Faces ⟨[], column, 0, allowed, blocks, ls⟩) :
    ∃ s', s.fetch = .ok s' ∧ s'.atEnd = true ∧
      s'.tokens.map Token.lexeme = ls ++ blocks.map (fun _ => .blockEnd) ++ [.streamEnd] := by
  -- the end of the text begins a line, even if the last line does not end
  obtain ⟨t, ht⟩ : ∃ t, t = if s.ready.cursor.mark.column = 0 then s.ready
      else { s.ready with cursor := ⟨s.ready.cursor.rest, s.ready.cursor.mark.nextLine 0⟩ } :=
    ⟨_, rfl⟩
  obtain ⟨column', hshows⟩ : ∃ column', t.Shows ⟨[], column', 0, allowed, blocks, ls⟩ := by
    rw [ht]
    split
    next => exact ⟨column, hs.ready⟩
    next =>
      have hmove := hs.ready.moveTo ⟨s.ready.cursor.rest, s.ready.cursor.mark.nextLine 0⟩
      rw [hs.ready.rest_eq] at hmove ⊢
      exact ⟨_, hmove⟩
  have hclosed : (t.closeBlocks (-1)).Shows ⟨[], column', 0, allowed, [],
      ls ++ blocks.map (fun _ => .blockEnd)⟩ := by
    rw [closeBlocks_all (by simp [hshows.inFlow_eq])]
    refine ⟨hshows.rest_eq, hshows.column_eq, hshows.length_keys, hshows.optional,
      hshows.keyAllowed_eq, rfl, ?_⟩
    simp [hshows.lexemes_eq, hshows.blocks_eq]
  obtain ⟨u, hdrop, hu⟩ := hclosed.dropKey
  have hend := hu.push u.mark .streamEnd
  refine ⟨_, ?_, ?_, hend.lexemes_eq⟩
  · rw [fetch_eq, takeToken, hs.ready.rest_eq]
    dsimp only
    rw [fetchEnd, ← ht, hdrop]
    rfl
  · rw [hend.atEnd_eq]
    simp

end Scanner

/-- The tokens of a text through which a scanner comes to the end. -/
theorem lexemes_tokens {text : String} (hallowed : text.toList.all isAllowed = true)
    (htok : beginsToken text.toList = true) (horder : text.toList.head? ≠ some '\ufeff')
    (hleads : View.Leads ⟨text.toList, 0, 0, true, [], [.streamStart]⟩
      ⟨[], column, 0, allowed, blocks, ls⟩) :
    (tokens text).map Token.lexeme = ls ++ blocks.map (fun _ => .blockEnd) ++ [.streamEnd] := by
  have hshows : (Scanner.init text.toList).Shows ⟨text.toList, 0, 0, true, [], [.streamStart]⟩ :=
    ⟨rfl, rfl, rfl, by simp [Scanner.init], rfl, rfl, rfl⟩
  obtain ⟨s, hsteps, hs⟩ := hleads _ (Scanner.Shows.faces_spaces (n := 0) htok (by simp) hshows)
  obtain ⟨s', hfetch, hend, hlexemes⟩ := hs.finish
  obtain ⟨fuel, hfuel, hrun⟩ := Scanner.exists_run_eq hsteps (text.toList.length + 2)
    (Nat.lt_add_of_pos_right (by decide))
  obtain ⟨fuel, rfl⟩ : ∃ k, fuel = k + 1 := ⟨fuel - 1, by omega⟩
  -- one piece of fuel is left for the end of the text, behind which the run stops by itself
  have hlast : Scanner.run fuel s' = s'.tokens := by
    cases fuel with
    | zero => rfl
    | succ fuel => rw [Scanner.run, if_pos hend]
  have htokens : tokens text = Scanner.run (text.toList.length + 2) (.init text.toList) := by
    unfold tokens
    split
    next rest hcons => exact absurd (by rw [hcons]; rfl) horder
    next => exact if_pos hallowed
  rw [htokens, hrun, Scanner.run, if_neg (by simp [hs.unended]), hfetch]
  dsimp only
  rw [hlast, hlexemes]

end StackFlow.Yaml
