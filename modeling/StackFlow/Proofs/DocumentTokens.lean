import StackFlow.Proofs.ScannerSteps

/-!
# The tokens of a document in lines

A collection in a block is lines of a common column. `Lines` says of a text that it is such lines,
and which tokens they give to a scanner that stands at their first token, whether the block is open
already or begins here. Lines of one column follow each other (`Lines.append`). A field or an item
is a line with its value on it (`LineValue.field`, `LineValue.item`), or the lines of a deeper block
below the key or behind the mark of the item belong to it (`Lines.nested`, `Lines.item`). The tokens
of a document are those of its lines (`lexemes_tokens_lines`).
-/

namespace StackFlow.Yaml

open Scanner

variable {column n : Nat} {tok text : List Char} {ls lexemes : List Lexeme} {blocks : List Nat}
  {allowed : Bool}

/-! ## Closing blocks -/

/-- A block that is open is not opened again. -/
theorem openAt_openAt (column : Nat) (blocks : List Nat) :
    openAt column (openAt column blocks) = openAt column blocks := by
  obtain ⟨outer, houter⟩ := exists_openAt column blocks
  rw [houter]
  simp [openAt]

/-- A block that is open does not begin again. -/
theorem opening_openAt (start : Lexeme) (column : Nat) (blocks : List Nat) :
    opening start column (openAt column blocks) = [] := by
  obtain ⟨outer, houter⟩ := exists_openAt column blocks
  rw [houter]
  simp [opening]

/-- A block that is deeper than the column is closed. -/
theorem close_cons {b : Nat} (h : n < b) :
    View.close ⟨tok, n, 0, allowed, b :: blocks, ls⟩ =
      View.close ⟨tok, n, 0, allowed, blocks, ls ++ [.blockEnd]⟩ := by
  simp [View.close, blocksAt, blockEnds, h]

/-! ## Lines of a block -/

/-- The text is whole lines of a block in a column, which begins with `start` if it is not open. The
tokens of these lines are there when the next token is found, on a line that is not deeper. Blocks
have different columns, so that there are not more of them than columns: this bound keeps their
number below the scanner's limit. -/
def Lines (start : Lexeme) (column : Nat) (text : List Char) (lexemes : List Lexeme) : Prop :=
  ∀ n tok, n ≤ column → beginsToken tok = true → ∃ first, beginsToken first = true ∧
    text ++ (spaces n ++ tok) = spaces column ++ first ∧
    ∀ blocks ls, (∀ b ∈ blocks.head?, b ≤ column) → (openAt column blocks).length ≤ column + 1 →
      View.Leads ⟨first, column, 0, true, blocks, ls⟩
        (View.close ⟨tok, n, 0, true, openAt column blocks,
          ls ++ opening start column blocks ++ lexemes⟩)

/-- Opening a block closes none. -/
theorem length_le_openAt (column : Nat) (blocks : List Nat) :
    blocks.length ≤ (openAt column blocks).length := by
  unfold openAt
  split <;> simp

namespace Lines

variable {start : Lexeme}

/-- Lines follow lines. -/
theorem append {text' : List Char} {lexemes' : List Lexeme} (h : Lines start column text lexemes)
    (h' : Lines start column text' lexemes') :
    Lines start column (text ++ text') (lexemes ++ lexemes') := by
  intro n tok hn htok
  obtain ⟨second, hsecond, htext', hleads'⟩ := h' n tok hn htok
  obtain ⟨first, hfirst, htext, hleads⟩ := h column second (Nat.le_refl _) hsecond
  refine ⟨first, hfirst, by rw [List.append_assoc, htext', htext], ?_⟩
  intro blocks ls hblocks hlength
  have hopen : ∀ b ∈ (openAt column blocks).head?, b ≤ column := by
    obtain ⟨outer, houter⟩ := exists_openAt column blocks
    simp [houter]
  -- the block is open by now, so that the later lines do not begin it again
  have hmore := hleads' (openAt column blocks) (ls ++ opening start column blocks ++ lexemes) hopen
    (by rw [openAt_openAt]; exact hlength)
  rw [openAt_openAt, opening_openAt, List.append_nil, List.append_assoc _ lexemes] at hmore
  have hline := hleads blocks ls hblocks hlength
  rw [close_openAt (Nat.le_refl _)] at hline
  exact hline.trans hmore

/-- The lines of some things that have lines. -/
theorem flatMap {α : Type} {text : α → List Char} {lexemes : α → List Lexeme} {xs : List α}
    (hne : xs ≠ []) (h : ∀ x ∈ xs, Lines start column (text x) (lexemes x)) :
    Lines start column (xs.flatMap text) (xs.flatMap lexemes) := by
  induction xs with
  | nil => exact absurd rfl hne
  | cons x xs ih =>
    have hx := h x List.mem_cons_self
    cases xs with
    | nil => simpa using hx
    | cons y ys =>
      rw [List.flatMap_cons, List.flatMap_cons]
      exact hx.append (ih (List.cons_ne_nil y ys) (fun z hz => h z (List.mem_cons_of_mem x hz)))

/-- The lines of a deeper block: it begins with the first of them, and the next token closes it. -/
theorem within (h : Lines start (column + 2) text lexemes) (hn : n ≤ column)
    (htok : beginsToken tok = true) :
    ∃ first, beginsToken first = true ∧ text ++ (spaces n ++ tok) = spaces (column + 2) ++ first ∧
      ∀ outer ls, outer.length ≤ column →
        View.Leads ⟨first, column + 2, 0, true, column :: outer, ls⟩
          (View.close ⟨tok, n, 0, true, column :: outer,
            ls ++ (start :: lexemes ++ [.blockEnd])⟩) := by
  obtain ⟨first, hfirst, htext, hleads⟩ := h n tok (by omega) htok
  refine ⟨first, hfirst, htext, fun outer ls hlength => ?_⟩
  -- the column is a new one, and no token behind these lines stands in it
  have hopen : openAt (column + 2) (column :: outer) = (column + 2) :: column :: outer := by
    simp [openAt]
  have hopening : opening start (column + 2) (column :: outer) = [start] := by simp [opening]
  have hblock := hleads (column :: outer) ls (by simp)
    (by rw [hopen, List.length_cons, List.length_cons]; omega)
  rw [hopen, hopening, close_cons (by omega)] at hblock
  simpa using hblock

end Lines

/-- The tokens of a field of a mapping. -/
def fieldLexemes (name : String) (value : List Lexeme) : List Lexeme :=
  [.key, .scalar name .plain, .value] ++ value

/-- The tokens of an item of a block sequence. -/
def itemLexemes (value : List Lexeme) : List Lexeme := [.blockEntry] ++ value

/-- The tokens of a field behind others. -/
theorem append_fieldLexemes (ls : List Lexeme) (name : String) (value : List Lexeme) :
    ls ++ fieldLexemes name value = ls ++ [.key, .scalar name .plain, .value] ++ value :=
  (List.append_assoc _ _ _).symm

/-- The tokens of an item behind others. -/
theorem append_itemLexemes (ls value : List Lexeme) :
    ls ++ itemLexemes value = ls ++ [.blockEntry] ++ value :=
  (List.append_assoc _ _ _).symm

/-- A word begins a token. -/
theorem beginsToken_word {t : String} (ht : isWord t.toList = true) (rest : List Char) :
    beginsToken (t.toList ++ rest) = true := by
  obtain ⟨c, cs, hcons, hall, -⟩ := exists_cons_of_isWord ht
  rw [List.all_cons, Bool.and_eq_true] at hall
  obtain ⟨hblank, hbreak, -⟩ := marks_of_isNameChar hall.1
  have hhash : c ≠ '#' := ne_of_test hall.1 rfl
  simp [hcons, beginsToken, hblank, hbreak, hhash]

/-- The text is a value that ends its line, with these tokens, wherever it begins on a line of a
block. -/
structure LineValue (text : List Char) (lexemes : List Lexeme) : Prop where
  /-- The text begins a token. -/
  begins : ∀ rest, beginsToken (text ++ rest) = true
  /-- The value leads to the next line, which is not deeper than the block. -/
  leads : ∀ {n tok b column allowed blocks ls}, beginsToken tok = true → n ≤ b → 0 < column →
    (allowed = true → b ≠ column) →
    View.Leads ⟨text ++ '\n' :: (spaces n ++ tok), column, 0, allowed, b :: blocks, ls⟩
      (View.close ⟨tok, n, 0, true, b :: blocks, ls ++ lexemes⟩)

section Field

variable (name : String) (hname : isWord name.toList = true) (hshort : name.toList.length ≤ 1024)
  (hcolumn : column < 9999)
include hname hshort hcolumn

/-- A field with its value on the line. -/
theorem LineValue.field (h : LineValue text lexemes) :
    Lines .blockMappingStart column
      (spaces column ++ (name.toList ++ ':' :: ' ' :: (text ++ ['\n'])))
      (fieldLexemes name lexemes) := by
  intro n tok hn htok
  refine ⟨name.toList ++ ':' :: ' ' :: (text ++ '\n' :: (spaces n ++ tok)),
    beginsToken_word hname _, by simp, fun blocks ls hblocks hlength => ?_⟩
  have hfew := length_le_openAt column blocks
  refine (leads_key_value hname hshort (h.begins _) hblocks (by omega)).trans ?_
  obtain ⟨outer, houter⟩ := exists_openAt column blocks
  rw [houter, append_fieldLexemes]
  exact h.leads htok hn (by omega) nofun

/-- A field with a block below it. -/
theorem Lines.nested {start : Lexeme} (h : Lines start (column + 2) text lexemes) :
    Lines .blockMappingStart column (spaces column ++ (name.toList ++ ':' :: '\n' :: text))
      (fieldLexemes name (start :: lexemes ++ [.blockEnd])) := by
  intro n tok hn htok
  obtain ⟨first, hfirst, htext, hleads⟩ := h.within hn htok
  refine ⟨name.toList ++ ':' :: '\n' :: (spaces (column + 2) ++ first), beginsToken_word hname _,
    by simp [← htext], fun blocks ls hblocks hlength => ?_⟩
  have hfew := length_le_openAt column blocks
  refine (leads_key_line hname hshort hfirst hblocks (by omega) (Nat.le_add_right _ _)).trans ?_
  obtain ⟨outer, houter⟩ := exists_openAt column blocks
  rw [houter, List.length_cons] at hlength
  rw [houter, append_fieldLexemes]
  exact hleads outer _ (by omega)

end Field

/-- An item that stands on the line of its mark. -/
theorem LineValue.item (hcolumn : column < 9999) (h : LineValue text lexemes) :
    Lines .blockSequenceStart column (spaces column ++ '-' :: ' ' :: (text ++ ['\n']))
      (itemLexemes lexemes) := by
  intro n tok hn htok
  refine ⟨'-' :: ' ' :: (text ++ '\n' :: (spaces n ++ tok)), rfl, by simp,
    fun blocks ls hblocks hlength => ?_⟩
  have hfew := length_le_openAt column blocks
  refine (leads_blockEntry (h.begins _) hblocks (by omega)).trans ?_
  obtain ⟨outer, houter⟩ := exists_openAt column blocks
  rw [houter, append_itemLexemes]
  exact h.leads htok hn (by omega) (fun _ => by omega)

/-- An item that is a block, which begins behind the mark of the item. -/
theorem Lines.item {start : Lexeme} {body : List Char} (hcolumn : column < 9999)
    (h : Lines start (column + 2) (spaces (column + 2) ++ body) lexemes) :
    Lines .blockSequenceStart column (spaces column ++ '-' :: ' ' :: body)
      (itemLexemes (start :: lexemes ++ [.blockEnd])) := by
  intro n tok hn htok
  obtain ⟨first, hfirst, htext, hleads⟩ := h.within hn htok
  have hbody : body ++ (spaces n ++ tok) = first := by
    rw [List.append_assoc] at htext
    exact List.append_cancel_left htext
  refine ⟨'-' :: ' ' :: first, rfl, by simp [← hbody], fun blocks ls hblocks hlength => ?_⟩
  have hfew := length_le_openAt column blocks
  refine (leads_blockEntry hfirst hblocks (by omega)).trans ?_
  obtain ⟨outer, houter⟩ := exists_openAt column blocks
  rw [houter, List.length_cons] at hlength
  rw [houter, append_itemLexemes]
  exact hleads outer _ (by omega)

/-! ## Scalars on the line -/

/-- A word on the line. -/
theorem lineValue_word {t : String} (ht : isWord t.toList = true) :
    LineValue t.toList [.scalar t .plain] where
  begins := beginsToken_word ht
  leads htok hn hcolumn hfree := leads_wordLine htok hn hcolumn hfree ht

/-- A text without quotes on the line. -/
theorem lineValue_plain {t : String} (ht : t.toList.all isPrintableAscii = true)
    (hfits : fitsPlain t.toList = true) (hne : t ≠ "") :
    LineValue t.toList [.scalar t .plain] where
  begins rest := by
    cases hcs : t.toList with
    | nil => exact absurd (String.toList_eq_nil_iff.1 hcs) hne
    | cons c cs =>
      rw [hcs] at ht hfits
      obtain ⟨hblank, -, hmark, -⟩ := begins_of_fitsPlain ht hfits
      rw [List.all_cons, Bool.and_eq_true] at ht
      have hhash : c ≠ '#' := by
        rintro rfl
        exact absurd hmark (by simp [beginsWithMark])
      simp [beginsToken, hblank, hhash, isBreak_of_isPrintableAscii ht.1]
  leads htok hn hcolumn hfree := leads_plainText htok ht hfits hne hn hcolumn hfree

/-- A text in quotes on the line. -/
theorem lineValue_quoted (double : Bool) {t : String} (ht : t.toList.all isPrintableAscii = true) :
    LineValue (inQuotes double t.toList)
      [.scalar t (if double then .doubleQuoted else .singleQuoted)] where
  begins rest := by cases double <;> rfl
  leads htok _ hcolumn hfree := leads_quotedText htok double ht hcolumn hfree

/-! ## Lists on one line -/

/-- The text is an item of a list on one line inside `depth` other such lists. -/
def FlowItem (depth : Nat) (text : List Char) (lexemes : List Lexeme) : Prop :=
  (∀ rest, beginsToken (text ++ rest) = true) ∧
    ∀ c rest column blocks ls, c = ',' ∨ c = ']' →
      View.Leads ⟨text ++ c :: rest, column, depth + 1, true, blocks, ls⟩
        ⟨c :: rest, column + text.length, depth + 1, false, blocks, ls ++ lexemes⟩

/-- A word is an item of a list on one line. -/
theorem flowItem_word {t : String} (ht : isWord t.toList = true) (depth : Nat) :
    FlowItem depth t.toList [.scalar t .plain] :=
  ⟨beginsToken_word ht, fun _ _ _ _ _ hc => leads_flowWord ht hc⟩

/-- The tokens of a list, given those of its items. -/
def flowLexemes (items : List (List Lexeme)) : List Lexeme :=
  .flowSequenceStart :: ([.flowEntry].intercalate items ++ [.flowSequenceEnd])

section FlowList

variable {α : Type} {text : α → List Char} {lexemes : α → List Lexeme} {xs : List α} {depth : Nat}
  {rest : List Char}

/-- What follows the start of a list begins a token. -/
theorem beginsToken_flowItems (h : ∀ x ∈ xs, FlowItem depth (text x) (lexemes x)) :
    beginsToken ([',', ' '].intercalate (xs.map text) ++ ']' :: rest) = true := by
  cases xs with
  | nil => rfl
  | cons x xs =>
    have hx := (h x List.mem_cons_self).1
    cases xs with
    | nil => simpa using hx (']' :: rest)
    | cons y ys =>
      rw [List.map_cons, List.map_cons, List.intercalate_cons_cons, List.append_assoc,
        List.append_assoc]
      exact hx _

/-- The items of a list lead to its end. -/
theorem leads_flowItems (h : ∀ x ∈ xs, FlowItem depth (text x) (lexemes x)) :
    View.Leads
      ⟨[',', ' '].intercalate (xs.map text) ++ ']' :: rest, column, depth + 1, true, blocks, ls⟩
      ⟨']' :: rest, column + ([',', ' '].intercalate (xs.map text)).length, depth + 1, xs.isEmpty,
        blocks, ls ++ [.flowEntry].intercalate (xs.map lexemes)⟩ := by
  induction xs generalizing column ls with
  | nil => simpa using View.Leads.refl _
  | cons x xs ih =>
    obtain ⟨-, hx⟩ := h x List.mem_cons_self
    cases xs with
    | nil => simpa using hx ']' rest column blocks ls (.inr rfl)
    | cons y ys =>
      have hys : ∀ z ∈ y :: ys, FlowItem depth (text z) (lexemes z) :=
        fun z hz => h z (List.mem_cons_of_mem x hz)
      have htext : [',', ' '].intercalate ((x :: y :: ys).map text) ++ ']' :: rest =
          text x ++ ',' :: ' ' :: ([',', ' '].intercalate ((y :: ys).map text) ++ ']' :: rest) := by
        simp
      have hlength : column + ([',', ' '].intercalate ((x :: y :: ys).map text)).length =
          column + (text x).length + 2 + ([',', ' '].intercalate ((y :: ys).map text)).length := by
        simp
        omega
      have hlexemes : ls ++ [.flowEntry].intercalate ((x :: y :: ys).map lexemes) =
          ls ++ lexemes x ++ [.flowEntry] ++ [.flowEntry].intercalate ((y :: ys).map lexemes) := by
        simp
      rw [htext, hlength, hlexemes]
      exact (hx ',' _ column blocks ls (.inl rfl)).trans
        ((leads_flowEntry (beginsToken_flowItems hys)).trans (ih hys))

/-- A list is an item of a list. -/
theorem FlowItem.list (hdepth : depth + 1 < 10000)
    (h : ∀ x ∈ xs, FlowItem (depth + 1) (text x) (lexemes x)) :
    FlowItem depth (bracketed (xs.map text)) (flowLexemes (xs.map lexemes)) := by
  refine ⟨fun rest => rfl, fun c rest column blocks ls hc => ?_⟩
  have htext : bracketed (xs.map text) ++ c :: rest =
      '[' :: ([',', ' '].intercalate (xs.map text) ++ ']' :: c :: rest) := by simp [bracketed]
  rw [htext]
  refine (leads_flowStart (beginsToken_flowItems h) (by simp) hdepth).trans
    ((leads_flowItems h).trans (fun s hs => ?_))
  have htok : beginsToken (c :: rest) = true := by
    rcases hc with rfl | rfl <;> rfl
  obtain ⟨s', htakes, hshows⟩ := hs.flowEnd (atComment_of_beginsToken htok)
  have hfaces := Shows.faces_spaces (n := 0) htok (by rw [List.getLast?_concat]; nofun) hshows
  refine ⟨s', .single htakes, ?_⟩
  have hlength : column + 1 + ([',', ' '].intercalate (xs.map text)).length + 1 =
      column + (bracketed (xs.map text)).length := by
    simp [bracketed]
    omega
  rw [View.close, if_neg (by simp), Nat.add_zero, hlength] at hfaces
  simpa [flowLexemes] using hfaces

end FlowList

/-- A list on the line. -/
theorem lineValue_list {α : Type} {text : α → List Char} {lexemes : α → List Lexeme} {xs : List α}
    (h : ∀ x ∈ xs, FlowItem 0 (text x) (lexemes x)) :
    LineValue (bracketed (xs.map text)) (flowLexemes (xs.map lexemes)) where
  begins _ := rfl
  leads := by
    intro n tok b column allowed blocks ls htok hn hcolumn hfree
    have htext : bracketed (xs.map text) ++ '\n' :: (spaces n ++ tok) =
        '[' :: ([',', ' '].intercalate (xs.map text) ++ ']' :: '\n' :: (spaces n ++ tok)) := by
      simp [bracketed]
    rw [htext]
    refine (leads_flowStart (beginsToken_flowItems h) ?_ (by decide)).trans
      ((leads_flowItems h).trans (fun s hs => ?_))
    · exact fun hallowed _ hhead => hfree hallowed (Option.some.inj hhead)
    · obtain ⟨s', htakes, hshows⟩ := hs.flowEnd rfl
      have hfaces := Shows.faces_line htok (by rw [List.getLast?_concat]; nofun) hshows
      refine ⟨s', .single htakes, ?_⟩
      simpa [flowLexemes] using hfaces

/-! ## Documents -/

/-- Whether a character is printable or ends a line. -/
def isLineChar (c : Char) : Bool := isPrintableAscii c || c == '\n'

/-- A document may hold the characters of its lines. -/
theorem isAllowed_of_isLineChar {c : Char} (h : isLineChar c = true) : isAllowed c = true := by
  rw [isLineChar, Bool.or_eq_true, beq_iff_eq] at h
  rcases h with h | rfl
  · exact isAllowed_of_isPrintableAscii h
  · rfl

/-- The tokens of a document whose lines are a block in the first column. -/
theorem lexemes_tokens_lines {start : Lexeme} (h : Lines start 0 text lexemes)
    (hchars : text.all isLineChar = true) :
    (tokens (String.ofList text)).map Token.lexeme =
      .streamStart :: (start :: lexemes ++ [.blockEnd] ++ [.streamEnd]) := by
  obtain ⟨first, hfirst, htext, hleads⟩ := h 0 [] (Nat.le_refl 0) rfl
  obtain rfl : text = first := by simpa [spaces] using htext
  have hdocument := hleads [] [.streamStart] (by simp) (by decide)
  rw [Scanner.close_openAt (Nat.le_refl 0)] at hdocument
  rw [List.all_eq_true] at hchars
  have hallowed : text.all isAllowed = true :=
    List.all_eq_true.2 (fun c hc => isAllowed_of_isLineChar (hchars c hc))
  have horder : text.head? ≠ some '\ufeff' :=
    fun hmark => absurd (hchars _ (List.mem_of_head? hmark)) (by decide)
  rw [← String.toList_ofList (l := text)] at hallowed hfirst horder hdocument
  rw [lexemes_tokens hallowed hfirst horder hdocument]
  simp [Scanner.opening, Scanner.openAt]

end StackFlow.Yaml
