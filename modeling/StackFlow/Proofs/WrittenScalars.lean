import StackFlow.Proofs.DecimalScalars
import StackFlow.Proofs.LibraryContract
import StackFlow.Yaml.Token.Scalar

/-!
# Reading written scalars

A text of printable ASCII characters stands on one line: plain, or in quotes. Read from its first
character on, or behind its first quote, it gives itself back, and reading stops behind it
(`readPlain_line`, `readQuoted_body`). Only for a plain text this takes an argument: where a mark in
it would end the scalar, `fitsPlain` refuses it (`continuesPlain_of_fitsPlain`). The end of the line
belongs to the white space behind a plain scalar, and the next line ends the scalar by being
indented less.
-/

namespace StackFlow.Yaml

/-! ## Characters -/

/-- Whether a text begins with what a scanner does not skip, or is at its end. -/
def beginsToken : List Char → Bool
  | [] => true
  | c :: _ => !(isBlank c || isBreak c || c == '#')

section Printable

variable {c : Char} (h : isPrintableAscii c = true)
include h

/-- A printable character ends no line. -/
theorem isBreak_of_isPrintableAscii : isBreak c = false := by
  rw [Bool.eq_false_iff]
  intro hbreak
  simp only [isBreak, Bool.or_eq_true, beq_iff_eq] at hbreak
  rcases hbreak with (((rfl | rfl) | rfl) | rfl) | rfl <;> exact absurd h (by decide)

/-- The only printable character that is white space is the space. -/
theorem isBlank_of_isPrintableAscii : isBlank c = (c == ' ') := by
  have htab : (c == '\t') = false := by
    rw [beq_eq_false_iff_ne]
    rintro rfl
    exact absurd h (by decide)
  rw [isBlank, htab, Bool.or_false]

/-- The codes of printable characters. -/
theorem toNat_of_isPrintableAscii : 0x20 ≤ c.toNat ∧ c.toNat ≤ 0x7e := by
  rw [isPrintableAscii, Bool.and_eq_true, decide_eq_true_iff, decide_eq_true_iff] at h
  exact ⟨h.1, h.2⟩

/-- A printable character is shown as it is. -/
theorem isShown_of_isPrintableAscii : isShown c = true := by
  obtain ⟨hlow, hhigh⟩ := toNat_of_isPrintableAscii h
  simp [isShown, hlow, hhigh]

/-- A printable character may stand in a document. -/
theorem isAllowed_of_isPrintableAscii : isAllowed c = true := by
  obtain ⟨hlow, hhigh⟩ := toNat_of_isPrintableAscii h
  simp [isAllowed, hlow, hhigh]

end Printable

/-- A test that one character passes and another fails tells them apart. -/
theorem ne_of_test {p : Char → Bool} {c d : Char} (h : p c = true) (hd : p d = false) : c ≠ d := by
  rintro rfl
  rw [hd] at h
  exact absurd h (by decide)

/-- Moving on twice is moving on by the sum. -/
@[simp]
theorem Mark.forward_forward (m : Mark) (a b : Nat) :
    (m.forward a).forward b = m.forward (a + b) := by
  simp [Mark.forward, Nat.add_assoc]

namespace Gap

variable {gap : Gap}

/-- A blank joins the blanks before it. -/
theorem text_addBlank (h : gap.isBroken = false) (c : Char) :
    (gap.addBlank c).text = gap.text ++ [c] := by
  cases gap with
  | none => rfl
  | blanks s => rfl
  | broken first more => nomatch h

/-- A blank ends no line. -/
theorem isBroken_addBlank (gap : Gap) (c : Char) : (gap.addBlank c).isBroken = gap.isBroken := by
  cases gap <;> rfl

/-- Behind a blank there is a gap. -/
theorem addBlank_ne_none (gap : Gap) (c : Char) : (gap.addBlank c != .none) = true := by
  cases gap <;> rfl

end Gap

/-! ## Words -/

/-- Whether a text is a letter or digit, maybe behind a hyphen, and characters of names. -/
def isWord : List Char → Bool
  | '-' :: c :: cs => c.isAlphanum && cs.all isNameChar
  | c :: cs => c.isAlphanum && cs.all isNameChar
  | [] => false

/-- Characters of names are neither white space nor marks, save that a hyphen may be one. -/
theorem marks_of_isNameChar {c : Char} (h : isNameChar c = true) :
    isBlank c = false ∧ isBreak c = false ∧ endsFlowPlain c = false ∧ c ≠ ':' := by
  have hne : ∀ d : Char, isNameChar d = false → (c == d) = false :=
    fun d hd => beq_eq_false_iff_ne.2 (ne_of_test h hd)
  simp (disch := decide) only [isBlank, isBreak, endsFlowPlain, hne, Bool.or_false, true_and]
  exact ne_of_test h rfl

/-- A word begins with a letter or digit, or with a hyphen before one. -/
theorem exists_cons_of_isWord {cs : List Char} (h : isWord cs = true) :
    ∃ c ds, cs = c :: ds ∧ (c :: ds).all isNameChar = true ∧
      (c.isAlphanum = true ∨ ∃ d ds', ds = d :: ds' ∧ d.isAlphanum = true) := by
  have hname : ∀ {c : Char}, c.isAlphanum = true → isNameChar c = true := by
    intro c hc
    simp [isNameChar, hc]
  unfold isWord at h
  split at h
  next c ds =>
    rw [Bool.and_eq_true] at h
    have hhyphen : isNameChar '-' = true := rfl
    exact ⟨'-', c :: ds, rfl, by simp [hhyphen, hname h.1, h.2], .inr ⟨c, ds, rfl, h.1⟩⟩
  next c ds _ =>
    rw [Bool.and_eq_true] at h
    exact ⟨c, ds, rfl, by simp [hname h.1, h.2], .inl h.1⟩
  next => exact absurd h (by decide)

/-- A decimal is a word. -/
theorem isWord_of_isDecimal {cs : List Char} (h : isDecimal cs = true) : isWord cs = true := by
  have hdigit : ∀ {c : Char}, c.isDigit = true → c.isAlphanum = true := by
    intro c hc
    simp [Char.isAlphanum, hc]
  have hall : ∀ {ds : List Char}, ds.all Char.isDigit = true → ds.all isNameChar = true := by
    intro ds hds
    rw [List.all_eq_true] at hds ⊢
    intro c hc
    simp [isNameChar, hdigit (hds c hc)]
  obtain ⟨c, ds, rfl, hds, hc | ⟨rfl, hne⟩⟩ := exists_cons_of_isDecimal h
  · have hhyphen : c ≠ '-' := ne_of_test hc rfl
    simp [isWord, hhyphen, hdigit hc, hall hds]
  · cases ds with
    | nil => exact absurd rfl hne
    | cons d ds =>
      rw [List.all_cons, Bool.and_eq_true] at hds
      simp [isWord, hdigit hds.1, hall hds.2]

/-! ## Plain scalars -/

/-- Whether a plain scalar goes on through a text up to what comes `after` it, given whether a blank
stands before the text. -/
def continuesPlain (flow : Bool) (after : List Char) : Bool → List Char → Bool
  | blank, [] => !blank
  | blank, c :: cs =>
    if isBlank c then continuesPlain flow after true cs
    else
      !isBreak c && !(blank && c == '#') && !(c == ':' && atSpace (cs ++ after)) &&
        !(flow && endsFlowPlain c) && continuesPlain flow after false cs

section Plain

variable {flow : Bool} {indent : Int} {start m : Mark} {text cs after tok : List Char} {gap : Gap}

/-- A plain scalar takes a text through which it goes on. -/
theorem readPlain_append (h : continuesPlain flow after (gap != .none) cs = true)
    (hgap : gap.isBroken = false) (hm : (m.column == 0 && atDocumentMark (cs ++ after)) = false) :
    readPlain flow indent start text gap ⟨cs ++ after, m⟩ =
      readPlain flow indent start (text ++ gap.text ++ cs) .none ⟨after, m.forward cs.length⟩ := by
  induction cs generalizing text gap m with
  | nil =>
    -- no blank may be left over at the end
    obtain rfl : gap = .none := by simpa [continuesPlain] using h
    simp [Gap.text, Mark.forward]
  | cons c cs ih =>
    -- only at the begin of a line a mark of a document could stand
    have hcolumn : ((m.forward 1).column == 0 && atDocumentMark (cs ++ after)) = false := by
      simp [Mark.forward]
    rw [continuesPlain] at h
    rw [List.cons_append, readPlain.eq_def]
    dsimp only
    split at h
    next hblank =>
      rw [if_pos hblank, if_neg (by simp [hgap]), ih ?_ ?_ hcolumn]
      · rw [Gap.text_addBlank hgap]
        simp [Nat.add_comm]
      · rw [Gap.addBlank_ne_none]
        exact h
      · rw [Gap.isBroken_addBlank]
        exact hgap
    next hblank =>
      simp only [Bool.and_eq_true, Bool.not_eq_true'] at h
      obtain ⟨⟨⟨⟨hbreak, hhash⟩, hcolon⟩, hflow⟩, hrest⟩ := h
      have hnone : continuesPlain flow after (Gap.none != .none) cs = true := hrest
      have hends : plainEnds flow indent gap ⟨c :: (cs ++ after), m⟩ = false := by
        rw [List.cons_append] at hm
        simp only [plainEnds, hgap, hm, hhash, hcolon, hflow, Bool.false_and, Bool.or_false]
      rw [if_neg hblank, if_neg (by simp [hbreak]), if_neg (by simp [hends]), ih hnone rfl hcolumn]
      simp [Gap.text, Nat.add_comm]

/-- Indentation behind a line break adds nothing to a plain scalar. -/
theorem readPlain_spaces (first more : List Char) (n : Nat) :
    readPlain flow indent start text (.broken first more) ⟨spaces n ++ tok, m⟩ =
      readPlain flow indent start text (.broken first more) ⟨tok, m.forward n⟩ := by
  induction n generalizing m with
  | zero => rfl
  | succ n ih =>
    have hspaces : spaces (n + 1) ++ tok = ' ' :: (spaces n ++ tok) := rfl
    rw [hspaces, readPlain.eq_def]
    dsimp only
    rw [if_pos (by decide), if_neg (by simp), Gap.addBlank, ih]
    simp [Nat.add_comm]

/-- The next line ends a plain scalar if it is indented less. -/
theorem readPlain_lineEnd {column : Nat} (hcolumn : (column : Int) < indent)
    (htok : beginsToken tok = true) :
    readPlain false indent start text .none ⟨'\n' :: (spaces column ++ tok), m⟩ =
      .ok ⟨text, ⟨tok, (m.nextLine 1).forward column⟩, true⟩ := by
  rw [readPlain.eq_def]
  dsimp only
  rw [if_neg (by decide), if_pos (by decide)]
  have hskip : Cursor.skipBreak ⟨'\n' :: (spaces column ++ tok), m⟩ =
      ⟨spaces column ++ tok, m.nextLine 1⟩ := rfl
  rw [hskip, Gap.addBreak, readPlain_spaces, readPlain.eq_def]
  · cases tok with
    | nil => rfl
    | cons c rest =>
      simp only [beginsToken, Bool.not_eq_true', Bool.or_eq_false_iff] at htok
      have hends : plainEnds false indent
          (.broken (Cursor.breakText ⟨'\n' :: (spaces column ++ c :: rest), m⟩) [])
          ⟨c :: rest, (m.nextLine 1).forward column⟩ = true := by
        simp [plainEnds, Gap.isBroken, hcolumn, Mark.forward, Mark.nextLine]
      dsimp only
      rw [if_neg (by simp [htok]), if_neg (by simp [htok]), if_pos hends]
      rfl
  · nofun

/-- A plain scalar that takes a line. -/
theorem readPlain_line {column : Nat} (hcolumn : (column : Int) < indent)
    (htok : beginsToken tok = true) (hm : 0 < m.column)
    (h : continuesPlain false ('\n' :: (spaces column ++ tok)) false cs = true) :
    readPlain false indent start [] .none ⟨cs ++ '\n' :: (spaces column ++ tok), m⟩ =
      .ok ⟨cs, ⟨tok, ((m.forward cs.length).nextLine 1).forward column⟩, true⟩ := by
  have hmark :
      (m.column == 0 && atDocumentMark (cs ++ '\n' :: (spaces column ++ tok))) = false := by
    rw [beq_eq_false_iff_ne.2 (Nat.ne_of_gt hm), Bool.false_and]
  rw [readPlain_append h rfl hmark, readPlain_lineEnd hcolumn htok]
  simp [Gap.text]

/-- A plain scalar that a mark on its line ends. -/
theorem readPlain_until {d : Char} {rest : List Char}
    (hd : beginsToken (d :: rest) = true)
    (hends : ((d == ':' && atSpace rest) || (flow && endsFlowPlain d)) = true)
    (hm : (m.column == 0 && atDocumentMark (cs ++ d :: rest)) = false)
    (h : continuesPlain flow (d :: rest) false cs = true) :
    readPlain flow indent start [] .none ⟨cs ++ d :: rest, m⟩ =
      .ok ⟨cs, ⟨d :: rest, m.forward cs.length⟩, false⟩ := by
  rw [readPlain_append h rfl hm, readPlain.eq_def]
  simp only [beginsToken, Bool.not_eq_true', Bool.or_eq_false_iff] at hd
  have hplain : plainEnds flow indent .none ⟨d :: rest, m.forward cs.length⟩ = true := by
    rw [Bool.or_eq_true] at hends
    rcases hends with hends | hends <;> simp [plainEnds, hends]
  dsimp only
  rw [if_neg (by simp [hd]), if_neg (by simp [hd]), if_pos hplain]
  simp [Gap.text, Gap.isBroken]

/-- A plain scalar goes on through a word. -/
theorem continuesPlain_of_all_isNameChar (h : cs.all isNameChar = true) :
    continuesPlain flow after false cs = true := by
  induction cs with
  | nil => rfl
  | cons c cs ih =>
    rw [List.all_cons, Bool.and_eq_true] at h
    obtain ⟨hblank, hbreak, hflow, hcolon⟩ := marks_of_isNameChar h.1
    simp [continuesPlain, hblank, hbreak, hflow, hcolon, ih h.2]

end Plain

/-! ## Texts that fit plain scalars -/

section FitsPlain

variable {c before : Char} {cs after : List Char}

/-- Behind a printable text only a blank counts as white space. -/
theorem atSpace_append (h : cs.all isPrintableAscii = true) (hafter : atSpace after = true) :
    atSpace (cs ++ after) = (cs.isEmpty || (cs.head?.map isBlank).getD false) := by
  cases cs with
  | nil => simpa using hafter
  | cons c cs =>
    rw [List.all_cons, Bool.and_eq_true] at h
    simp [atSpace, isBreak_of_isPrintableAscii h.1]

/-- Without marks a plain scalar goes on to the last character that is no space. -/
theorem continuesPlain_of_holdsMark (hprintable : (before :: cs).all isPrintableAscii = true)
    (hmark : holdsMark before cs = false) (hlast : (before :: cs).getLast? ≠ some ' ')
    (hafter : atSpace after = true) :
    continuesPlain false after (isBlank before) cs = true := by
  induction cs generalizing before with
  | nil =>
    rw [List.all_cons, Bool.and_eq_true] at hprintable
    have hbefore : before ≠ ' ' := by simpa using hlast
    simp [continuesPlain, isBlank_of_isPrintableAscii hprintable.1, hbefore]
  | cons c cs ih =>
    rw [List.all_cons, Bool.and_eq_true] at hprintable
    obtain ⟨hbefore, hcs⟩ := hprintable
    have hc : isPrintableAscii c = true ∧ cs.all isPrintableAscii = true := by
      rwa [List.all_cons, Bool.and_eq_true] at hcs
    rw [holdsMark, Bool.or_eq_false_iff, Bool.or_eq_false_iff] at hmark
    obtain ⟨⟨hcolon, hhash⟩, hrest⟩ := hmark
    rw [List.getLast?_cons_cons] at hlast
    have hnext := ih hcs hrest hlast
    rw [continuesPlain]
    split
    next hblank =>
      rw [hblank] at hnext
      exact hnext
    next hblank =>
      rw [Bool.not_eq_true] at hblank
      rw [hblank] at hnext
      rw [isBreak_of_isPrintableAscii hbefore, Bool.or_false, Bool.and_comm] at hhash
      rw [isBreak_of_isPrintableAscii hc.1, hhash, atSpace_append hc.2 hafter, hcolon, hnext]
      rfl

/-- What a text that fits a plain scalar is: its first character is neither a space nor a mark by
itself, and what is a mark before a blank is not before one. -/
theorem begins_of_fitsPlain (hprintable : (c :: cs).all isPrintableAscii = true)
    (h : fitsPlain (c :: cs) = true) :
    isBlank c = false ∧ (c :: cs).getLast? ≠ some ' ' ∧ beginsWithMark (c :: cs) = false ∧
      holdsMark c cs = false := by
  rw [List.all_cons, Bool.and_eq_true] at hprintable
  simp only [fitsPlain, List.head?_cons, Bool.and_eq_true, bne_iff_ne, Bool.not_eq_true'] at h
  obtain ⟨⟨⟨⟨⟨⟨-, hhead⟩, hlast⟩, -⟩, -⟩, hmark⟩, hholds⟩ := h
  have hspace : c ≠ ' ' := fun hc => hhead (by rw [hc])
  refine ⟨?_, hlast, hmark, hholds⟩
  rw [isBlank_of_isPrintableAscii hprintable.1, beq_eq_false_iff_ne]
  exact hspace

/-- A text that fits a plain scalar is one. -/
theorem continuesPlain_of_fitsPlain (hprintable : (c :: cs).all isPrintableAscii = true)
    (h : fitsPlain (c :: cs) = true) (hafter : atSpace after = true) :
    continuesPlain false after false (c :: cs) = true := by
  obtain ⟨hblank, hlast, hmark, hholds⟩ := begins_of_fitsPlain hprintable h
  have hrest := continuesPlain_of_holdsMark hprintable hholds hlast hafter
  rw [List.all_cons, Bool.and_eq_true] at hprintable
  have hcolon : (c == ':' && atSpace (cs ++ after)) = false := by
    rw [atSpace_append hprintable.2 hafter]
    rcases eq_or_ne c ':' with rfl | hc
    · simpa [beginsWithMark] using hmark
    · rw [beq_eq_false_iff_ne.2 hc, Bool.false_and]
  rw [hblank] at hrest
  simp [continuesPlain, hblank, isBreak_of_isPrintableAscii hprintable.1, hcolon, hrest]

end FitsPlain

/-! ## Quoted scalars -/

section Quoted

variable {cs after : List Char} {c : Char} (start : Mark) (text : List Char) (gap : Gap) (m : Mark)

/-- A blank in quotes waits for what follows it. -/
theorem readQuoted_blank {double : Bool} (hc : isBlank c = true) :
    readQuoted double start text gap ⟨c :: cs, m⟩ =
      readQuoted double start text (gap.addBlank c) ⟨cs, m.forward 1⟩ := by
  rw [readQuoted.eq_def]
  dsimp only
  rw [if_pos hc]

/-- A character in quotes that is neither white space nor a mark stands for itself. -/
theorem readQuoted_char {double : Bool} (hm : 0 < m.column) (hblank : isBlank c = false)
    (hbreak : isBreak c = false)
    (hc : (if double then c == '"' || c == '\\' else c == '\'') = false) :
    readQuoted double start text gap ⟨c :: cs, m⟩ =
      readQuoted double start (text ++ gap.text ++ [c]) .none ⟨cs, m.forward 1⟩ := by
  have hcolumn : (m.column == 0) = false := beq_eq_false_iff_ne.2 (Nat.ne_of_gt hm)
  rw [readQuoted.eq_def]
  cases double <;> simp_all

/-- The mark of the quotes ends what is between them. -/
theorem readQuoted_mark (double : Bool) (hm : 0 < m.column)
    (hafter : after.head? ≠ some '\'') :
    readQuoted double start text gap ⟨quoteMark double :: after, m⟩ =
      .ok (text ++ gap.text, ⟨after, m.forward 1⟩) := by
  have hcolumn : (m.column == 0) = false := beq_eq_false_iff_ne.2 (Nat.ne_of_gt hm)
  rw [readQuoted.eq_def]
  cases double <;> simp [quoteMark, isBlank, isBreak, hcolumn, hafter]

/-- A printable character that is no blank is read from its form between quotes. -/
theorem readQuoted_form (double : Bool) (rest : List Char) (hm : 0 < m.column)
    (hc : isPrintableAscii c = true) (hblank : isBlank c = false) :
    ∃ k, readQuoted double start text gap ⟨quotedForm double c ++ rest, m⟩ =
      readQuoted double start (text ++ gap.text ++ [c]) .none ⟨rest, m.forward (k + 1)⟩ := by
  have hbreak := isBreak_of_isPrintableAscii hc
  have hcolumn : (m.column == 0) = false := beq_eq_false_iff_ne.2 (Nat.ne_of_gt hm)
  cases double with
  | true =>
    by_cases hmark : (c == '"' || c == '\\') = true
    · -- an escape is a backslash before the character
      have hescape : readEscape start m (c :: rest) = .ok (c, 1) := by
        rw [Bool.or_eq_true, beq_iff_eq, beq_iff_eq] at hmark
        rcases hmark with rfl | rfl <;> rfl
      have hslash : isBreak '\\' = false := rfl
      have hform : quotedForm true c ++ rest = '\\' :: c :: rest := by simp [quotedForm, hmark]
      refine ⟨1, ?_⟩
      rw [hform, readQuoted.eq_def]
      simp [isBlank, hcolumn, atLineEnd, hbreak, hescape, hslash]
    · refine ⟨0, ?_⟩
      rw [Bool.not_eq_true] at hmark
      simp only [quotedForm, hmark, if_true, Bool.false_eq_true, if_false, List.singleton_append]
      exact readQuoted_char _ _ _ _ hm hblank hbreak hmark
  | false =>
    by_cases hquote : (c == '\'') = true
    · -- a quote is written twice
      rw [beq_iff_eq] at hquote
      subst hquote
      refine ⟨1, ?_⟩
      rw [readQuoted.eq_def]
      simp [quotedForm, isBlank, hcolumn, isBreak]
    · refine ⟨0, ?_⟩
      rw [Bool.not_eq_true] at hquote
      simp only [quotedForm, hquote, Bool.false_eq_true, if_false, List.singleton_append]
      exact readQuoted_char _ _ _ _ hm hblank hbreak hquote

/-- A text between quotes gives itself back. -/
theorem readQuoted_body (double : Bool) (hprintable : cs.all isPrintableAscii = true)
    (hgap : gap.isBroken = false) (hm : 0 < m.column) (hafter : after.head? ≠ some '\'') :
    ∃ m', readQuoted double start text gap
        ⟨cs.flatMap (quotedForm double) ++ quoteMark double :: after, m⟩ =
      .ok (text ++ gap.text ++ cs, ⟨after, m'⟩) := by
  induction cs generalizing text gap m with
  | nil =>
    refine ⟨m.forward 1, ?_⟩
    rw [List.flatMap_nil, List.nil_append, List.append_nil]
    exact readQuoted_mark _ _ _ _ double hm hafter
  | cons c cs ih =>
    rw [List.all_cons, Bool.and_eq_true] at hprintable
    obtain ⟨hc, hcs⟩ := hprintable
    rw [List.flatMap_cons, List.append_assoc]
    cases hblank : isBlank c with
    | true =>
      -- the blank is kept in the gap until the next character comes
      have hspace : c = ' ' := by
        rw [isBlank_of_isPrintableAscii hc, beq_iff_eq] at hblank
        exact hblank
      have hform : quotedForm double c = [c] := by
        subst hspace
        cases double <;> rfl
      obtain ⟨m', ih⟩ := ih text _ (m.forward 1) hcs ((Gap.isBroken_addBlank gap c).trans hgap)
        (Nat.succ_pos _)
      refine ⟨m', ?_⟩
      rw [hform, List.singleton_append, readQuoted_blank _ _ _ _ hblank, ih,
        Gap.text_addBlank hgap]
      simp
    | false =>
      obtain ⟨k, hform⟩ := readQuoted_form start text gap m double
        (cs.flatMap (quotedForm double) ++ quoteMark double :: after) hm hc hblank
      obtain ⟨m', ih⟩ := ih (text ++ gap.text ++ [c]) .none (m.forward (k + 1)) hcs rfl
        (Nat.succ_pos _)
      refine ⟨m', ?_⟩
      rw [hform, ih]
      simp [Gap.text]

end Quoted

/-! ## Styles -/

/-- A text without line breaks is written between single quotes with its quotes doubled. -/
theorem singleQuotedBody_eq (indent : Nat) {cs : List Char}
    (h : cs.all isPrintableAscii = true) :
    singleQuotedBody indent false cs = cs.flatMap (quotedForm false) := by
  induction cs with
  | nil => rfl
  | cons c cs ih =>
    rw [List.all_cons, Bool.and_eq_true] at h
    rw [singleQuotedBody, if_neg (by simp [isBreak_of_isPrintableAscii h.1]), ih h.2,
      List.flatMap_cons]
    rfl

/-- A printable text is written between double quotes with escapes for its marks only. -/
theorem doubleQuotedBody_eq {cs : List Char} (h : cs.all isPrintableAscii = true) :
    doubleQuotedBody cs = cs.flatMap (quotedForm true) := by
  have hhead : (cs.head? == some '\ufeff') = false := by
    rw [beq_eq_false_iff_ne]
    intro hmark
    exact absurd (List.all_eq_true.1 h _ (List.mem_of_head? hmark)) (by decide)
  unfold doubleQuotedBody
  rw [hhead]
  refine List.flatMap_congr (fun c hc => ?_)
  have hprintable := List.all_eq_true.1 h c hc
  rw [isShown_of_isPrintableAscii hprintable, isBreak_of_isPrintableAscii hprintable]
  by_cases hquote : c = '"'
  · rw [hquote]
    rfl
  · by_cases hslash : c = '\\'
    · rw [hslash]
      rfl
    · simp [quotedForm, hquote, hslash]

/-- A printable text is written plain only if it reads back as a text, and else in quotes. -/
theorem styleOf_cases {s : String} (h : s.toList.all isPrintableAscii = true) :
    (styleOf s = .plain ∧ readsAsText s = true ∧ fitsPlain s.toList = true) ∨
      styleOf s = .singleQuoted ∨ styleOf s = .doubleQuoted := by
  have hline : s.toList.contains '\n' = false := by
    rw [Bool.eq_false_iff]
    intro hmem
    exact absurd (List.all_eq_true.1 h _ (List.contains_iff_mem.1 hmem)) (by decide)
  unfold styleOf
  dsimp only
  rw [hline]
  cases hreads : readsAsText s with
  | false => exact .inr (.inr rfl)
  | true =>
    cases hfits : fitsPlain s.toList with
    | true => exact .inl ⟨rfl, rfl, rfl⟩
    | false =>
      cases fitsSingleQuotes s.toList with
      | true => exact .inr (.inl rfl)
      | false => exact .inr (.inr rfl)

end StackFlow.Yaml
