import StackFlow.GraphDocument.Read
import StackFlow.GraphDocument.Write
import StackFlow.Proofs.DocumentTree
import StackFlow.Proofs.LaidOutValues

/-!
# Documents are read back

A document that a library writes it also reads back, as far as it keeps to what is documented of
libraries (`GraphDocument.decode_encode_restores`). The library at hand does (`library_documented`).
For this `Gives read a n` says of a reader of nodes that the node `n` gives it the value `a` without
a mismatch. Along a type it is shown that the tokens of a text stand for such a node: a list is
given by nodes for its items, and a record by entries with different keys that each set one field.
-/

namespace StackFlow

namespace Yaml

namespace Scalar

/-! ## Texts -/

/-- A reserved word is no text. -/
theorem tag_ne_of_word? {s : String} {v : Scalar} (h : word? s = some v) : v.tag ≠ textTag := by
  unfold word? at h
  split at h <;> cases h <;> simp [tag, textTag]

/-- A number is no text. -/
theorem tag_ne_of_number? {cs : List Char} {v : Scalar} (h : number? cs = some v) :
    v.tag ≠ textTag := by
  unfold number? at h
  split at h
  next => cases h; simp [tag, textTag]
  next =>
    split at h
    next => cases h; simp [tag, textTag]
    next =>
      split at h
      next => cases h; simp [tag, textTag]
      next =>
        obtain ⟨i, -, rfl⟩ := Option.map_eq_some_iff.1 h
        simp [tag, textTag]

/-- A number that begins with a point is no text. -/
theorem tag_ne_of_pointNumber? {cs : List Char} {v : Scalar} (h : pointNumber? cs = some v) :
    v.tag ≠ textTag := by
  unfold pointNumber? at h
  split at h
  next =>
    obtain ⟨x, -, rfl⟩ := Option.map_eq_some_iff.1 h
    simp [tag, textTag]
  next => cases h

/-- A plain text stands for itself or for something that is no text. -/
theorem resolve_cases (times : Bool) (s : String) :
    resolve times s = .text s ∨ (resolve times s).tag ≠ textTag := by
  have hgetD : ∀ o : Option Scalar, (∀ v, o = some v → v.tag ≠ textTag) →
      o.getD (.text s) = .text s ∨ (o.getD (.text s)).tag ≠ textTag := by
    intro o ho
    cases o with
    | none => exact .inl rfl
    | some v => exact .inr (ho v rfl)
  unfold resolve
  split
  next v hv => exact .inr (tag_ne_of_word? hv)
  next =>
    split
    next => exact hgetD _ (fun v => tag_ne_of_pointNumber?)
    next =>
      split
      next =>
        split
        next => exact .inr (by simp [tag, textTag])
        next => exact hgetD _ (fun v => tag_ne_of_number?)
      next => exact .inl rfl
    next => exact .inl rfl

/-- A text in quotes stands for itself, and so does one without quotes that is no number or the
like. -/
theorem ofNode_of_isText {t : String} {style : ScalarStyle}
    (h : style = .plain → library.isText t = true) : ofNode none t style = .ok (.text t) := by
  simp only [ofNode, Except.ok.injEq]
  -- the mark of merged mappings is a text, too, where no tag is given
  split
  next hplain =>
    rw [Bool.and_eq_true, decide_eq_true_iff] at hplain
    have htag : (resolve true t).tag = textTag := beq_iff_eq.1 (h hplain.1)
    exact (resolve_cases true t).resolve_right (not_not_intro htag)
  next => rfl

/-- The digits of an integer stand for it. -/
theorem ofNode_decimal (i : Int64) : ofNode none (decimal i) .plain = .ok (.int i.toInt) := by
  have hmerge : decimal i ≠ "<<" := by
    intro h
    have hword := isWord_of_isDecimal (isDecimal_decimal i)
    rw [h] at hword
    exact absurd hword (by decide)
  simp [ofNode, hmerge, resolve_decimal]

end Scalar

/-- The empty text stands for nothing. -/
theorem ne_empty_of_isText {t : String} (h : library.isText t = true) : t ≠ "" := by
  rintro rfl
  exact absurd h (by decide)

namespace Typing

variable {α β σ : Type}

/-! ## Values -/

/-- A node gives a value, without a mismatch and wherever it stands. -/
def Gives (read : Scope → Node → Typing (Option α)) (a : α) (n : Node) : Prop :=
  ∀ sc, read sc n = pure (some a)

/-- The digits of an integer give it. -/
theorem gives_integer (wanted : String) (i : Int64) (m : Mark) :
    Gives (integer wanted) i (.scalar m none (decimal i) .plain) := by
  intro sc
  have hbound : i.toInt < Number.signedBound := i.toInt_lt
  simp [integer, follow, scalarValue, Scalar.ofNode_decimal, hbound]

/-- A scalar that stands for a text gives it. -/
theorem gives_string (wanted : String) {t : String} {style : ScalarStyle}
    (h : style = .plain → library.isText t = true) (m : Mark) :
    Gives (string wanted) t (.scalar m none t style) := by
  intro sc
  simp [string, follow, scalarValue, Scalar.ofNode_of_isText h]

/-- Nodes that all give a value give the list of these. -/
theorem filterMapM_eq {item : Node → Typing (Option α)} {as : List α} {ns : List Node}
    (h : List.Forall₂ (fun a n => item n = pure (some a)) as ns) :
    ns.filterMapM item = pure as := by
  induction h with
  | nil => rfl
  | cons hn _ ih => rw [List.filterMapM_cons, hn, ih]; rfl

/-- A sequence of nodes for its items gives a list. -/
theorem gives_list (wanted : String) {item : Scope → Node → Typing (Option α)}
    {items : List (β × α)} {n : Node}
    (h : Read.IsSequence (List.Forall₂ (fun x => Gives item x.2) items) n) :
    Gives (list wanted item) (items.map (·.2)) n := by
  intro sc
  obtain ⟨m, ns, rfl, hns⟩ := h
  have hvalues : List.Forall₂ (fun a n => item sc n = pure (some a)) (items.map (·.2)) ns :=
    List.forall₂_map_left_iff.2 (hns.imp (fun x n hn => hn sc))
  simp [list, follow, filterMapM_eq hvalues]

/-! ## Records -/

/-- Keys with different texts are different keys. -/
theorem uniqueKeys_eq {ks : List Node} (h : (ks.map Node.text).Nodup) :
    uniqueKeys ks = pure true := by
  induction ks with
  | nil => rfl
  | cons k ks ih =>
    rw [List.map_cons, List.nodup_cons] at h
    have hagain : (ks.filter fun k' => k.sameKind k' && k.text == k'.text) = [] := by
      rw [List.filter_eq_nil_iff]
      intro k' hk' hsame
      rw [Bool.and_eq_true, beq_iff_eq] at hsame
      exact h.1 (hsame.2 ▸ List.mem_map_of_mem hk')
    simp [uniqueKeys, hagain, ih h.2]

/-- A node gives a field the value by which its line changes the record. -/
def SetBy (field? : String → Option (Scope → Node → σ → Typing σ)) (l : FieldLine σ)
    (n : Node) : Prop :=
  ∃ change, field? l.name = some change ∧ ∀ sc s, change sc n s = pure (l.change s)

section SetBy

variable {fuel : Nat} {tag : FieldTag} {target : Target α} {get : σ → α} {set : σ → α → σ}
  {rest : Fields σ} {l : FieldLine σ} {n : Node}

/-- The value of the first field sets it. -/
theorem setBy_here {a : α} (hname : l.name = tag.name) (hchange : l.change = (set · a))
    (hn : Gives (Typing.value fuel target) a n) :
    SetBy (Typing.field? fuel (.cons tag target get set rest)) l n := by
  refine ⟨setting (Typing.value fuel target) set, by simp [Typing.field?, hname], fun sc s => ?_⟩
  simp [setting, hn sc, hchange]

/-- A field of another name is set as without the first one. -/
theorem setBy_later (hname : l.name ≠ tag.name) (h : SetBy (Typing.field? fuel rest) l n) :
    SetBy (Typing.field? fuel (.cons tag target get set rest)) l n := by
  obtain ⟨change, hfield, hchange⟩ := h
  exact ⟨change, by simp [Typing.field?, hname, hfield], hchange⟩

end SetBy

section Record

variable {r : Record σ} {lines : List (FieldLine σ)} {es : List (Node × Node)}

/-- The entries `es` are those of the fields in `lines`. -/
abbrev HoldsFields (r : Record σ) (lines : List (FieldLine σ)) (es : List (Node × Node)) : Prop :=
  List.Forall₂ (fun l => Read.IsEntry l.name (SetBy r.field? l)) lines es

/-- The keys of the entries are the names of the fields. -/
theorem texts_of_holdsFields (hes : HoldsFields r lines es) :
    (es.map (·.1)).map Node.text = lines.map FieldLine.name := by
  induction hes with
  | nil => rfl
  | cons he _ ih =>
    obtain ⟨⟨m, hnode⟩, -⟩ := he
    simp [hnode, Node.text, ih]

/-- An entry sets the field of its name, which was not given before. -/
theorem entry_eq {l : FieldLine σ} {e : Node × Node} (hname : IsFieldName library.isText l.name)
    (he : Read.IsEntry l.name (SetBy r.field? l) e) {given : List String}
    (hgiven : l.name ∉ given) (sc : Scope) (s : σ) :
    entry r sc ⟨s, given, none, none⟩ e = pure ⟨l.change s, l.name :: given, none, none⟩ := by
  obtain ⟨⟨m, hnode⟩, change, hfield, hchange⟩ := he
  have hmerge : l.name ≠ "<<" := by
    intro heq
    have hletters := hname.letters
    rw [heq] at hletters
    exact absurd hletters (by decide)
  have hstring := gives_string "string" (fun _ : ScalarStyle.plain = .plain => hname.isText_eq) m sc
  simp [entry, hnode, Node.isMerge, hmerge, hstring, hfield, hgiven, hchange]

/-- The entries of a mapping set the fields one after the other. -/
theorem foldlM_entry_eq (hes : HoldsFields r lines es)
    (hnames : ∀ l ∈ lines, IsFieldName library.isText l.name)
    (hnodup : (lines.map FieldLine.name).Nodup) (sc : Scope) :
    ∀ (s : σ) (given : List String), (∀ l ∈ lines, l.name ∉ given) →
      ∃ given', es.foldlM (entry r sc) ⟨s, given, none, none⟩ =
        pure ⟨lines.foldl (fun s l => l.change s) s, given', none, none⟩ := by
  -- the names that are given by now are carried along; none of them comes again
  induction hes with
  | nil => exact fun s given _ => ⟨given, rfl⟩
  | @cons l e lines es he hes ih =>
    intro s given hgiven
    rw [List.map_cons, List.nodup_cons] at hnodup
    have hrest : ∀ l' ∈ lines, l'.name ∉ l.name :: given := by
      intro l' hl' hmem
      rcases List.mem_cons.1 hmem with heq | hmem
      · exact hnodup.1 (heq ▸ List.mem_map_of_mem hl')
      · exact hgiven l' (List.mem_cons_of_mem l hl') hmem
    obtain ⟨given', hfold⟩ :=
      ih (fun l' hl' => hnames l' (List.mem_cons_of_mem l hl')) hnodup.2 (l.change s) _ hrest
    refine ⟨given', ?_⟩
    rw [List.foldlM_cons, entry_eq (hnames l List.mem_cons_self) he (hgiven l List.mem_cons_self),
      pure_bind, hfold, List.foldl_cons]

/-- A mapping with the entries of different fields gives the record that they set. -/
theorem gives_record (hnames : ∀ l ∈ lines, IsFieldName library.isText l.name)
    (hnodup : (lines.map FieldLine.name).Nodup) (fuel : Nat) (zero : σ) {n : Node}
    (h : Read.IsMapping (HoldsFields r lines) n) :
    Gives (record (fuel + 1) r zero) (lines.foldl (fun s l => l.change s) zero) n := by
  intro sc
  obtain ⟨m, es, rfl, hes⟩ := h
  have hunique : uniqueKeys (es.map (·.1)) = pure true :=
    uniqueKeys_eq (by rw [texts_of_holdsFields hes]; exact hnodup)
  obtain ⟨given, hfold⟩ :=
    foldlM_entry_eq hes hnames hnodup sc zero [] (fun _ _ => List.not_mem_nil)
  simp [record, follow, hunique, fill, hfold]

end Record

end Typing

/-! ## Characters of lines -/

/-- Characters of names are printable. -/
theorem isPrintableAscii_of_isNameChar {c : Char} (h : isNameChar c = true) :
    isPrintableAscii c = true := by
  rw [isNameChar, Char.isAlphanum] at h
  delta Char.isAlpha Char.isUpper Char.isLower at h
  simp only [Char.isDigit, Bool.or_eq_true, Bool.and_eq_true, decide_eq_true_iff, beq_iff_eq,
    ge_iff_le, UInt32.le_iff_toNat_le] at h
  rw [isPrintableAscii, Bool.and_eq_true, decide_eq_true_iff, decide_eq_true_iff, Char.le_def,
    Char.le_def, UInt32.le_iff_toNat_le, UInt32.le_iff_toNat_le]
  rcases h with (((h | h) | h) | rfl) | rfl
  · exact ⟨Nat.le_trans (by decide) h.1, Nat.le_trans h.2 (by decide)⟩
  · exact ⟨Nat.le_trans (by decide) h.1, Nat.le_trans h.2 (by decide)⟩
  · exact ⟨Nat.le_trans (by decide) h.1, Nat.le_trans h.2 (by decide)⟩
  · decide
  · decide

/-- The characters of a printable text may stand on a line. -/
theorem all_isLineChar_of_printable {cs : List Char} (h : cs.all isPrintableAscii = true) :
    cs.all isLineChar = true := by
  rw [List.all_eq_true] at h ⊢
  intro c hc
  rw [isLineChar, h c hc, Bool.true_or]

/-- The characters of a word may stand on a line. -/
theorem all_isLineChar_of_isWord {cs : List Char} (h : isWord cs = true) :
    cs.all isLineChar = true := by
  obtain ⟨c, ds, rfl, hall, -⟩ := exists_cons_of_isWord h
  rw [List.all_eq_true] at hall
  exact all_isLineChar_of_printable
    (List.all_eq_true.2 fun d hd => isPrintableAscii_of_isNameChar (hall d hd))

/-- Small letters make a word. -/
theorem isWord_of_all_isLower {cs : List Char} (hne : cs ≠ []) (h : cs.all Char.isLower = true) :
    isWord cs = true := by
  have halphanum : ∀ {c : Char}, c.isLower = true → c.isAlphanum = true := by
    intro c hc
    rw [Char.isAlphanum]
    delta Char.isAlpha
    simp [hc]
  unfold isWord
  split
  next c ds =>
    rw [List.all_cons, Bool.and_eq_true] at h
    exact absurd h.1 (by decide)
  next c ds _ =>
    rw [List.all_cons, Bool.and_eq_true, List.all_eq_true] at h
    rw [halphanum h.1, Bool.true_and, List.all_eq_true]
    intro d hd
    rw [isNameChar, halphanum (h.2 d hd)]
    rfl
  next => exact absurd rfl hne

/-- The name of a field is a word. -/
theorem IsFieldName.isWord {isText : String → Bool} {name : String} (h : IsFieldName isText name) :
    isWord name.toList = true :=
  isWord_of_all_isLower (fun hnil => h.ne_empty (String.toList_eq_nil_iff.1 hnil)) h.letters

/-- The characters of a printable text in quotes may stand on a line. -/
theorem all_isLineChar_inQuotes (double : Bool) {cs : List Char}
    (h : cs.all isPrintableAscii = true) : (inQuotes double cs).all isLineChar = true := by
  have hform : ∀ c ∈ cs, (quotedForm double c).all isLineChar = true := by
    intro c hc
    have hc := List.all_eq_true.1 (all_isLineChar_of_printable h) c hc
    have hslash : isLineChar '\\' = true := rfl
    have hquote : isLineChar '\'' = true := rfl
    unfold quotedForm
    split_ifs <;> simp [hc, hslash, hquote]
  have hmark : isLineChar (quoteMark double) = true := by cases double <;> rfl
  rw [inQuotes, List.all_cons, List.all_append, List.all_flatMap, List.all_eq_true.2 hform, hmark]
  simp [hmark]

/-- Texts of allowed characters with a separator of such between them. -/
theorem all_intercalate {p : Char → Bool} {sep : List Char} {items : List (List Char)}
    (hsep : sep.all p = true) (hitems : ∀ x ∈ items, x.all p = true) :
    (sep.intercalate items).all p = true := by
  induction items with
  | nil => rfl
  | cons x xs ih =>
    cases xs with
    | nil => simpa using hitems x List.mem_cons_self
    | cons y ys =>
      rw [List.intercalate_cons_cons, List.all_append, List.all_append, hsep,
        hitems x List.mem_cons_self, ih (fun z hz => hitems z (List.mem_cons_of_mem x hz))]
      rfl

/-- Spaces may stand on a line. -/
theorem all_isLineChar_spaces (n : Nat) : (spaces n).all isLineChar = true := by
  rw [List.all_eq_true]
  intro c hc
  rw [List.eq_of_mem_replicate hc]
  rfl

/-- A list of such texts between brackets may stand on a line. -/
theorem all_isLineChar_bracketed {items : List (List Char)}
    (h : ∀ x ∈ items, x.all isLineChar = true) : (bracketed items).all isLineChar = true := by
  have hsep : [',', ' '].all isLineChar = true := rfl
  rw [bracketed, List.all_cons, List.all_append, all_intercalate hsep h]
  rfl

/-- Items with a separator before each of them. -/
theorem append_intercalate (sep : List Char) {items : List (List Char)} (h : items ≠ []) :
    sep ++ sep.intercalate items = items.flatMap (sep ++ ·) := by
  induction items with
  | nil => exact absurd rfl h
  | cons x xs ih =>
    cases xs with
    | nil => simp
    | cons y ys =>
      rw [List.intercalate_cons_cons, List.flatMap_cons, ← ih (List.cons_ne_nil y ys)]
      simp

/-- The lines of some things, each behind the spaces of their common column. -/
theorem Lines.intercalate {γ : Type} {start : Lexeme} {column : Nat} {text : γ → List Char}
    {lexemes : γ → List Lexeme} {xs : List γ} (hne : xs ≠ [])
    (h : ∀ x ∈ xs, Lines start column (spaces column ++ text x) (lexemes x)) :
    Lines start column (spaces column ++ (spaces column).intercalate (xs.map text))
      (xs.flatMap lexemes) := by
  rw [append_intercalate _ (by simpa using hne), List.flatMap_map]
  exact Lines.flatMap hne h

/-! ## Tokens of values -/

open Read Typing

variable {α σ : Type} {block : Bool}

/-- The token of a text stands for it. -/
theorem standsFor_text {t : String} {style : ScalarStyle}
    (h : style = .plain → library.isText t = true) (wanted : String) :
    StandsFor block [.scalar t style] (Gives (string wanted) t) := by
  refine (standsFor_scalar t style).imp ?_
  rintro _ ⟨m, rfl⟩
  exact gives_string wanted h m

/-- The token of digits stands for their integer. -/
theorem standsFor_integer (i : Int64) (wanted : String) :
    StandsFor block [.scalar (decimal i) .plain] (Gives (integer wanted) i) := by
  refine (standsFor_scalar (decimal i) .plain).imp ?_
  rintro _ ⟨m, rfl⟩
  exact gives_integer wanted i m

/-- A value that is written on one line has tokens that stand for it, on a line of their own as
well as in lists around it. -/
theorem Inline.exists_lexemes : {α : Type} → (t : Inline α) → t.depth < 10000 →
    {cs : List Char} → {a : α} → t.Spells cs a → cs.all isLineChar = true ∧
      ∃ ls, (∀ depth, depth + t.depth < 10000 → FlowItem depth cs ls) ∧ LineValue cs ls ∧
        ∀ block, StandsFor block ls (Gives (Typing.inline t) a)
  | _, .integer name, _, cs, i, h => by
    obtain rfl : cs = (decimal i).toList := h
    have hword := isWord_of_isDecimal (isDecimal_decimal i)
    exact ⟨all_isLineChar_of_isWord hword, _, fun depth _ => flowItem_word hword depth,
      lineValue_word hword, fun _ => standsFor_integer i name⟩
  | _, .list item, hdepth, cs, xs, h => by
    obtain ⟨items, rfl, rfl, hitems⟩ := h
    rw [Inline.depth] at hdepth
    have hlexemes := fun x hx => item.exists_lexemes (by omega) (hitems x hx)
    choose! hchars ls hflow _ hstands using hlexemes
    refine ⟨all_isLineChar_bracketed (List.forall_mem_map.2 hchars), flowLexemes (items.map ls),
      ?_, ?_, ?_⟩
    · intro depth hfew
      rw [Inline.depth] at hfew
      exact FlowItem.list (by omega) (fun x hx => hflow x hx (depth + 1) (by omega))
    · exact lineValue_list (fun x hx => hflow x hx 0 (by omega))
    · exact fun _ =>
        (standsFor_flow fun x hx => hstands x hx false).imp (fun n hn => gives_list _ hn)

/-- The list without items on a line. -/
theorem lineValue_nil : LineValue (bracketed []) (flowLexemes []) :=
  lineValue_list (List.forall_mem_nil fun cs : List Char => FlowItem 0 cs [])

/-- The text on a line has tokens that stand for a node with `P`, however deep mappings are merged. -/
def TokensOnLine (cs : List Char) (P : Nat → Node → Prop) : Prop :=
  cs.all isLineChar = true ∧ ∃ ls, LineValue cs ls ∧ ∀ fuel, StandsFor true ls (P fuel)

/-- The text in a block has tokens that stand for a node with `P`, if mappings may be merged. -/
def TokensInBlock (column : Nat) (cs : List Char) (P : Nat → Node → Prop) : Prop :=
  cs.all isLineChar = true ∧ ∃ start ls, Lines start column (spaces column ++ cs) ls ∧
    ∀ fuel, StandsFor true (start :: ls ++ [.blockEnd]) (P (fuel + 1))

/-- A value on a line has tokens that stand for it. -/
theorem Target.tokensOnLine {t : Target α} (hdepth : t.depth < 10000) {cs : List Char} {a : α}
    (h : t.OnLine library.isText cs a) :
    TokensOnLine cs (fun fuel => Gives (Typing.value fuel t) a) := by
  cases t with
  | inline t =>
    obtain ⟨hchars, ls, -, hline, hstands⟩ := t.exists_lexemes hdepth h
    exact ⟨hchars, ls, hline, fun _ => hstands true⟩
  | text =>
    obtain ⟨hprintable, hform⟩ := h
    cases hform with
    | plain hfits htext =>
      exact ⟨all_isLineChar_of_printable hprintable, _,
        lineValue_plain hprintable hfits (ne_empty_of_isText htext),
        fun _ => standsFor_text (fun _ => htext) _⟩
    | quoted double =>
      exact ⟨all_isLineChar_inQuotes double hprintable, _, lineValue_quoted double hprintable,
        fun _ => standsFor_text (by cases double <;> nofun) _⟩
  | list item =>
    obtain ⟨rfl, rfl⟩ := h
    refine ⟨rfl, _, lineValue_nil, fun fuel => ?_⟩
    have hnone := List.forall_mem_nil fun x : List Char × _ =>
      StandsFor false [] (Gives (Typing.value fuel item) x.2)
    exact (standsFor_flow hnone).imp (fun n hn => gives_list _ hn)
  | record => exact h.elim

section Lines

variable {column : Nat} (hcolumn : column < 9999) {P : Nat → Node → Prop}
include hcolumn

/-- An item of a list in a block has tokens, whether it stands behind its mark or is a block. -/
theorem exists_lexemes_item {cs : List Char}
    (h : (∃ t, cs = t ++ ['\n'] ∧ TokensOnLine t P) ∨ TokensInBlock (column + 2) cs P) :
    ('-' :: ' ' :: cs).all isLineChar = true ∧
      ∃ ls, Lines .blockSequenceStart column (spaces column ++ '-' :: ' ' :: cs) (itemLexemes ls) ∧
        ∀ fuel, StandsFor true ls (P (fuel + 1)) := by
  rcases h with ⟨t, rfl, hchars, ls, hline, hstands⟩ | ⟨hchars, start, ls, hlines, hstands⟩
  · exact ⟨by simp [hchars, isLineChar, isPrintableAscii], ls, hline.item hcolumn,
      fun fuel => hstands (fuel + 1)⟩
  · exact ⟨by simp [hchars, isLineChar, isPrintableAscii], _, hlines.item hcolumn, hstands⟩

/-- A field of a record has tokens, whether its value stands behind the colon or is a block. -/
theorem exists_lexemes_field {l : FieldLine σ} (hname : IsFieldName library.isText l.name)
    (h : (∃ t, l.text = ' ' :: t ++ ['\n'] ∧ TokensOnLine t P) ∨
      ∃ t, l.text = '\n' :: spaces (column + 2) ++ t ∧ TokensInBlock (column + 2) t P) :
    l.chars.all isLineChar = true ∧
      ∃ ls, Lines .blockMappingStart column (spaces column ++ l.chars) (fieldLexemes l.name ls) ∧
        ∀ fuel, StandsFor true ls (P (fuel + 1)) := by
  have hword := hname.isWord
  have hletters := all_isLineChar_of_isWord hword
  rcases h with ⟨t, ht, hchars, ls, hline, hstands⟩ | ⟨t, ht, hchars, start, ls, hlines, hstands⟩
  · rw [FieldLine.chars, ht]
    exact ⟨by simp [hletters, hchars, isLineChar, isPrintableAscii], ls,
      hline.field _ hword hname.short hcolumn, fun fuel => hstands (fuel + 1)⟩
  · rw [FieldLine.chars, ht]
    exact ⟨by simp [hletters, hchars, all_isLineChar_spaces, isLineChar, isPrintableAscii], _,
      hlines.nested _ hword hname.short hcolumn, hstands⟩

end Lines

mutual

/-- A value in a block has tokens that stand for it. -/
theorem Target.tokensInBlock : {α : Type} → (t : Target α) → (column : Nat) →
    column + 2 * t.depth < 9999 → {cs : List Char} → {a : α} →
    t.InBlock library.isText column cs a →
    TokensInBlock column cs (fun fuel => Gives (Typing.value fuel t) a)
  | _, .inline _, _, _, _, _, h => h.elim
  | _, .text, _, _, _, _, h => h.elim
  | _, .list item, column, hdepth, cs, xs, h => by
    obtain ⟨items, hne, rfl, rfl, hitems⟩ := h
    rw [Target.depth] at hdepth
    have hcolumn : column < 9999 := by omega
    -- each item has tokens, and those of the list are these in turn
    have hlexemes := fun x hx => exists_lexemes_item hcolumn
      ((hitems x hx).imp
        (fun ⟨t, ht, hline⟩ => ⟨t, ht, Target.tokensOnLine (by omega) hline⟩)
        (item.tokensInBlock (column + 2) (by omega)))
    choose! hchars ls hlines hstands using hlexemes
    refine ⟨all_intercalate (all_isLineChar_spaces column) (List.forall_mem_map.2 hchars),
      .blockSequenceStart, _, Lines.intercalate hne hlines, fun fuel => ?_⟩
    exact (standsFor_block fun x hx => hstands x hx fuel).imp (fun n hn => gives_list _ hn)
  | _, .record name zero fields, column, hdepth, cs, s, h => by
    obtain ⟨lines, hne, hnodup, rfl, rfl, hsets⟩ := h
    rw [Target.depth] at hdepth
    -- each field has tokens that set it, and those of the record are these in turn
    have hlexemes := fun l hl => fields.exists_lexemes_sets column (by omega) (hsets l hl)
    choose! hnames hchars ls hlines hstands using hlexemes
    refine ⟨all_intercalate (all_isLineChar_spaces column) (List.forall_mem_map.2 hchars),
      .blockMappingStart, _, Lines.intercalate hne hlines, fun fuel => ?_⟩
    exact (standsFor_mapping fun l hl => hstands l hl fuel).imp
      (fun n hn => gives_record hnames hnodup fuel zero hn)

/-- A line of a record has tokens whose value sets the field. -/
theorem Fields.exists_lexemes_sets : {σ : Type} → (fields : Fields σ) → (column : Nat) →
    column + 2 * (fields.depth + 1) < 9999 → {l : FieldLine σ} →
    fields.Sets library.isText column l →
    IsFieldName library.isText l.name ∧ l.chars.all isLineChar = true ∧
      ∃ ls, Lines .blockMappingStart column (spaces column ++ l.chars) (fieldLexemes l.name ls) ∧
        ∀ fuel, StandsFor true ls (SetBy (Typing.field? (fuel + 1) fields) l)
  | _, .nil, _, _, _, h => h.elim
  | _, .cons tag target get set rest, column, hdepth, l, h => by
    rw [Fields.depth] at hdepth
    have htarget := Nat.le_max_left target.depth rest.depth
    have hrest := Nat.le_max_right target.depth rest.depth
    have hcolumn : column < 9999 := by omega
    rcases h with ⟨hname, hfield, a, hchange, hvalue⟩ | ⟨hname, hsets⟩
    · -- the line is one of the first field
      obtain ⟨hchars, ls, hlines, hstands⟩ := exists_lexemes_field hcolumn hfield
        (hvalue.imp
          (fun ⟨t, ht, hline⟩ => ⟨t, ht, Target.tokensOnLine (by omega) hline⟩)
          (fun ⟨t, ht, hblock⟩ => ⟨t, ht, target.tokensInBlock (column + 2) (by omega) hblock⟩))
      exact ⟨hfield, hchars, ls, hlines,
        fun fuel => (hstands fuel).imp (fun n hn => setBy_here hname hchange hn)⟩
    · obtain ⟨hfield, hchars, ls, hlines, hstands⟩ :=
        rest.exists_lexemes_sets column (by omega) hsets
      exact ⟨hfield, hchars, ls, hlines,
        fun fuel => (hstands fuel).imp (fun n hn => setBy_later hname hn)⟩

end

/-! ## The library at hand -/

/-- A small letter is no digit. -/
theorem isDigit_of_isLower {c : Char} (h : c.isLower = true) : c.isDigit = false := by
  rw [Bool.eq_false_iff]
  intro hdigit
  delta Char.isLower at h
  simp only [Char.isDigit, Bool.and_eq_true, decide_eq_true_iff, ge_iff_le,
    UInt32.le_iff_toNat_le] at h hdigit
  exact absurd (Nat.le_trans h.1 hdigit.2) (by decide)

/-- A word of small letters stands for its text, except for the few that are reserved. -/
theorem Scalar.tag_resolve_word {s : String} (hne : s ≠ "")
    (hletters : s.toList.all Char.isLower = true) (hfree : s ∉ reservedWords) :
    (Scalar.resolve true s).tag = Scalar.textTag := by
  have hword : Scalar.word? s = none := by
    unfold Scalar.word?
    split
    all_goals first
      | rfl
      | exact absurd rfl hne
      | exact absurd hletters (by decide)
      | exact absurd hfree (by decide)
  unfold Scalar.resolve
  rw [hword]
  dsimp only
  split
  next cs hcs =>
    rw [hcs, List.all_cons, Bool.and_eq_true] at hletters
    exact absurd hletters.1 (by decide)
  next c cs _ hcs =>
    rw [hcs, List.all_cons, Bool.and_eq_true] at hletters
    have hplus : c ≠ '+' := ne_of_test hletters.1 rfl
    have hminus : c ≠ '-' := ne_of_test hletters.1 rfl
    simp [hplus, hminus, isDigit_of_isLower hletters.1, Scalar.tag]
  next => rfl

/-- The tree of a document in a block gives the value that the document stands for. -/
theorem readAs_eq {t : Target α} {cs : List Char} {a : α} (hdepth : t.depth ≤ 100)
    (h : t.InBlock library.isText 0 cs a) : readAs t (String.ofList cs) = .ok (some a) := by
  obtain ⟨hchars, start, ls, hlines, hstands⟩ := t.tokensInBlock 0 (by omega) h
  have htokens := lexemes_tokens_lines (by simpa [spaces] using hlines) hchars
  generalize String.ofList cs = text at htokens ⊢
  obtain ⟨fuel, hfuel⟩ : ∃ k, (text.length + 2) * (text.length + 2) = k + 1 :=
    Nat.exists_eq_add_one.2 (Nat.mul_pos (Nat.succ_pos _) (Nat.succ_pos _))
  obtain ⟨d, hread, hgives⟩ := Document.exists_read_eq htokens (hstands fuel)
  have hvalue : d.value (fuel + 1) t = .ok a := by
    rw [Document.value, hgives]
    rfl
  rw [readAs, hread, hfuel]
  simp only [hvalue]
  rfl

/-- The library at hand keeps to what is documented of libraries. -/
theorem library_documented : library.Documented where
  write_eq _ _ _ := rfl
  style_cases s hs := by
    rcases styleOf_cases hs with ⟨hstyle, hreads, hfits⟩ | hquoted
    · simp only [readsAsText, Bool.and_eq_true] at hreads
      exact .inl ⟨hstyle, hfits, hreads.1.1⟩
    · exact .inr hquoted
  isText_word s hne hletters hfree := beq_iff_eq.2 (Scalar.tag_resolve_word hne hletters hfree)
  read_eq _ _ _ := readAs_eq

end Yaml

/-! ## Graph documents -/

section Lawful

variable {lib : Yaml.Library} (h : lib.Documented)
include h

/-- A word of small letters that is not reserved may be the name of a field. -/
theorem Yaml.Library.Documented.isFieldName {name : String} (hne : name ≠ "")
    (hletters : name.toList.all Char.isLower = true) (hshort : name.toList.length ≤ 1024)
    (hfree : name ∉ reservedWords) : IsFieldName lib.isText name :=
  ⟨hne, hletters, hshort, h.isText_word name hne hletters hfree⟩

/-- The fields of an entry make it up; lists that are left out are empty. -/
theorem BlockEntry.lawful_target : BlockEntry.target.Lawful lib.isText := by
  refine ⟨by decide, fun _ => rfl, ?_, ?_⟩
  · rintro ⟨id, need, stack, instrs, funcs⟩
    cases instrs <;> cases funcs <;> rfl
  · refine ⟨?_, trivial, ?_, trivial, ?_, trivial, ?_, trivial, ?_, trivial, trivial⟩
    all_goals exact h.isFieldName (by decide) (by decide) (by decide) (by decide)

/-- The fields of a document make it up. -/
theorem GraphDocument.lawful_target : GraphDocument.target.Lawful lib.isText := by
  refine ⟨by decide, fun _ => rfl, fun _ => rfl, ?_, BlockEntry.lawful_target h, ?_, trivial,
    trivial⟩
  all_goals exact h.isFieldName (by decide) (by decide) (by decide) (by decide)

end Lawful

namespace GraphDocument

/-- A document is printable if the texts of its blocks are. -/
theorem printable_target {d : GraphDocument}
    (hd : ∀ b ∈ d.blocks, ∀ t ∈ b.instrs ++ b.funcs, ∀ c ∈ t.toList, ' ' ≤ c ∧ c ≤ '~') :
    target.Printable d := by
  have htext : ∀ b ∈ d.blocks, ∀ t ∈ b.instrs ++ b.funcs,
      t.toList.all Yaml.isPrintableAscii = true := by
    intro b hb t ht
    rw [List.all_eq_true]
    intro c hc
    simpa [Yaml.isPrintableAscii] using hd b hb t ht c hc
  refine ⟨fun b hb => ⟨trivial, trivial, trivial, ?_, ?_, trivial⟩, trivial, trivial⟩
  · exact fun t ht => htext b hb t (List.mem_append_left _ ht)
  · exact fun t ht => htext b hb t (List.mem_append_right _ ht)

/-- A document with integers at their bounds, texts that need quotes and edges that are no pairs. -/
def oddTexts : GraphDocument where
  blocks := [⟨Int64.minValue, Int64.maxValue, -1,
      ["", "0x11223344", "a: b", "it's", "- x", "say \"\\\"", " x ", "null", "#", "1:20",
        "2001-02-03"],
      ["<<", "~", "PUSH1 0x80"]⟩, ⟨0, 0, 0, [], []⟩]
  edges := [[], [7], [Int64.minValue, Int64.maxValue], [1, 2, 3]]

end GraphDocument

end StackFlow
