import StackFlow.Proofs.WrittenScalars

/-!
# Written values stand for themselves

What a library writes is YAML for the value (`Target.inBlock_chars`), for every type whose records
can be put together again from the fields that are written (`Target.Lawful`). The proof goes along
the type. A value on a line is a form that stands for it (`Target.onLine_chars`); the items of a
list and the fields of a record follow each other in the lines of a block.
-/

namespace StackFlow.Yaml

variable {α σ : Type} {isText : String → Bool} {style : String → ScalarStyle}

/-! ## Types whose values can be put together again -/

/-- The names of fields in their order. -/
def Fields.names : {σ : Type} → Fields σ → List String
  | _, .nil => []
  | _, .cons tag _ _ _ rest => tag.name :: rest.names

/-- A record with the fields of `s` that are written, and the others as in `t`. -/
def Fields.restore : {σ : Type} → Fields σ → σ → σ → σ
  | _, .nil, _, t => t
  | _, .cons tag target get set rest, s, t =>
    rest.restore s (if tag.omitEmpty && target.isEmpty (get s) then t else set t (get s))

mutual

/-- The records of a type have different names for their fields, and always a field that is
written; the fields that are written make up the record. -/
def Target.Lawful (isText : String → Bool) : {α : Type} → Target α → Prop
  | _, .inline _ => True
  | _, .text => True
  | _, .list item => item.Lawful isText
  | _, .record _ zero fields => fields.names.Nodup ∧ (∀ s, fields.areOmitted s = false) ∧
      (∀ s, fields.restore s zero = s) ∧ fields.Lawful isText

/-- The fields of a record have names that may stand before a colon, and lawful types. -/
def Fields.Lawful (isText : String → Bool) : {σ : Type} → Fields σ → Prop
  | _, .nil => True
  | _, .cons tag target _ _ rest =>
    IsFieldName isText tag.name ∧ target.Lawful isText ∧ rest.Lawful isText

end

/-! ## Values on one line -/

section Written

variable {lib : Library} (h : lib.Documented)
include h

/-- A printable text is written as a form that stands for it. -/
theorem Library.Documented.exists_spelled {s : String} (hs : s.toList.all isPrintableAscii = true)
    (column : Nat) :
    ∃ cs, spelled (lib.style s) column s.toList = cs ++ ['\n'] ∧ SpellsText lib.isText s cs := by
  rcases h.style_cases s hs with ⟨hstyle, hfits, htext⟩ | hstyle | hstyle
  · exact ⟨s.toList, by rw [hstyle]; rfl, .plain hfits htext⟩
  · refine ⟨_, ?_, .quoted false⟩
    rw [hstyle, spelled, singleQuotedBody_eq column hs]
    simp [inQuotes, quoteMark]
  · refine ⟨_, ?_, .quoted true⟩
    rw [hstyle, spelled, doubleQuotedBody_eq hs]
    simp [inQuotes, quoteMark]

omit h in
/-- A value on one line is written as a form that stands for it. -/
theorem Inline.spells_chars : {α : Type} → (t : Inline α) → (a : α) → t.Spells (t.chars a) a
  | _, .integer _, _ => rfl
  | _, .list item, xs => by
    refine ⟨xs.map fun x => (item.chars x, x), ?_, ?_, fun x hx => ?_⟩
    · rw [Inline.chars, List.map_map]
      rfl
    · rw [List.map_map]
      exact (List.map_id xs).symm
    · obtain ⟨y, -, rfl⟩ := List.mem_map.1 hx
      exact item.spells_chars y

/-- A value that is not written in a block is written on the line. -/
theorem Target.onLine_chars (column : Nat) : {α : Type} → (t : Target α) →
    t.Lawful lib.isText → (a : α) → t.Printable a → t.isBlock a = false →
    ∃ cs, t.chars lib.style column a = cs ++ ['\n'] ∧ t.OnLine lib.isText cs a
  | _, .inline t, _, a, _, _ => ⟨t.chars a, rfl, t.spells_chars a⟩
  | _, .text, _, s, hs, _ => by
    obtain ⟨cs, hcs, hspells⟩ := h.exists_spelled hs column
    exact ⟨cs, hcs, hs, hspells⟩
  | _, .list _, _, xs, _, hline => by
    have hnil : xs = [] := by simpa [Target.isBlock] using hline
    exact ⟨bracketed [], by rw [Target.chars, hnil]; rfl, rfl, hnil⟩
  | _, .record _ _ fields, hlawful, s, _, hline => by
    -- some field is always written
    have homitted : fields.areOmitted s = true := by simpa [Target.isBlock] using hline
    exact absurd (homitted.symm.trans (hlawful.2.1 s)) (by decide)

end Written

/-! ## Fields -/

/-- The lines of the fields of a record that are written. -/
def Fields.fieldLines (style : String → ScalarStyle) (column : Nat) :
    {σ : Type} → Fields σ → σ → List (FieldLine σ)
  | _, .nil, _ => []
  | _, .cons tag target get set rest, s =>
    let gap := if target.isBlock (get s) then '\n' :: spaces (column + 2) else [' ']
    if tag.omitEmpty && target.isEmpty (get s) then rest.fieldLines style column s
    else ⟨tag.name, gap ++ target.chars style (column + 2) (get s), (set · (get s))⟩ ::
      rest.fieldLines style column s

/-- The fields are written in these lines. -/
theorem Fields.map_chars_fieldLines (style : String → ScalarStyle) (column : Nat) :
    {σ : Type} → (fields : Fields σ) → (s : σ) →
    (fields.fieldLines style column s).map FieldLine.chars = fields.chars style column s
  | _, .nil, _ => rfl
  | _, .cons tag target get set rest, s => by
    have hrest := rest.map_chars_fieldLines style column s
    rw [Fields.fieldLines, Fields.chars]
    split
    · exact hrest
    · rw [List.map_cons, hrest]
      rfl

/-- The lines of fields have their names, in their order. -/
theorem Fields.names_fieldLines (style : String → ScalarStyle) (column : Nat) :
    {σ : Type} → (fields : Fields σ) → (s : σ) →
    ((fields.fieldLines style column s).map FieldLine.name).Sublist fields.names
  | _, .nil, _ => .slnil
  | _, .cons tag target get set rest, s => by
    have hrest := rest.names_fieldLines style column s
    rw [Fields.fieldLines, Fields.names]
    split
    · exact hrest.cons _
    · exact hrest.cons_cons _

/-- There is no line only if all fields are left out. -/
theorem Fields.areOmitted_of_fieldLines (style : String → ScalarStyle) (column : Nat) :
    {σ : Type} → (fields : Fields σ) → (s : σ) → fields.fieldLines style column s = [] →
    fields.areOmitted s = true
  | _, .nil, _, _ => rfl
  | _, .cons tag target get set rest, s, hnil => by
    rw [Fields.fieldLines] at hnil
    rw [Fields.areOmitted]
    split at hnil
    next homitted => rw [homitted, rest.areOmitted_of_fieldLines style column s hnil, Bool.true_and]
    next => exact absurd hnil (List.cons_ne_nil _ _)

/-- The lines of fields change a record as the fields do. -/
theorem Fields.foldl_fieldLines (style : String → ScalarStyle) (column : Nat) :
    {σ : Type} → (fields : Fields σ) → (s t : σ) →
    (fields.fieldLines style column s).foldl (fun t l => l.change t) t = fields.restore s t
  | _, .nil, _, _ => rfl
  | _, .cons tag target get set rest, s, t => by
    rw [Fields.fieldLines, Fields.restore]
    split
    · exact rest.foldl_fieldLines style column s t
    · exact rest.foldl_fieldLines style column s _

/-! ## Values in a block -/

section Written

variable {lib : Library} (h : lib.Documented)
include h

mutual

/-- A value that is written in a block is what the lines of the block stand for. -/
theorem Target.inBlock_chars : {α : Type} → (t : Target α) → (column : Nat) →
    t.Lawful lib.isText → (a : α) → t.Printable a → t.isBlock a = true →
    t.InBlock lib.isText column (t.chars lib.style column a) a
  | _, .list item, column, hlawful, xs, hxs, hblock => by
    have hne : xs ≠ [] := by simpa [Target.isBlock] using hblock
    refine ⟨xs.map fun x => (item.chars lib.style (column + 2) x, x), by simpa using hne, ?_, ?_,
      fun p hp => ?_⟩
    · rw [Target.chars, if_neg (by simpa using hne), List.map_map]
      rfl
    · rw [List.map_map]
      exact (List.map_id xs).symm
    · -- an item stands behind its mark, or begins a block there
      obtain ⟨x, hx, rfl⟩ := List.mem_map.1 hp
      cases hitem : item.isBlock x with
      | false => exact .inl (item.onLine_chars h (column + 2) hlawful x (hxs x hx) hitem)
      | true => exact .inr (item.inBlock_chars (column + 2) hlawful x (hxs x hx) hitem)
  | _, .record _ zero fields, column, hlawful, s, hs, hblock => by
    obtain ⟨hnodup, hwritten, hrestore, hfields⟩ := hlawful
    refine ⟨fields.fieldLines lib.style column s, fun hnil => ?_,
      hnodup.sublist (fields.names_fieldLines lib.style column s), ?_, ?_,
      fields.sets_fieldLines column hfields hnodup s hs⟩
    · have homitted := fields.areOmitted_of_fieldLines lib.style column s hnil
      exact absurd (homitted.symm.trans (hwritten s)) (by decide)
    · rw [Target.chars, if_neg (by simp [hwritten s]), fields.map_chars_fieldLines]
    · rw [fields.foldl_fieldLines, hrestore]

/-- The lines in which fields are written set these fields. -/
theorem Fields.sets_fieldLines : {σ : Type} → (fields : Fields σ) → (column : Nat) →
    fields.Lawful lib.isText → fields.names.Nodup → (s : σ) → fields.Printable s →
    ∀ l ∈ fields.fieldLines lib.style column s, fields.Sets lib.isText column l
  | _, .nil, _, _, _, _, _ => fun _ hl => absurd hl List.not_mem_nil
  | _, .cons tag target get set rest, column, hlawful, hnodup, s, hs => by
    obtain ⟨hname, htarget, hrest⟩ := hlawful
    rw [Fields.names, List.nodup_cons] at hnodup
    have hlater : ∀ l ∈ rest.fieldLines lib.style column s,
        (Fields.cons tag target get set rest).Sets lib.isText column l := by
      intro l hl
      -- a later field has another name
      have hmem := (rest.names_fieldLines lib.style column s).subset (List.mem_map_of_mem hl)
      exact .inr ⟨fun heq => hnodup.1 (heq ▸ hmem),
        rest.sets_fieldLines column hrest hnodup.2 s hs.2 l hl⟩
    intro l hl
    rw [Fields.fieldLines] at hl
    split at hl
    · exact hlater l hl
    · rcases List.mem_cons.1 hl with rfl | hl
      · refine .inl ⟨rfl, hname, get s, rfl, ?_⟩
        cases hblock : target.isBlock (get s) with
        | false =>
          obtain ⟨cs, hcs, hline⟩ :=
            target.onLine_chars h (column + 2) htarget (get s) hs.1 hblock
          exact .inl ⟨cs, by simp [hcs], hline⟩
        | true =>
          exact .inr ⟨_, by simp, target.inBlock_chars (column + 2) htarget (get s) hs.1 hblock⟩
      · exact hlater l hl

end

/-- What a library writes for a record it reads back. -/
theorem Library.Documented.read_write {t : Target α} (ht : t.Lawful lib.isText)
    (hdepth : t.depth ≤ 100) {a : α} (ha : t.Printable a) (hblock : t.isBlock a = true) :
    lib.read t (lib.write t a) = .ok (some a) := by
  rw [h.write_eq t a ha]
  exact h.read_eq t _ a hdepth (t.inBlock_chars h 0 ht a ha hblock)

end Written

end StackFlow.Yaml
