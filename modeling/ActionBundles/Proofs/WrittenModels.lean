import ActionBundles.Model.Parser
import ActionBundles.Proofs.StoredRecords
import ActionBundles.Proofs.WrittenItems
import Mathlib.Data.List.Forall2

/-!
# Models that are read back

`Model.write` writes a model as people write it: the metadata and the capability at the margin, then
the five sections in order, each heading with its indented lines. Whatever the fields hold, within
`Model.IsWritable`, reading gives back exactly the model, in both modes.

The proof goes in two stages. First, each written line has one class, found from the line alone
(`Line.IsWrittenAs`), so that a text of written lines is read as the list of their classes. Second,
these classes are run through: `Progress.Reads` composes line by line, and for each list of the
model one induction says where the run stands after the items so far.
-/

namespace ActionBundles

/-! ### Writing -/

namespace Line

/-- What a key is made of. -/
def IsKey : Text → Prop
  | [] => False
  | c :: rest => isKeyStart c = true ∧ ∀ d ∈ rest, isKeyPart d = true

instance : DecidablePred IsKey
  | [] => inferInstanceAs (Decidable False)
  | c :: rest => decidable_of_iff (isKeyStart c = true ∧ rest.all isKeyPart = true)
      ⟨fun h => ⟨h.1, List.all_eq_true.1 h.2⟩, fun h => ⟨h.1, List.all_eq_true.2 h.2⟩⟩

/-- A key with its value. -/
def writeEntry (key value : Text) : Text := key ++ ':' :: ' ' :: value

/-- A key without a value, and the heading of a section. -/
def writeKey (key : Text) : Text := key ++ [':']

/-- An item of a list. -/
def writeItem (text : Text) : Text := '-' :: ' ' :: text

end Line

namespace InterfaceValue

theorem not_bracketed_iff {value : Text} :
    (Text.stripStart? "[" value).bind (Text.stripEnd? ']') = none ↔
      ∀ inner, value ≠ '[' :: (inner ++ [']']) := by
  have hopen : ("[" : Text) = ['['] := rfl
  rw [Text.stripStart?, hopen]
  constructor
  · rintro h inner rfl
    simp [Text.stripEnd?] at h
  · intro h
    rw [Option.bind_eq_none_iff]
    intro rest hrest
    rw [Text.stripEnd?]
    split
    · next hlast =>
      obtain ⟨inner, rfl⟩ := List.getLast?_eq_some_iff.1 hlast
      rw [List.isPrefixOf?_eq_some_iff_append_eq] at hrest
      exact absurd hrest.symm (h inner)
    · rfl

instance (value : Text) : Decidable (∀ inner, value ≠ '[' :: (inner ++ [']'])) :=
  decidable_of_iff _ not_bracketed_iff

theorem read_text {value : Text} (h : ∀ inner, value ≠ '[' :: (inner ++ [']'])) :
    read value = .text value := by
  rw [read, not_bracketed_iff.2 h]

/-- Whether a value can be written under a key. A key without a value must not be a heading. -/
def IsWritable (key : Text) : InterfaceValue → Prop
  | .text value => value ≠ [] ∧ Text.IsInline value ∧ ∀ inner, value ≠ '[' :: (inner ++ [']'])
  | .list items => Section.ofKey? key = none ∧ ∀ t ∈ items, Text.IsInline t

instance (key : Text) : DecidablePred (IsWritable key)
  | .text value => inferInstanceAs (Decidable
      (value ≠ [] ∧ Text.IsInline value ∧ ∀ inner, value ≠ '[' :: (inner ++ [']'])))
  | .list items => inferInstanceAs (Decidable
      (Section.ofKey? key = none ∧ ∀ t ∈ items, Text.IsInline t))

/-- The lines of a key of the interface. -/
def write (key : Text) : InterfaceValue → List Text
  | .text value => [Line.writeEntry key value]
  | .list items => Line.writeKey key :: items.map Line.writeItem

/-- The classes of the lines of a key of the interface. -/
def lines (key : Text) : InterfaceValue → List Line
  | .text value => [.entry key value (Line.writeEntry key value) true]
  | .list items => .entry key [] (Line.writeKey key) true :: items.map .item

end InterfaceValue

namespace Model

/-- A model that can be written. -/
structure IsWritable (m : Model) : Prop where
  metadata : ∀ field, Text.IsInline (m.metadata.get field)
  capability : Text.IsInline m.capability
  parameters : ∀ p ∈ m.parameters, p.IsWritable
  outputs : ∀ o ∈ m.outputs, o.IsWritable
  interface : ∀ e ∈ m.interface.toList, Line.IsKey e.1 ∧ e.2.IsWritable e.1
  dependencies : ∀ t ∈ m.dependencies, Text.IsInline t
  patterns : ∀ t ∈ m.patterns, Text.IsInline t

instance (m : Model) : Decidable m.IsWritable :=
  decidable_of_iff
    ((Text.IsInline m.metadata.modelId ∧ Text.IsInline m.metadata.version ∧
        Text.IsInline m.metadata.layer ∧ Text.IsInline m.metadata.domain) ∧
      Text.IsInline m.capability ∧ (∀ p ∈ m.parameters, p.IsWritable) ∧
      (∀ o ∈ m.outputs, o.IsWritable) ∧
      (∀ e ∈ m.interface.toList, Line.IsKey e.1 ∧ e.2.IsWritable e.1) ∧
      (∀ t ∈ m.dependencies, Text.IsInline t) ∧ ∀ t ∈ m.patterns, Text.IsInline t)
    ⟨fun ⟨h₁, h₂, h₃, h₄, h₅, h₆, h₇⟩ =>
      ⟨fun | .modelId => h₁.1 | .version => h₁.2.1 | .layer => h₁.2.2.1 | .domain => h₁.2.2.2,
        h₂, h₃, h₄, h₅, h₆, h₇⟩,
    fun h =>
      ⟨⟨h.1 .modelId, h.1 .version, h.1 .layer, h.1 .domain⟩, h.2, h.3, h.4, h.5, h.6, h.7⟩⟩

/-- The lines of a model. Those below a heading stand behind `margin`. -/
def writtenLines (margin : Text) (m : Model) : List Text :=
  let items (ts : List Text) : List Text := ts.map fun t => margin ++ Line.writeItem t
  [Line.writeEntry "Model" m.metadata.modelId, Line.writeEntry "Version" m.metadata.version,
    Line.writeEntry "Layer" m.metadata.layer, Line.writeEntry "Domain" m.metadata.domain,
    Line.writeEntry "Capability" m.capability] ++
  (Line.writeKey "Parameters" :: items (m.parameters.map (·.write))) ++
  (Line.writeKey "Outputs" :: items (m.outputs.map (·.write))) ++
  (Line.writeKey "Interface" ::
    m.interface.toList.flatMap fun e => (e.2.write e.1).map (margin ++ ·)) ++
  (Line.writeKey "Dependencies" :: items m.dependencies) ++
  (Line.writeKey "Patterns" :: items m.patterns)

/-- A model as it is written. -/
def write (margin : Text) (m : Model) : Text := Text.unlines (m.writtenLines margin)

/-- The classes of the lines of a model. -/
def lines (m : Model) : List Line :=
  [.metadata .modelId m.metadata.modelId, .metadata .version m.metadata.version,
    .metadata .layer m.metadata.layer, .metadata .domain m.metadata.domain,
    .capability m.capability] ++
  (.heading .parameters :: (m.parameters.map (·.write)).map .item) ++
  (.heading .outputs :: (m.outputs.map (·.write)).map .item) ++
  (.heading .interface :: m.interface.toList.flatMap fun e => e.2.lines e.1) ++
  (.heading .dependencies :: m.dependencies.map .item) ++
  (.heading .patterns :: m.patterns.map .item)

end Model

/-! ### The class of a written line -/

namespace Line

theorem toNat_of_isKeyStart {c : Char} (h : isKeyStart c = true) :
    (65 ≤ c.toNat ∧ c.toNat ≤ 90) ∨ (97 ≤ c.toNat ∧ c.toNat ≤ 122) ∨ c.toNat = 95 := by
  simp only [isKeyStart, Bool.or_eq_true, decide_eq_true_eq] at h
  change (decide (c.val ≥ 'A'.val ∧ c.val ≤ 'Z'.val) || (c.val ≥ 'a'.val && c.val ≤ 'z'.val)) = true
    ∨ _ at h
  simp only [Bool.or_eq_true, Bool.and_eq_true, decide_eq_true_eq] at h
  rcases h with (h | h) | rfl
  · exact .inl ⟨UInt32.le_iff_toNat_le.1 h.1, UInt32.le_iff_toNat_le.1 h.2⟩
  · exact .inr (.inl ⟨UInt32.le_iff_toNat_le.1 h.1, UInt32.le_iff_toNat_le.1 h.2⟩)
  · exact .inr (.inr rfl)

theorem isBlank_of_isKeyStart {c : Char} (h : isKeyStart c = true) : Text.isBlank c = false := by
  have hc := toNat_of_isKeyStart h
  simp only [Text.isBlank, Text.blankRanges, List.any_cons, List.any_nil]
  simp
  omega

theorem isBlank_of_isKeyPart {c : Char} (h : isKeyPart c = true) : Text.isBlank c = false := by
  have hcases : isKeyStart c = true ∨ c.isDigit = true ∨ c = '.' ∨ c = '-' := by
    simp only [isKeyPart, Char.isAlphanum, Bool.or_eq_true, decide_eq_true_eq] at h
    simp only [isKeyStart, Bool.or_eq_true, decide_eq_true_eq]
    tauto
  rcases hcases with h | h | rfl | rfl
  · exact isBlank_of_isKeyStart h
  · have hc := Text.toNat_of_isDigit h
    simp only [Text.isBlank, Text.blankRanges, List.any_cons, List.any_nil]
    simp
    omega
  · decide
  · decide

/-- A line has no line end in it and is of the class `line`. -/
structure IsWrittenAs (raw : Text) (line : Line) : Prop where
  noLineEnd : '\n' ∉ raw
  classify : classify raw = line

/-- What stands before an indented line. -/
structure IsMargin (margin : Text) : Prop where
  nonempty : margin ≠ []
  blank : ∀ c ∈ margin, Text.isBlank c = true
  noLineEnd : '\n' ∉ margin

instance (margin : Text) : Decidable (IsMargin margin) :=
  decidable_of_iff (margin ≠ [] ∧ margin.all Text.isBlank = true ∧ '\n' ∉ margin)
    ⟨fun h => ⟨h.1, List.all_eq_true.1 h.2.1, h.2.2⟩,
      fun h => ⟨h.1, List.all_eq_true.2 h.2, h.3⟩⟩

theorem blank_nil : ∀ c ∈ ([] : Text), Text.isBlank c = true := by simp

/-- A key with its colon, perhaps after some blanks, and the value. -/
theorem keyValue?_spaced {key gap : Text} (h : IsKey key)
    (hgap : ∀ c ∈ gap, Text.isBlank c = true) (rest : Text) :
    keyValue? (key ++ (gap ++ ':' :: rest)) = some (key, Text.trim rest) := by
  match key, h with
  | c :: key, h =>
    obtain ⟨d, tail, hcut, hend⟩ :
        ∃ d tail, gap ++ ':' :: rest = d :: tail ∧ ¬ isKeyPart d = true := by
      cases gap with
      | nil => exact ⟨':', rest, rfl, by decide⟩
      | cons d gap =>
        refine ⟨d, gap ++ ':' :: rest, rfl, fun hpart => ?_⟩
        have hblank := hgap d List.mem_cons_self
        rw [isBlank_of_isKeyPart hpart] at hblank
        cases hblank
    rw [List.cons_append, keyValue?, if_pos h.1, List.dropWhile_append_of_pos h.2,
      List.takeWhile_append_of_pos h.2, hcut, List.dropWhile_cons_of_neg hend,
      List.takeWhile_cons_of_neg hend, List.append_nil, ← hcut,
      Text.trimStart_append_of_blank hgap, Text.trimStart_of_head (by decide)]
    rfl

theorem dashLead : ("- " : Text) = ['-', ' '] := rfl

/-- The class of a line that starts with a key and a colon, perhaps after some blanks. -/
theorem classify_spaced {margin key gap : Text} (hm : ∀ c ∈ margin, Text.isBlank c = true)
    (hk : IsKey key) (hgap : ∀ c ∈ gap, Text.isBlank c = true) (rest : Text) :
    classify (margin ++ (key ++ (gap ++ ':' :: rest))) =
      ofKeyValue key (Text.trim rest) (key ++ (gap ++ ':' :: Text.trimEnd rest))
        (!margin.isEmpty) := by
  match key, hk with
  | c :: key, hk =>
    have hblank := isBlank_of_isKeyStart hk.1
    have hrange := toNat_of_isKeyStart hk.1
    have hdash : c ≠ '-' := by rintro rfl; revert hrange; decide
    have hcomment : c ≠ '#' := by rintro rfl; revert hrange; decide
    have htrim : Text.trim (margin ++ (c :: key ++ (gap ++ ':' :: rest))) =
        c :: key ++ (gap ++ ':' :: Text.trimEnd rest) := by
      rw [Text.trim, Text.trimStart_append_of_blank hm, List.cons_append,
        Text.trimStart_of_head hblank, ← List.cons_append, ← List.append_assoc,
        Text.trimEnd_append_cons (by decide), List.append_assoc]
    have hindented : ((margin ++ (c :: key ++ (gap ++ ':' :: rest))).head?.map
        Text.isBlank).getD false = !margin.isEmpty := by
      cases margin with
      | nil => simpa using hblank
      | cons d margin => simpa using hm d (by simp)
    have hitem : Text.stripStart? "- " (c :: key ++ (gap ++ ':' :: Text.trimEnd rest)) = none := by
      rw [Text.stripStart?, dashLead, List.cons_append, List.isPrefixOf?, if_neg (by simp [hdash.symm])]
    have hkv := keyValue?_spaced hk hgap (Text.trimEnd rest)
    rw [Text.trim_trimEnd] at hkv
    rw [classify, htrim, hindented, List.cons_append]
    split
    · next heq => cases heq
    · next heq => exact absurd (List.cons.inj heq).1 hcomment
    · rw [ofContent, if_neg (by simp [hdash]), ← List.cons_append, hitem, hkv]

/-- The class of a line that starts with a key and a colon. -/
theorem classify_keyed {margin key : Text} (hm : ∀ c ∈ margin, Text.isBlank c = true)
    (hk : IsKey key) (rest : Text) :
    classify (margin ++ (key ++ ':' :: rest)) =
      ofKeyValue key (Text.trim rest) (key ++ ':' :: Text.trimEnd rest) (!margin.isEmpty) :=
  classify_spaced hm hk blank_nil rest

/-- A carriage return at the end of a line does not change its class. -/
theorem classify_dropReturn (raw : Text) : classify (Text.dropReturn raw) = classify raw := by
  rw [classify, classify, Text.trim_dropReturn]
  match raw with
  | [] => rfl
  | [c] =>
    by_cases hc : c = '\r'
    · subst hc
      rfl
    · rw [Text.dropReturn, if_neg (by simpa using hc)]
  | c :: d :: rest =>
    have hhead : (Text.dropReturn (c :: d :: rest)).head? = some c := by
      rw [Text.dropReturn]
      split <;> rfl
    rw [hhead]
    rfl

theorem classify_writeItem {margin t : Text} (hm : ∀ c ∈ margin, Text.isBlank c = true)
    (h : Text.IsInline t) : classify (margin ++ writeItem t) = .item t := by
  have hhead : Text.isBlank '-' = false := by decide
  have htrim : Text.trim (margin ++ writeItem t) = Text.trimEnd (writeItem t) := by
    rw [Text.trim, Text.trimStart_append_of_blank hm, writeItem, Text.trimStart_of_head hhead]
  rw [Line.classify, htrim]
  by_cases hne : t = []
  · subst hne
    rfl
  · have hcut : Text.trimEnd (writeItem t) = writeItem t :=
      Text.trimEnd_append_of_trimmed hne h.trimmed ['-', ' ']
    have hdash : writeItem t ≠ ['-'] := by simp [writeItem]
    have hitem : Text.stripStart? "- " (writeItem t) = some t := rfl
    rw [hcut]
    show ofContent (writeItem t) _ = _
    rw [ofContent, if_neg hdash, hitem]
    exact congrArg Line.item h.trimmed

theorem isWrittenAs_item {margin t : Text} (hm : IsMargin margin) (h : Text.IsInline t) :
    IsWrittenAs (margin ++ writeItem t) (.item t) where
  noLineEnd := List.not_mem_append hm.noLineEnd (by simp [writeItem, h.noLineEnd])
  classify := classify_writeItem hm.blank h

theorem lineEnd_not_mem_key {key : Text} (h : IsKey key) : '\n' ∉ key := by
  match key, h with
  | c :: key, h =>
    intro hmem
    rcases List.mem_cons.1 hmem with rfl | hmem
    · exact absurd h.1 (by decide)
    · exact absurd (h.2 _ hmem) (by decide)

section Keys

variable {margin key value : Text}

theorem classify_writeKey (hm : ∀ c ∈ margin, Text.isBlank c = true) (hk : IsKey key) :
    classify (margin ++ writeKey key) = ofKeyValue key [] (writeKey key) (!margin.isEmpty) :=
  classify_keyed hm hk []

theorem classify_writeEntry (hm : ∀ c ∈ margin, Text.isBlank c = true) (hk : IsKey key)
    (hv : Text.trim value = value) :
    ∃ text, classify (margin ++ writeEntry key value) =
        ofKeyValue key value text (!margin.isEmpty) ∧
      (value ≠ [] → text = writeEntry key value) := by
  refine ⟨key ++ ':' :: Text.trimEnd (' ' :: value), ?_, fun hne => ?_⟩
  · rw [writeEntry, classify_keyed hm hk, Text.trim_space_cons hv]
  · rw [show ' ' :: value = [' '] ++ value from rfl,
      Text.trimEnd_append_of_trimmed hne hv]
    rfl

theorem noLineEnd_writeKey (hk : IsKey key) : '\n' ∉ writeKey key :=
  List.not_mem_append (lineEnd_not_mem_key hk) (by decide)

theorem noLineEnd_writeEntry (hk : IsKey key) (hv : Text.IsInline value) :
    '\n' ∉ writeEntry key value :=
  List.not_mem_append (lineEnd_not_mem_key hk) (by simp [hv.noLineEnd])

theorem isWrittenAs_heading {s : Section} (hk : IsKey key) (hs : Section.ofKey? key = some s) :
    IsWrittenAs (writeKey key) (.heading s) where
  noLineEnd := noLineEnd_writeKey hk
  classify := by
    have hclass := classify_writeKey blank_nil hk
    rw [List.nil_append] at hclass
    rw [hclass, ofKeyValue, if_pos rfl, hs]

/-- A key at the margin that opens no section keeps its value, which may be empty. -/
theorem isWrittenAs_marginal {line : Line} (hk : IsKey key) (hv : Text.IsInline value)
    (hl : ∀ text, ofKeyValue key value text false = line) :
    IsWrittenAs (writeEntry key value) line where
  noLineEnd := noLineEnd_writeEntry hk hv
  classify := by
    obtain ⟨text, hclass, -⟩ := classify_writeEntry blank_nil hk hv.trimmed
    rw [List.nil_append] at hclass
    exact hclass.trans (hl text)

theorem ofKeyValue_metadata {field : MetadataField} (hs : Section.ofKey? key = none)
    (hc : key ≠ ("Capability" : Text)) (hf : MetadataField.ofKey? key = some field)
    (value text : Text) : ofKeyValue key value text false = .metadata field value := by
  rw [ofKeyValue, hs, ite_self, hf]
  show (if false = true then _ else if _ then _ else _) = _
  rw [if_neg Bool.false_ne_true, if_neg hc]

theorem ofKeyValue_capability (value text : Text) :
    ofKeyValue "Capability" value text false = .capability value := by
  have hs : Section.ofKey? "Capability" = none := by decide
  rw [ofKeyValue, hs, ite_self]
  show (if false = true then _ else if _ then _ else _) = _
  rw [if_neg Bool.false_ne_true, if_pos rfl]

theorem isWrittenAs_metadata {field : MetadataField} (hk : IsKey key)
    (hs : Section.ofKey? key = none) (hc : key ≠ ("Capability" : Text))
    (hf : MetadataField.ofKey? key = some field) (hv : Text.IsInline value) :
    IsWrittenAs (writeEntry key value) (.metadata field value) :=
  isWrittenAs_marginal hk hv (ofKeyValue_metadata hs hc hf value)

theorem isWrittenAs_capability (hv : Text.IsInline value) :
    IsWrittenAs (writeEntry "Capability" value) (.capability value) :=
  isWrittenAs_marginal (by decide) hv (ofKeyValue_capability value)

theorem isWrittenAs_interface {v : InterfaceValue} (hm : IsMargin margin) (hk : IsKey key)
    (hv : v.IsWritable key) :
    List.Forall₂ IsWrittenAs ((v.write key).map (margin ++ ·)) (v.lines key) := by
  have hindented : (!margin.isEmpty) = true := by simp [hm.nonempty]
  cases v with
  | text value =>
    obtain ⟨text, hclass, htext⟩ := classify_writeEntry hm.blank hk hv.2.1.trimmed
    refine .cons ⟨List.not_mem_append hm.noLineEnd (noLineEnd_writeEntry hk hv.2.1), ?_⟩ .nil
    rw [hclass, hindented, htext hv.1, ofKeyValue, if_neg hv.1]
    rfl
  | list items =>
    refine .cons ⟨List.not_mem_append hm.noLineEnd (noLineEnd_writeKey hk), ?_⟩ ?_
    · rw [classify_writeKey hm.blank hk, hindented, ofKeyValue, if_pos rfl, hv.1]
      rfl
    · rw [List.map_map, List.forall₂_map_left_iff, List.forall₂_map_right_iff, List.forall₂_same]
      exact fun t ht => isWrittenAs_item hm (hv.2 t ht)

end Keys

end Line

/-! ### The lines of a written model -/

namespace Model

theorem linesOf_unlines {ls : List Text} {cs : List Line} (h : List.Forall₂ Line.IsWrittenAs ls cs) :
    linesOf (Text.unlines ls) = cs := by
  have hends : ∀ l ∈ ls, '\n' ∉ l := by
    induction h with
    | nil => simp
    | cons hl _ ih => simpa using ⟨hl.noLineEnd, ih⟩
  rw [linesOf, Text.lines_unlines hends, List.map_map]
  induction h with
  | nil => rfl
  | cons hl _ ih =>
    rw [List.map_cons, ih fun l hl => hends l (List.mem_cons_of_mem _ hl), Function.comp,
      Line.classify_dropReturn, hl.classify]

theorem isWrittenAs_items {margin : Text} (hm : Line.IsMargin margin) {ts : List Text}
    (h : ∀ t ∈ ts, Text.IsInline t) :
    List.Forall₂ Line.IsWrittenAs (ts.map fun t => margin ++ Line.writeItem t)
      (ts.map .item) := by
  rw [List.forall₂_map_left_iff, List.forall₂_map_right_iff, List.forall₂_same]
  exact fun t ht => Line.isWrittenAs_item hm (h t ht)

theorem isWrittenAs_entries {margin : Text} (hm : Line.IsMargin margin)
    {entries : List (Text × InterfaceValue)}
    (h : ∀ e ∈ entries, Line.IsKey e.1 ∧ e.2.IsWritable e.1) :
    List.Forall₂ Line.IsWrittenAs
      (entries.flatMap fun e => (e.2.write e.1).map (margin ++ ·))
      (entries.flatMap fun e => e.2.lines e.1) := by
  induction entries with
  | nil => exact .nil
  | cons e entries ih =>
    have he := h e (by simp)
    rw [List.flatMap_cons, List.flatMap_cons]
    exact List.rel_append (Line.isWrittenAs_interface hm he.1 he.2)
      (ih fun e' he' => h e' (by simp [he']))

/-- The classes of the lines of a model that was written. -/
theorem linesOf_write {margin : Text} {m : Model} (hm : Line.IsMargin margin) (h : m.IsWritable) :
    linesOf (m.write margin) = m.lines := by
  have hmetadata (field : MetadataField) := h.metadata field
  have hfields : List.Forall₂ Line.IsWrittenAs
      [Line.writeEntry "Model" m.metadata.modelId, Line.writeEntry "Version" m.metadata.version,
        Line.writeEntry "Layer" m.metadata.layer, Line.writeEntry "Domain" m.metadata.domain,
        Line.writeEntry "Capability" m.capability]
      [.metadata .modelId m.metadata.modelId, .metadata .version m.metadata.version,
        .metadata .layer m.metadata.layer, .metadata .domain m.metadata.domain,
        .capability m.capability] := by
    refine .cons ?_ (.cons ?_ (.cons ?_ (.cons ?_ (.cons ?_ .nil))))
    · exact Line.isWrittenAs_metadata (by decide) (by decide) (by decide)
        (by decide) (h.metadata .modelId)
    · exact Line.isWrittenAs_metadata (by decide) (by decide) (by decide)
        (by decide) (h.metadata .version)
    · exact Line.isWrittenAs_metadata (by decide) (by decide) (by decide)
        (by decide) (h.metadata .layer)
    · exact Line.isWrittenAs_metadata (by decide) (by decide) (by decide)
        (by decide) (h.metadata .domain)
    · exact Line.isWrittenAs_capability h.capability
  have hparameters : ∀ t ∈ m.parameters.map (·.write), Text.IsInline t :=
    List.forall_mem_map.2 fun p hp => Parameter.isInline_write (h.parameters p hp)
  have houtputs : ∀ t ∈ m.outputs.map (·.write), Text.IsInline t :=
    List.forall_mem_map.2 fun o ho => Output.isInline_write (h.outputs o ho)
  have hheading {key : Text} {s : Section} (hk : Line.IsKey key)
      (hs : Section.ofKey? key = some s) {ls : List Text} {cs : List Line}
      (hl : List.Forall₂ Line.IsWrittenAs ls cs) :
      List.Forall₂ Line.IsWrittenAs (Line.writeKey key :: ls) (.heading s :: cs) :=
    .cons (Line.isWrittenAs_heading hk hs) hl
  refine linesOf_unlines ?_
  refine List.rel_append (List.rel_append (List.rel_append (List.rel_append (List.rel_append
    hfields ?_) ?_) ?_) ?_) ?_
  · exact hheading (by decide) (by decide) (isWrittenAs_items hm hparameters)
  · exact hheading (by decide) (by decide) (isWrittenAs_items hm houtputs)
  · exact hheading (by decide) (by decide) (isWrittenAs_entries hm h.interface)
  · exact hheading (by decide) (by decide) (isWrittenAs_items hm h.dependencies)
  · exact hheading (by decide) (by decide) (isWrittenAs_items hm h.patterns)

end Model

/-! ### Running through the lines -/

namespace Progress

/-- The lines lead from one progress to another, without an irregularity. -/
inductive Reads (mode : ParseMode) : Progress → List Line → Progress → Prop where
  /-- No line is left. -/
  | nil (p : Progress) : Reads mode p [] p
  /-- One line, and the others after it. -/
  | cons {p q r : Progress} {line : Line} {ls : List Line} (hl : p.step mode line = .ok q)
      (h : Reads mode q ls r) : Reads mode p (line :: ls) r

variable {mode : ParseMode} {p q r : Progress}

theorem Reads.run {ls : List Line} (h : Reads mode p ls q) (number : Nat) :
    p.run mode number ls = .ok q := by
  induction h generalizing number with
  | nil => rfl
  | cons hl _ ih =>
    rw [Progress.run, hl]
    exact ih (number + 1)

theorem Reads.append {ls ls' : List Line} (h : Reads mode p ls q) (h' : Reads mode q ls' r) :
    Reads mode p (ls ++ ls') r := by
  induction h with
  | nil => exact h'
  | cons hl _ ih => exact .cons hl (ih h')

/-- A list is read element by element; `state` says where the run stands after the elements so
far. -/
theorem reads_flatMap {α : Type} {as : List α} {f : α → List Line} (state : List α → Progress)
    (h : ∀ before, ∀ a ∈ as, Reads mode (state before) (f a) (state (before ++ [a]))) :
    Reads mode (state []) (as.flatMap f) (state as) := by
  have hfrom : ∀ before after, (∀ a ∈ after, a ∈ as) →
      Reads mode (state before) (after.flatMap f) (state (before ++ after)) := by
    intro before after hafter
    induction after generalizing before with
    | nil => simpa using Reads.nil (state before)
    | cons a after ih =>
      have hfirst := h before a (hafter a (by simp))
      have hrest := ih (before ++ [a]) fun a' ha' => hafter a' (by simp [ha'])
      rw [List.append_assoc, List.singleton_append] at hrest
      exact hfirst.append hrest
  exact hfrom [] as fun _ ha => ha

/-- Items that are written are read one by one. -/
theorem reads_written {α : Type} {as : List α} (write : α → Text) (state : List α → Progress)
    (h : ∀ before, ∀ a ∈ as,
      (state before).step mode (.item (write a)) = .ok (state (before ++ [a]))) :
    Reads mode (state []) ((as.map write).map .item) (state as) := by
  have hsingle : (as.map write).map Line.item = as.flatMap fun a => [Line.item (write a)] := by
    rw [List.map_map, List.map_eq_flatMap]
    rfl
  rw [hsingle]
  exact reads_flatMap state fun before a ha => .cons (h before a ha) (.nil _)

theorem reads_items {ts : List Text} (state : List Text → Progress)
    (h : ∀ before, ∀ t ∈ ts, (state before).step mode (.item t) = .ok (state (before ++ [t]))) :
    Reads mode (state []) (ts.map .item) (state ts) := by
  have hitems := reads_written id state h
  rwa [List.map_id] at hitems

/-! ### The interface -/

/-- The key that takes items after the entries so far. -/
def keyAfter (entries : List (Text × InterfaceValue)) : Option Text :=
  match entries.getLast? with
  | some (key, .list _) => some key
  | _ => none

theorem keyAfter_concat (before : List (Text × InterfaceValue)) (key : Text) (v : InterfaceValue) :
    keyAfter (before ++ [(key, v)]) =
      match v with
      | .list _ => some key
      | .text _ => none := by
  rw [keyAfter, List.getLast?_concat]
  cases v <;> rfl

theorem insert_list_modify (d : Dict Text InterfaceValue) (key : Text) (items : List Text)
    (push : InterfaceValue → InterfaceValue) :
    (d.insert key (.list items)).modify key push = d.insert key (push (.list items)) := by
  refine Dict.ext_get? fun k => ?_
  have hsymm : compare key k = .eq ↔ compare k key = .eq := Std.OrientedCmp.eq_comm
  rw [Dict.get?_modify, Dict.get?_insert, Dict.get?_insert]
  by_cases hk : compare k key = .eq
  · simp [hk, hsymm.2 hk]
  · simp [hk, hsymm]

/-- The entries of the interface are read one by one. -/
theorem reads_entries {entries : List (Text × InterfaceValue)} (m : Model)
    (h : ∀ e ∈ entries, e.2.IsWritable e.1) :
    Reads mode
      { place := .under .interface, model := { m with interface := .empty } }
      (entries.flatMap fun e => e.2.lines e.1)
      { place := .under .interface
        openKey := keyAfter entries
        model := { m with interface := .ofList entries } } := by
  refine reads_flatMap (fun before =>
    { place := .under .interface
      openKey := keyAfter before
      model := { m with interface := .ofList before } }) fun before e he => ?_
  obtain ⟨key, v⟩ := e
  have hinsert : Dict.ofList (before ++ [(key, v)]) = (Dict.ofList before).insert key v := by
    rw [Dict.ofList, List.foldl_append]
    rfl
  rw [hinsert, keyAfter_concat]
  have hv := h _ he
  cases v with
  | text value =>
    refine .cons ?_ (.nil _)
    show Except.ok (setInterface _ key value) = _
    rw [setInterface, if_neg hv.1, InterfaceValue.read_text hv.2.2]
  | list items =>
    refine .cons (q := _) rfl ?_
    refine reads_items (fun ts =>
      { place := .under .interface
        openKey := some key
        model := { m with interface := (Dict.ofList before).insert key (.list ts) } })
      fun ts t _ => ?_
    show Except.ok (pushInterfaceItem _ key t) = _
    rw [pushInterfaceItem, insert_list_modify]

/-! ### Whole models -/

theorem reads_lines {m : Model} (h : m.IsWritable) :
    Reads mode {} m.lines { place := .under .patterns, model := m } := by
  obtain ⟨metadata, capability, parameters, outputs, interface, dependencies, patterns⟩ := m
  have hfields : Reads mode {}
      [.metadata .modelId metadata.modelId, .metadata .version metadata.version,
        .metadata .layer metadata.layer, .metadata .domain metadata.domain,
        .capability capability]
      { place := .capability, model := { metadata, capability } } :=
    .cons rfl (.cons rfl (.cons rfl (.cons rfl (.cons rfl (.nil _)))))
  have hparameters : Reads mode { place := .under .parameters, model := { metadata, capability } }
      ((parameters.map (·.write)).map .item)
      { place := .under .parameters, model := { metadata, capability, parameters } } :=
    reads_written Parameter.write (fun parameters =>
      { place := .under .parameters, model := { metadata, capability, parameters } })
      fun before p hp => by
        show takeItem mode _ p.write .parameters = _
        rw [takeItem, Parameter.read_write (h.parameters p hp)]
        rfl
  have houtputs : Reads mode
      { place := .under .outputs, model := { metadata, capability, parameters } }
      ((outputs.map (·.write)).map .item)
      { place := .under .outputs, model := { metadata, capability, parameters, outputs } } :=
    reads_written Output.write (fun outputs =>
      { place := .under .outputs, model := { metadata, capability, parameters, outputs } })
      fun before o ho => by
        show takeItem mode _ o.write .outputs = _
        rw [takeItem, Output.read_write (h.outputs o ho)]
        rfl
  have hinterface : Reads mode _ _ _ := reads_entries
    { metadata, capability, parameters, outputs } fun e he => (h.interface e he).2
  rw [Dict.ofList_toList] at hinterface
  have hdependencies : Reads mode
      { place := .under .dependencies,
        model := { metadata, capability, parameters, outputs, interface } }
      (dependencies.map .item)
      { place := .under .dependencies,
        model := { metadata, capability, parameters, outputs, interface, dependencies } } :=
    reads_items (fun dependencies =>
      { place := .under .dependencies,
        model := { metadata, capability, parameters, outputs, interface, dependencies } })
      fun _ _ _ => rfl
  have hpatterns : Reads mode
      { place := .under .patterns,
        model := { metadata, capability, parameters, outputs, interface, dependencies } }
      (patterns.map .item)
      { place := .under .patterns,
        model := { metadata, capability, parameters, outputs, interface, dependencies,
                   patterns } } :=
    reads_items (fun patterns =>
      { place := .under .patterns,
        model := { metadata, capability, parameters, outputs, interface, dependencies,
                   patterns } })
      fun _ _ _ => rfl
  exact ((((hfields.append (.cons rfl hparameters)).append (.cons rfl houtputs)).append
    (.cons rfl hinterface)).append (.cons rfl hdependencies)).append (.cons rfl hpatterns)

end Progress

/-- **A model that was written is read back**, in both modes, whatever stands before its indented
lines. -/
theorem Model.parse_write {margin : Text} {m : Model} (hm : Line.IsMargin margin)
    (h : m.IsWritable) (mode : ParseMode) : parse mode (m.write margin) = .ok m := by
  rw [parse, linesOf_write hm h, (Progress.reads_lines h).run]
  rfl

/-- A model whose fields look like other lines: like comments, headings, items, keys and lists. -/
def Model.sampleWritable : Model where
  metadata := { modelId := "#1", version := "1: 2", layer := [], domain := "- item" }
  capability := "Parameters:"
  parameters := [⟨"#mode", .choice ["- a", "b: c"], false⟩, ⟨"(optional", .number, true⟩]
  outputs := [⟨"-", some "Outputs:"⟩, ⟨"#", none⟩]
  interface := ⟨[("Model", .text "[draft"), ("tools", .list ["Patterns:", []])], by decide⟩
  dependencies := ["# not a comment", []]
  patterns := ["Version: 2"]

theorem Model.parse_write_sampleWritable :
    Line.IsMargin [' ', ' '] ∧ sampleWritable.IsWritable ∧
      parse .strict (sampleWritable.write [' ', ' ']) = .ok sampleWritable :=
  have hm : Line.IsMargin [' ', ' '] := by decide
  have h : sampleWritable.IsWritable := by decide
  ⟨hm, h, parse_write hm h .strict⟩

end ActionBundles
