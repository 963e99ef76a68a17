import ActionBundles.Model.Parser
import ActionBundles.Proofs.BundlePlaces
import ActionBundles.Proofs.WrittenItems

/-!
# Models that were read

To read a model is to cut a text, first into lines and then into parts of lines. So no part of a
model holds a line feed, whichever way it was read, and the names of its parameters and outputs have
no blanks around them.

What a line does is said once, by `Progress.Takes`, for everything that is shown of one step of the
reader and, by induction on the lines, of a whole run.
-/

namespace ActionBundles

/-! ### Cutting -/

namespace Text

variable {c : Char} {t : Text}

theorem mem_of_mem_trim (h : c ∈ trim t) : c ∈ t := by
  have hcut := trimEnd_prefix (trimStart t)
  exact (List.dropWhile_suffix isBlank).subset (hcut.subset h)

theorem trim_trim (t : Text) : trim (trim t) = trim t :=
  trim_eq_self (fun _ => isBlank_head_trim) fun _ => isBlank_getLast_trim

/-- What is trimmed of a part of a line can stand at the end of one. -/
theorem isInline_trim (h : '\n' ∉ t) : IsInline (trim t) :=
  ⟨fun hc => h (mem_of_mem_trim hc), trim_trim t⟩

theorem eq_append_of_stripStart? {lead rest : Text} (h : stripStart? lead t = some rest) :
    t = lead ++ rest := (List.isPrefixOf?_eq_some_iff_append_eq.1 h).symm

theorem mem_of_mem_stripAllStart {lead : Text} (h : c ∈ stripAllStart lead t) : c ∈ t := by
  induction hlength : t.length using Nat.strongRecOn generalizing t with
  | _ length ih =>
    rw [stripAllStart] at h
    split at h
    · next rest hrest =>
      split at h
      · next hlt =>
        rw [eq_append_of_stripStart? hrest]
        exact List.mem_append_right _ (ih rest.length (hlength ▸ hlt) h rfl)
      · exact h
    · exact h

theorem mem_of_mem_removeFrom {piece : Text} {pending : Nat}
    (h : c ∈ removeFrom piece pending t) : c ∈ t := by
  induction t generalizing pending with
  | nil =>
    cases pending <;> cases h
  | cons d rest ih =>
    cases pending with
    | succ pending => exact List.mem_cons_of_mem d (ih h)
    | zero =>
      rw [removeFrom] at h
      split at h
      · exact List.mem_cons_of_mem d (ih h)
      · rcases List.mem_cons.1 h with rfl | h
        · exact List.mem_cons_self
        · exact List.mem_cons_of_mem d (ih h)

theorem mem_of_mem_dropReturn {line : Text} (h : c ∈ dropReturn line) : c ∈ line := by
  obtain ⟨after, he, -⟩ := dropReturn_append line
  rw [he]
  exact List.mem_append_left after h

theorem exists_of_mem_closeLines {line : Text} {pieces : List Text} (h : line ∈ closeLines pieces) :
    ∃ piece ∈ pieces, ∀ c ∈ line, c ∈ piece := by
  induction pieces with
  | nil => cases h
  | cons piece rest ih =>
    cases rest with
    | nil =>
      rw [closeLines] at h
      split at h
      · cases h
      · exact ⟨piece, by simp, fun c hc => List.mem_singleton.1 h ▸ hc⟩
    | cons next rest =>
      rw [closeLines, List.mem_cons] at h
      rcases h with rfl | h
      · exact ⟨piece, by simp, fun c hc => mem_of_mem_dropReturn hc⟩
      · obtain ⟨piece', hmem, hsub⟩ := ih h
        exact ⟨piece', List.mem_cons_of_mem piece hmem, hsub⟩

/-- No line holds a line feed. -/
theorem lineFeed_not_mem_lines {line : Text} (h : line ∈ lines t) : '\n' ∉ line := fun hc => by
  obtain ⟨piece, hpiece, hsub⟩ := exists_of_mem_closeLines h
  exact not_mem_of_mem_splitOn hpiece (hsub _ hc)

end Text

/-! ### Lines -/

/-- No text of a line holds a line feed. -/
def Line.IsLinear : Line → Prop
  | .metadata _ value => '\n' ∉ value
  | .capability value => '\n' ∉ value
  | .item text => '\n' ∉ text
  | .entry _ _ text _ => '\n' ∉ text
  | .prose text _ => '\n' ∉ text
  | _ => True

namespace Line

theorem mem_of_keyValue? {c : Char} {text key value : Text} (h : keyValue? text = some (key, value))
    (hc : c ∈ value) : c ∈ text := by
  cases text with
  | nil => cases h
  | cons d rest =>
    rw [keyValue?] at h
    split at h
    · split at h
      · next value' hcut =>
        cases h
        have hsuffix : ':' :: value' <:+ rest :=
          hcut ▸ (List.dropWhile_suffix Text.isBlank).trans (List.dropWhile_suffix isKeyPart)
        exact List.mem_cons_of_mem d
          (hsuffix.subset (List.mem_cons_of_mem ':' (Text.mem_of_mem_trim hc)))
      · cases h
    · cases h

theorem isLinear_ofKeyValue {key value text : Text} (hvalue : '\n' ∉ value) (htext : '\n' ∉ text)
    (indented : Bool) : (ofKeyValue key value text indented).IsLinear := by
  rw [ofKeyValue]
  split
  · trivial
  split
  · exact htext
  split
  · exact hvalue
  split
  · exact hvalue
  · exact htext

theorem isLinear_classify {raw : Text} (h : '\n' ∉ raw) : (classify raw).IsLinear := by
  have htrim : '\n' ∉ Text.trim raw := fun hc => h (Text.mem_of_mem_trim hc)
  have hnil : IsLinear (.item []) := List.not_mem_nil
  rw [classify]
  split
  · trivial
  · trivial
  rw [ofContent]
  split
  · exact hnil
  split
  · next rest hrest =>
    refine fun hc => htrim ?_
    rw [Text.eq_append_of_stripStart? hrest]
    exact List.mem_append_right _ (Text.mem_of_mem_trim hc)
  split
  · next key value hkey =>
    exact isLinear_ofKeyValue (fun hc => htrim (mem_of_keyValue? hkey hc)) htrim _
  · exact htrim

end Line

/-! ### Items -/

/-- No value of a choice holds a line feed. -/
def Kind.IsLinear : Kind → Prop
  | .choice values => ∀ v ∈ values, '\n' ∉ v
  | _ => True

/-- A parameter from a single line. -/
structure Parameter.IsLinear (p : Parameter) : Prop where
  name : Text.IsInline p.name
  kind : p.kind.IsLinear

/-- An output from a single line. -/
structure Output.IsLinear (o : Output) : Prop where
  name : Text.IsInline o.name
  description : ∀ t ∈ o.description, '\n' ∉ t

/-- A name that is read is the text that it is read from. -/
theorem eq_of_readName {mode : ParseMode} {name n : Text} (h : readName mode name = .ok (some n)) :
    n = name := by
  rw [readName] at h
  split at h
  · cases ParseMode.meet_eq_ok h
  split at h
  · cases ParseMode.meet_eq_ok h
    rfl
  · cases h
    rfl

namespace Kind

variable {c : Char} {type value : Text}

theorem mem_of_mem_grouped? {group : Text} (h : grouped? type = some group) (hc : c ∈ group) :
    c ∈ type := by
  obtain ⟨halves, hopen, h⟩ := Option.bind_eq_some_iff.1 h
  obtain ⟨inner, hclose, rfl⟩ := Option.map_eq_some_iff.1 h
  rw [(Text.splitOnce_eq_some_iff.1 hopen).1, (Text.splitOnce_eq_some_iff.1 hclose).1]
  simp [hc]

theorem mem_of_mem_ungrouped (h : c ∈ ungrouped type) : c ∈ type :=
  (List.takeWhile_prefix _).subset
    (Text.mem_of_mem_trim (Text.mem_of_mem_stripAllStart (Text.mem_of_mem_trim h)))

theorem mem_of_mem_choiceValues (hvalue : value ∈ choiceValues type) (hc : c ∈ value) :
    c ∈ type := by
  obtain ⟨piece, hpiece, rfl⟩ := List.mem_map.1 (List.mem_filter.1 hvalue).1
  have hinner := Text.mem_of_mem_splitOn hpiece (Text.mem_of_mem_trim hc)
  cases hgroup : (grouped? type).filter fun group => '|' ∈ group with
  | none =>
    rw [hgroup] at hinner
    exact mem_of_mem_ungrouped hinner
  | some group =>
    rw [hgroup] at hinner
    exact mem_of_mem_grouped? (Option.filter_eq_some_iff.1 hgroup).1 hinner

/-- A kind that was read is no choice, or it offers the values of its type. -/
theorem of_read {mode : ParseMode} {kind : Kind} (h : read mode type = .ok kind) :
    (∀ values, kind ≠ .choice values) ∨
      kind = .choice (choiceValues type) ∧ choiceValues type ≠ [] := by
  have hstring : ∀ values, Kind.string ≠ .choice values := fun _ he => by cases he
  rw [read] at h
  split at h
  · cases hvalues : choiceValues type with
    | nil =>
      rw [hvalues] at h
      cases ParseMode.meet_eq_ok h
      exact .inl hstring
    | cons value values =>
      rw [hvalues] at h
      cases h
      exact .inr ⟨rfl, List.cons_ne_nil value values⟩
  · cases hwords : Text.words type with
    | nil =>
      rw [hwords] at h
      cases ParseMode.meet_eq_ok h
      exact .inl hstring
    | cons word rest =>
      rw [hwords] at h
      dsimp only at h
      cases hkind : Kind.ofWord? word with
      | none =>
        rw [hkind] at h
        cases ParseMode.meet_eq_ok h
        exact .inl hstring
      | some kind' =>
        rw [hkind] at h
        cases h
        obtain ⟨e, he, rfl⟩ : ∃ e ∈ Kind.words, e.2 = kind := by
          rw [ofWord?, List.lookup_eq_some_iff] at hkind
          obtain ⟨before, after, hwords, -⟩ := hkind
          exact ⟨(Text.asciiLower word, kind), by rw [hwords]; simp, rfl⟩
        have hall : ∀ e ∈ Kind.words, ∀ values, e.2 ≠ .choice values := by
          simp [Kind.words]
        exact .inl (hall e he)

theorem isLinear_read {mode : ParseMode} {kind : Kind} (h : read mode type = .ok kind)
    (htype : '\n' ∉ type) : kind.IsLinear := by
  rcases of_read h with hother | ⟨rfl, -⟩
  · cases kind with
    | choice values => exact absurd rfl (hother values)
    | _ => trivial
  · exact fun v hv hc => htype (mem_of_mem_choiceValues hv hc)

end Kind

/-- What a name that was read has to do with the text of its item. -/
structure IsNameIn (mode : ParseMode) (text name : Text) : Prop where
  read : readName mode name = .ok (some name)
  trimmed : Text.trim name = name
  noColon : ':' ∉ name
  part : ∀ c ∈ name, c ∈ text

/-- A parameter that was read has its name and the text of its type in the text of its item. -/
theorem Parameter.of_read {mode : ParseMode} {text : Text} {p : Parameter}
    (h : Parameter.read mode text = .ok (some p)) : IsNameIn mode text p.name ∧
      (p.kind = .string ∨ ∃ type, Kind.read mode type = .ok p.kind ∧ ∀ c ∈ type, c ∈ text) := by
  have hplain : ∀ c ∈ plainText text, c ∈ text := fun c hc =>
    Text.mem_of_mem_removeFrom (Text.mem_of_mem_trim hc)
  rw [Parameter.read] at h
  split at h
  · next hsplit =>
    obtain ⟨name, hname, h⟩ := exists_of_bind_eq_ok h
    cases name with
    | none => cases h
    | some n =>
      cases h
      obtain rfl := eq_of_readName hname
      exact ⟨⟨hname, Text.trim_trim _, Text.splitOnce_eq_none_iff.1 hsplit, hplain⟩, .inl rfl⟩
  · next before type hsplit =>
    obtain ⟨he, hcolon⟩ := Text.splitOnce_eq_some_iff.1 hsplit
    obtain ⟨name, hname, h⟩ := exists_of_bind_eq_ok h
    cases name with
    | none => cases h
    | some n =>
      obtain ⟨kind, hkind, h⟩ := exists_of_bind_eq_ok h
      cases h
      obtain rfl := eq_of_readName hname
      have hpart : ∀ c, c ∈ before ∨ c ∈ type → c ∈ text := fun c hc =>
        hplain c (by rw [he]; simp only [List.mem_append, List.mem_cons]; tauto)
      refine ⟨⟨hname, Text.trim_trim _, fun hc => hcolon (Text.mem_of_mem_trim hc), fun c hc => ?_⟩,
        .inr ⟨_, hkind, fun c hc => ?_⟩⟩
      · exact hpart c (.inl (Text.mem_of_mem_trim hc))
      · exact hpart c (.inr (Text.mem_of_mem_trim hc))

/-- An output that was read has its name and its description in the text of its item. -/
theorem Output.of_read {mode : ParseMode} {text : Text} {o : Output}
    (h : Output.read mode text = .ok (some o)) : IsNameIn mode text o.name ∧
      ∀ t ∈ o.description, t ≠ [] ∧ Text.trim t = t ∧ ∀ c ∈ t, c ∈ text := by
  rw [Output.read] at h
  split at h
  · next hsplit =>
    have hcolon := Text.splitOnce_eq_none_iff.1 hsplit
    obtain ⟨name, hname, h⟩ := exists_of_bind_eq_ok h
    cases name with
    | none => cases h
    | some n =>
      cases h
      obtain rfl := eq_of_readName hname
      exact ⟨⟨hname, Text.trim_trim _, fun hc => hcolon (Text.mem_of_mem_trim hc),
        fun c hc => Text.mem_of_mem_trim hc⟩, by simp⟩
  · next before after hsplit =>
    obtain ⟨he, hcolon⟩ := Text.splitOnce_eq_some_iff.1 hsplit
    dsimp only at h
    obtain ⟨name, hname, h⟩ := exists_of_bind_eq_ok h
    cases name with
    | none => cases h
    | some n =>
      cases h
      obtain rfl := eq_of_readName hname
      refine ⟨⟨hname, Text.trim_trim _, fun hc => hcolon (Text.mem_of_mem_trim hc), fun c hc => ?_⟩,
        fun t ht => ?_⟩
      · rw [he]
        exact List.mem_append_left _ (Text.mem_of_mem_trim hc)
      · dsimp only at ht
        split at ht
        · cases ht
        · next hne =>
          cases ht
          refine ⟨hne, Text.trim_trim after, fun c hc => ?_⟩
          rw [he]
          exact List.mem_append_right _ (List.mem_cons_of_mem ':' (Text.mem_of_mem_trim hc))

theorem Parameter.isLinear_read {mode : ParseMode} {text : Text} {p : Parameter}
    (h : Parameter.read mode text = .ok (some p)) (htext : '\n' ∉ text) : p.IsLinear := by
  obtain ⟨hname, hkind⟩ := Parameter.of_read h
  refine ⟨⟨fun hc => htext (hname.part _ hc), hname.trimmed⟩, ?_⟩
  rcases hkind with hstring | ⟨type, htype, hpart⟩
  · rw [hstring]
    trivial
  · exact Kind.isLinear_read htype fun hc => htext (hpart _ hc)

theorem Output.isLinear_read {mode : ParseMode} {text : Text} {o : Output}
    (h : Output.read mode text = .ok (some o)) (htext : '\n' ∉ text) : o.IsLinear := by
  obtain ⟨hname, hdescription⟩ := Output.of_read h
  exact ⟨⟨fun hc => htext (hname.part _ hc), hname.trimmed⟩,
    fun t ht hc => htext ((hdescription t ht).2.2 _ hc)⟩

/-! ### Steps -/

namespace Progress

variable {mode : ParseMode} {p q : Progress} {line : Line}

/-- What comes of an item that is taken in a section. -/
inductive TakesItem (mode : ParseMode) (p : Progress) (text : Text) :
    Section → Progress → Prop where
  | parameter {item : Option Parameter} (hitem : Parameter.read mode text = .ok item) :
      TakesItem mode p text .parameters
        { p with model := { p.model with parameters := p.model.parameters ++ item.toList } }
  | output {item : Option Output} (hitem : Output.read mode text = .ok item) :
      TakesItem mode p text .outputs
        { p with model := { p.model with outputs := p.model.outputs ++ item.toList } }
  | dependency : TakesItem mode p text .dependencies
      { p with model := { p.model with dependencies := p.model.dependencies ++ [text] } }
  | pattern : TakesItem mode p text .patterns
      { p with model := { p.model with patterns := p.model.patterns ++ [text] } }
  | keyed {key : Text} (hkey : p.openKey = some key) :
      TakesItem mode p text .interface (p.pushInterfaceItem key text)
  | keyless (hkey : p.openKey = none) : TakesItem mode p text .interface p

theorem takesItem_of_takeItem {text : Text} {s : Section} (hq : p.takeItem mode text s = .ok q) :
    p.TakesItem mode text s q := by
  cases s with
  | parameters =>
    obtain ⟨item, hitem, hq⟩ := exists_of_bind_eq_ok hq
    cases hq
    exact .parameter hitem
  | outputs =>
    obtain ⟨item, hitem, hq⟩ := exists_of_bind_eq_ok hq
    cases hq
    exact .output hitem
  | dependencies =>
    cases hq
    exact .dependency
  | patterns =>
    cases hq
    exact .pattern
  | interface =>
    rw [takeItem] at hq
    split at hq
    · next hkey =>
      cases hq
      exact .keyed hkey
    · next hkey =>
      cases ParseMode.meet_eq_ok hq
      exact .keyless hkey

/-- What comes of a line that is taken. A stray one leaves everything as it is, except that it ends
the capability. -/
inductive Takes (mode : ParseMode) (p : Progress) : Line → Progress → Prop where
  | skip : Takes mode p .skip p
  | metadata (field : MetadataField) (value : Text) : Takes mode p (.metadata field value)
      { place := .metadata
        model := { p.model with metadata := p.model.metadata.set field value } }
  | capability (value : Text) : Takes mode p (.capability value)
      { place := .capability, model := { p.model with capability := value } }
  | heading (s : Section) : Takes mode p (.heading s) { place := .under s, model := p.model }
  | item {text : Text} {s : Section} {q : Progress} (hplace : p.place = .under s)
      (hq : p.TakesItem mode text s q) : Takes mode p (.item text) q
  | strayItem {text : Text} (hplace : ∀ s, p.place ≠ .under s) : Takes mode p (.item text) p
  | setting {key value text : Text} {indented : Bool} (hplace : p.place = .under .interface) :
      Takes mode p (.entry key value text indented) (p.setInterface key value)
  | entryOn {key value text : Text} (hplace : p.place = .capability) :
      Takes mode p (.entry key value text true) (p.continueCapability text)
  | entryEnd {key value text : Text} (hplace : p.place = .capability) :
      Takes mode p (.entry key value text false) { p with place := .start }
  | strayEntry {key value text : Text} {indented : Bool} (hcapability : p.place ≠ .capability)
      (hinterface : p.place ≠ .under .interface) : Takes mode p (.entry key value text indented) p
  | proseOn {text : Text} (hplace : p.place = .capability) :
      Takes mode p (.prose text true) (p.continueCapability text)
  | proseEnd {text : Text} (hplace : p.place = .capability) :
      Takes mode p (.prose text false) { p with place := .start }
  | strayProse {text : Text} {indented : Bool} (hplace : p.place ≠ .capability) :
      Takes mode p (.prose text indented) p

theorem takes_of_step (hq : p.step mode line = .ok q) : p.Takes mode line q := by
  cases line with
  | skip =>
    cases hq
    exact .skip
  | metadata field value =>
    cases hq
    exact .metadata field value
  | capability value =>
    cases hq
    exact .capability value
  | heading s =>
    cases hq
    exact .heading s
  | item text =>
    rw [step] at hq
    split at hq
    · next hplace => exact .item hplace (takesItem_of_takeItem hq)
    · next hplace =>
      cases ParseMode.meet_eq_ok hq
      exact .strayItem hplace
  | entry key value text indented =>
    rw [step] at hq
    split at hq
    · next hplace =>
      cases indented with
      | true =>
        cases hq
        exact .entryOn hplace
      | false =>
        cases ParseMode.meet_eq_ok hq
        exact .entryEnd hplace
    · next hplace =>
      cases hq
      exact .setting hplace
    · next hcapability hinterface =>
      cases ParseMode.meet_eq_ok hq
      exact .strayEntry hcapability hinterface
  | prose text indented =>
    rw [step] at hq
    split at hq
    · next hplace =>
      cases indented with
      | true =>
        cases hq
        exact .proseOn hplace
      | false =>
        cases ParseMode.meet_eq_ok hq
        exact .proseEnd hplace
    · next hplace =>
      cases ParseMode.meet_eq_ok hq
      exact .strayProse hplace

/-- A run begins with a step. -/
theorem exists_of_run_cons {number : Nat} {rest : List Line}
    (hq : p.run mode number (line :: rest) = .ok q) :
    ∃ p', p.step mode line = .ok p' ∧ p'.run mode (number + 1) rest = .ok q := by
  rw [run] at hq
  split at hq
  · cases hq
  · next p' hstep => exact ⟨p', hstep, hq⟩

end Progress

/-! ### Models -/

/-- A model whose parts are parts of lines. -/
structure Model.IsLinear (m : Model) : Prop where
  metadata : ∀ field, '\n' ∉ m.metadata.get field
  capability : '\n' ∉ m.capability
  parameters : ∀ p ∈ m.parameters, p.IsLinear
  outputs : ∀ o ∈ m.outputs, o.IsLinear

namespace Progress

variable {mode : ParseMode} {p q : Progress}

theorem isLinear_continueCapability (h : p.model.IsLinear) {text : Text} (htext : '\n' ∉ text) :
    (p.continueCapability text).model.IsLinear := by
  refine ⟨h.metadata, ?_, h.parameters, h.outputs⟩
  show '\n' ∉ if p.model.capability = [] then text else p.model.capability ++ ' ' :: text
  split
  · exact htext
  · simp [h.capability, htext]

theorem isLinear_takesItem {s : Section} {text : Text} (h : p.model.IsLinear)
    (htext : '\n' ∉ text) (hq : p.TakesItem mode text s q) : q.model.IsLinear := by
  cases hq with
  | @parameter item hitem =>
    refine ⟨h.metadata, h.capability, fun r hr => ?_, h.outputs⟩
    rcases List.mem_append.1 hr with hr | hr
    · exact h.parameters r hr
    · cases item with
      | none => cases hr
      | some r' =>
        obtain rfl := List.mem_singleton.1 hr
        exact Parameter.isLinear_read hitem htext
  | @output item hitem =>
    refine ⟨h.metadata, h.capability, h.parameters, fun r hr => ?_⟩
    rcases List.mem_append.1 hr with hr | hr
    · exact h.outputs r hr
    · cases item with
      | none => cases hr
      | some r' =>
        obtain rfl := List.mem_singleton.1 hr
        exact Output.isLinear_read hitem htext
  | dependency | pattern | keyed => exact ⟨h.metadata, h.capability, h.parameters, h.outputs⟩
  | keyless => exact h

/-- A line keeps a model one of parts of lines. -/
theorem isLinear_step {line : Line} (h : p.model.IsLinear) (hline : line.IsLinear)
    (hq : p.step mode line = .ok q) : q.model.IsLinear := by
  cases takes_of_step hq with
  | skip | heading | strayItem | entryEnd | strayEntry | proseEnd | strayProse => exact h
  | metadata field value =>
    refine ⟨fun other => ?_, h.capability, h.parameters, h.outputs⟩
    rw [Metadata.get_set]
    split
    · exact hline
    · exact h.metadata other
  | capability value => exact ⟨h.metadata, hline, h.parameters, h.outputs⟩
  | item _ hq => exact isLinear_takesItem h hline hq
  | setting =>
    rw [setInterface]
    split <;> exact ⟨h.metadata, h.capability, h.parameters, h.outputs⟩
  | entryOn | proseOn => exact isLinear_continueCapability h hline

theorem isLinear_run {ls : List Line} {number : Nat} (h : p.model.IsLinear)
    (hls : ∀ line ∈ ls, line.IsLinear) (hq : p.run mode number ls = .ok q) : q.model.IsLinear := by
  induction ls generalizing p number with
  | nil =>
    cases hq
    exact h
  | cons line rest ih =>
    obtain ⟨p', hstep, hq⟩ := exists_of_run_cons hq
    obtain ⟨hline, hrest⟩ := List.forall_mem_cons.1 hls
    exact ih (isLinear_step h hline hstep) hrest hq

end Progress

theorem Model.exists_run_of_parse {mode : ParseMode} {text : Text} {m : Model}
    (h : parse mode text = .ok m) :
    ∃ q, Progress.run mode {} 1 (linesOf text) = .ok q ∧ q.model = m := by
  rw [parse] at h
  cases hrun : Progress.run mode {} 1 (linesOf text) with
  | error e =>
    rw [hrun] at h
    cases h
  | ok q =>
    rw [hrun] at h
    cases h
    exact ⟨q, rfl, rfl⟩

/-- **What is read fits into lines**: no part of a model that was read holds a line feed. -/
theorem Model.isLinear_parse {mode : ParseMode} {text : Text} {m : Model}
    (h : parse mode text = .ok m) : m.IsLinear := by
  obtain ⟨q, hq, rfl⟩ := exists_run_of_parse h
  refine Progress.isLinear_run ⟨fun field => ?_, by simp, by simp, by simp⟩ ?_ hq
  · cases field <;> exact List.not_mem_nil
  · intro line hline
    obtain ⟨raw, hraw, rfl⟩ := List.mem_map.1 hline
    exact Line.isLinear_classify (Text.lineFeed_not_mem_lines hraw)

end ActionBundles
