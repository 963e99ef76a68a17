import ActionBundles.Proofs.FrontMatter

/-!
# What stands in a model

The renderers put the texts of a model into files that are read line by line, and look at none of
them again. They can, because whatever text a model was read from, its parts are sound
(`Model.IsSound`): no part holds a line feed, what stands at the end of a line has no blanks around
it, names are there and hold no colon, the values of a choice are there and hold no bar, and keys are
written with the letters of keys.

Soundness is kept by every line. A line has sound parts itself (`Line.isSound_classify`), and each
way in which a line is taken puts its parts into the model as they are, or reads an item, a kind or
the value of a key from them.
-/

namespace ActionBundles

/-! ### Sound parts -/

/-- A name as items have it. After strict reading it has no blank. -/
structure IsItemName (mode : ParseMode) (name : Text) : Prop where
  nonempty : name ≠ []
  isInline : Text.IsInline name
  noColon : ':' ∉ name
  noBlank : mode = .strict → ∀ c ∈ name, Text.isBlank c = false

/-- A choice offers values, and each could be written between bars. -/
def Kind.IsSound : Kind → Prop
  | .choice values => values ≠ [] ∧ ∀ v ∈ values, v ≠ [] ∧ Text.IsInline v ∧ '|' ∉ v
  | _ => True

/-- A parameter with a name and a kind that can be used. -/
structure Parameter.IsSound (mode : ParseMode) (p : Parameter) : Prop where
  name : IsItemName mode p.name
  kind : p.kind.IsSound

/-- An output with a name that can be used and, if any, a description on one line. -/
structure Output.IsSound (mode : ParseMode) (o : Output) : Prop where
  name : IsItemName mode o.name
  description : ∀ t ∈ o.description, t ≠ [] ∧ Text.IsInline t

/-- A value of a key: a text on one line, or single lines. -/
def InterfaceValue.IsSound : InterfaceValue → Prop
  | .text value => value ≠ [] ∧ Text.IsInline value
  | .list items => ∀ t ∈ items, '\n' ∉ t

/-- A model whose parts can be put into lines. -/
structure Model.IsSound (mode : ParseMode) (m : Model) : Prop where
  metadata : ∀ field, Text.IsInline (m.metadata.get field)
  capability : Text.IsInline m.capability
  parameters : ∀ p ∈ m.parameters, p.IsSound mode
  outputs : ∀ o ∈ m.outputs, o.IsSound mode
  interface : ∀ e ∈ m.interface.toList, Line.IsKey e.1 ∧ '\n' ∉ e.1 ∧ e.2.IsSound
  dependencies : ∀ t ∈ m.dependencies, Text.IsInline t
  patterns : ∀ t ∈ m.patterns, Text.IsInline t

/-- A line whose parts can be put into lines again. -/
def Line.IsSound : Line → Prop
  | .metadata _ value | .capability value | .item value => Text.IsInline value
  | .entry key value text _ => IsKey key ∧ Text.IsInline value ∧ text ≠ [] ∧ Text.IsInline text
  | .prose text _ => text ≠ [] ∧ Text.IsInline text
  | _ => True

theorem Text.isInline_nil : IsInline [] := ⟨List.not_mem_nil, rfl⟩

/-! ### Lines -/

namespace Line

theorem isKey_of_keyValue? {text key value : Text} (h : keyValue? text = some (key, value)) :
    IsKey key ∧ Text.trim value = value := by
  obtain ⟨gap, rest, hkey, -, -, rfl⟩ := keyValue?_eq_some_iff.1 h
  exact ⟨hkey, Text.trim_trim rest⟩

theorem isSound_ofKeyValue {key value text : Text} (hkey : IsKey key) (hvalue : Text.IsInline value)
    (hne : text ≠ []) (htext : Text.IsInline text) (indented : Bool) :
    (ofKeyValue key value text indented).IsSound := by
  have hentry : (entry key value text indented).IsSound := ⟨hkey, hvalue, hne, htext⟩
  rw [ofKeyValue]
  split
  · trivial
  split
  · exact hentry
  split
  · exact hvalue
  split
  · exact hvalue
  · exact hentry

/-- A line that holds no line feed has sound parts. -/
theorem isSound_classify {raw : Text} (h : '\n' ∉ raw) : (classify raw).IsSound := by
  have htrim : Text.IsInline (Text.trim raw) := Text.isInline_trim h
  rcases classify_cases raw with hskip | ⟨text, hitem⟩ | ⟨hne, ⟨key, value, hkey, hclass⟩ | hprose⟩
  · rw [hskip]
    trivial
  · have hitem' := classify_eq_item_iff.1 hitem
    rw [hitem]
    rcases hitem' with ⟨-, rfl⟩ | ⟨rest, hrest, rfl⟩
    · exact Text.isInline_nil
    · refine Text.isInline_trim fun hc => htrim.noLineEnd ?_
      rw [hrest]
      exact List.mem_cons_of_mem _ (List.mem_cons_of_mem _ hc)
  · obtain ⟨hword, hvalue⟩ := isKey_of_keyValue? hkey
    rw [hclass]
    exact isSound_ofKeyValue hword ⟨fun hc => htrim.noLineEnd (mem_of_keyValue? hkey hc), hvalue⟩
      hne htrim _
  · rw [hprose]
    exact ⟨hne, htrim⟩

end Line

/-! ### Items -/

/-- A name is not read if it is missing, nor in strict reading if a blank is in it. -/
theorem readName_eq_some {mode : ParseMode} {name : Text} (h : readName mode name = .ok (some name)) :
    name ≠ [] ∧ (mode = .strict → ∀ c ∈ name, Text.isBlank c = false) := by
  rw [readName] at h
  split at h
  · cases ParseMode.meet_eq_ok h
  · next hne =>
    refine ⟨hne, ?_⟩
    rintro rfl c hc
    split at h
    · cases h
    · next hblank => exact Bool.eq_false_iff.2 fun hb => hblank (List.any_eq_true.2 ⟨c, hc, hb⟩)

theorem IsNameIn.isItemName {mode : ParseMode} {text name : Text} (h : IsNameIn mode text name)
    (htext : '\n' ∉ text) : IsItemName mode name where
  nonempty := (readName_eq_some h.read).1
  isInline := ⟨fun hc => htext (h.part _ hc), h.trimmed⟩
  noColon := h.noColon
  noBlank := (readName_eq_some h.read).2

theorem Kind.isSound_read {mode : ParseMode} {type : Text} {kind : Kind}
    (h : read mode type = .ok kind) (htype : '\n' ∉ type) : kind.IsSound := by
  rcases of_read h with hother | ⟨rfl, hvalues⟩
  · cases kind with
    | choice values => exact absurd rfl (hother values)
    | _ => trivial
  · refine ⟨hvalues, fun v hv => ?_⟩
    have hline : '\n' ∉ v := fun hc => htype (mem_of_mem_choiceValues hv hc)
    obtain ⟨htrimmed, hne⟩ := List.mem_filter.1 hv
    obtain ⟨piece, hpiece, rfl⟩ := List.mem_map.1 htrimmed
    exact ⟨of_decide_eq_true hne, ⟨hline, Text.trim_trim piece⟩, fun hc =>
      Text.not_mem_of_mem_splitOn hpiece (Text.mem_of_mem_trim hc)⟩

theorem Parameter.isSound_read {mode : ParseMode} {text : Text} {p : Parameter}
    (h : read mode text = .ok (some p)) (htext : '\n' ∉ text) : p.IsSound mode := by
  obtain ⟨hname, hkind⟩ := of_read h
  refine ⟨hname.isItemName htext, ?_⟩
  rcases hkind with hstring | ⟨type, htype, hpart⟩
  · rw [hstring]
    trivial
  · exact Kind.isSound_read htype fun hc => htext (hpart _ hc)

theorem Output.isSound_read {mode : ParseMode} {text : Text} {o : Output}
    (h : read mode text = .ok (some o)) (htext : '\n' ∉ text) : o.IsSound mode := by
  obtain ⟨hname, hdescription⟩ := of_read h
  refine ⟨hname.isItemName htext, fun t ht => ?_⟩
  obtain ⟨hne, htrim, hpart⟩ := hdescription t ht
  exact ⟨hne, fun hc => htext (hpart _ hc), htrim⟩

theorem Text.mem_of_mem_trimMatches {p : Char → Bool} {t : Text} {c : Char}
    (h : c ∈ trimMatches p t) : c ∈ t := by
  have hcut := (List.dropWhile_suffix p).subset (List.mem_reverse.1 h)
  exact (List.dropWhile_suffix p).subset (List.mem_reverse.1 hcut)

theorem InterfaceValue.isSound_read {value : Text} (hne : value ≠ []) (h : Text.IsInline value) :
    (read value).IsSound := by
  rw [read]
  split
  · next inner hinner =>
    obtain ⟨rest, hopen, hclose⟩ := Option.bind_eq_some_iff.1 hinner
    have hpart : ∀ c ∈ inner, c ∈ value := fun c hc => by
      rw [Text.stripEnd?] at hclose
      split at hclose
      · cases hclose
        rw [Text.eq_append_of_stripStart? hopen]
        exact List.mem_append_right _ (List.dropLast_subset rest hc)
      · cases hclose
    intro t ht hc
    obtain ⟨piece, hpiece, rfl⟩ := List.mem_map.1 (List.mem_filter.1 ht).1
    have hmem := Text.mem_of_mem_trim (Text.mem_of_mem_trimMatches hc)
    exact h.noLineEnd (hpart _ (Text.mem_of_mem_splitOn hpiece hmem))
  · exact ⟨hne, h⟩

/-! ### Steps -/

namespace Progress

variable {mode : ParseMode} {p q : Progress} {text : Text}

/-- A capability that goes on with a trimmed line is trimmed. -/
theorem isSound_continueCapability (h : p.model.IsSound mode) (hne : text ≠ [])
    (htext : Text.IsInline text) : (p.continueCapability text).model.IsSound mode := by
  refine { h with capability := ?_ }
  show Text.IsInline (if p.model.capability = [] then text else p.model.capability ++ ' ' :: text)
  split
  · exact htext
  · next hsome =>
    refine ⟨?_, Text.trim_eq_self (fun c hc => ?_) fun c hc => ?_⟩
    · simp [h.capability.noLineEnd, htext.noLineEnd]
    · rw [List.head?_append_of_ne_nil _ hsome, ← h.capability.trimmed] at hc
      exact Text.isBlank_head_trim hc
    · rw [List.getLast?_append_cons, ← List.singleton_append,
        List.getLast?_append_of_ne_nil _ hne, ← htext.trimmed] at hc
      exact Text.isBlank_getLast_trim hc

theorem isSound_setInterface {key value : Text} (h : p.model.IsSound mode) (hkey : Line.IsKey key)
    (hvalue : Text.IsInline value) : (p.setInterface key value).model.IsSound mode := by
  have hinsert : ∀ v : InterfaceValue, v.IsSound →
      ∀ e ∈ (p.model.interface.insert key v).toList,
        Line.IsKey e.1 ∧ '\n' ∉ e.1 ∧ e.2.IsSound := fun v hv e he => by
    rcases Dict.mem_insertEntry he with rfl | he
    · exact ⟨hkey, Line.lineEnd_not_mem_key hkey, hv⟩
    · exact h.interface e he
  rw [setInterface]
  split
  · exact { h with interface := hinsert (.list []) (List.forall_mem_nil _) }
  · next hne => exact { h with interface := hinsert _ (InterfaceValue.isSound_read hne hvalue) }

theorem isSound_pushInterfaceItem (h : p.model.IsSound mode) (htext : '\n' ∉ text) (key : Text) :
    (p.pushInterfaceItem key text).model.IsSound mode := by
  refine { h with interface := fun e he => ?_ }
  obtain ⟨old, hold, rfl⟩ := List.mem_map.1 he
  obtain ⟨hkey, hline, hvalue⟩ := h.interface old hold
  split
  · refine ⟨hkey, hline, ?_⟩
    cases hcase : old.2 with
    | text value => rwa [hcase] at hvalue
    | list items =>
      rw [hcase] at hvalue
      exact List.forall_mem_append.2 ⟨hvalue, List.forall_mem_singleton.2 htext⟩
  · exact ⟨hkey, hline, hvalue⟩

theorem isSound_takesItem {s : Section} (h : p.model.IsSound mode) (htext : Text.IsInline text)
    (hq : p.TakesItem mode text s q) : q.model.IsSound mode := by
  cases hq with
  | @parameter item hitem =>
    refine { h with parameters := List.forall_mem_append.2 ⟨h.parameters, fun r hr => ?_⟩ }
    obtain rfl := Option.mem_toList.1 hr
    exact Parameter.isSound_read hitem htext.noLineEnd
  | @output item hitem =>
    refine { h with outputs := List.forall_mem_append.2 ⟨h.outputs, fun r hr => ?_⟩ }
    obtain rfl := Option.mem_toList.1 hr
    exact Output.isSound_read hitem htext.noLineEnd
  | dependency =>
    exact { h with
      dependencies := List.forall_mem_append.2 ⟨h.dependencies, List.forall_mem_singleton.2 htext⟩ }
  | pattern =>
    exact { h with
      patterns := List.forall_mem_append.2 ⟨h.patterns, List.forall_mem_singleton.2 htext⟩ }
  | keyed => exact isSound_pushInterfaceItem h htext.noLineEnd _
  | keyless => exact h

/-- A line with sound parts keeps a model sound. -/
theorem isSound_step {line : Line} (h : p.model.IsSound mode) (hline : line.IsSound)
    (hq : p.step mode line = .ok q) : q.model.IsSound mode := by
  cases takes_of_step hq with
  | skip | heading | strayItem | entryEnd | strayEntry | proseEnd | strayProse => exact h
  | metadata field value =>
    refine { h with metadata := fun other => ?_ }
    rw [Metadata.get_set]
    split
    · exact hline
    · exact h.metadata other
  | capability value => exact { h with capability := hline }
  | item _ hq => exact isSound_takesItem h hline hq
  | setting => exact isSound_setInterface h hline.1 hline.2.1
  | entryOn => exact isSound_continueCapability h hline.2.2.1 hline.2.2.2
  | proseOn => exact isSound_continueCapability h hline.1 hline.2

theorem isSound_run {ls : List Line} {number : Nat} (h : p.model.IsSound mode)
    (hls : ∀ line ∈ ls, line.IsSound) (hq : p.run mode number ls = .ok q) :
    q.model.IsSound mode := by
  induction ls generalizing p number with
  | nil =>
    cases hq
    exact h
  | cons line rest ih =>
    obtain ⟨p', hstep, hq⟩ := exists_of_run_cons hq
    obtain ⟨hline, hrest⟩ := List.forall_mem_cons.1 hls
    exact ih (isSound_step h hline hstep) hrest hq

end Progress

/-! ### Models -/

namespace Model

/-- A model that nothing was read into is sound. -/
theorem isSound_default (mode : ParseMode) : IsSound mode {} where
  metadata field := by cases field <;> exact Text.isInline_nil
  capability := Text.isInline_nil
  parameters := List.forall_mem_nil _
  outputs := List.forall_mem_nil _
  interface := List.forall_mem_nil _
  dependencies := List.forall_mem_nil _
  patterns := List.forall_mem_nil _

/-- **A model that was read is sound**, whatever text it was read from and in whichever mode. -/
theorem isSound_parse {mode : ParseMode} {text : Text} {m : Model} (h : parse mode text = .ok m) :
    m.IsSound mode := by
  obtain ⟨q, hq, rfl⟩ := exists_run_of_parse h
  refine Progress.isSound_run (isSound_default mode) (fun line hline => ?_) hq
  obtain ⟨raw, hraw, rfl⟩ := List.mem_map.1 hline
  exact Line.isSound_classify (Text.lineFeed_not_mem_lines hraw)

/-- A text with blanks in all places that have them, and irregular items. -/
def sampleBlanks : Text :=
  Text.unlines ["Model :  a.b\t", "Capability:", "   does", "\tmore  ", "Parameters:",
    "- my name :  x | | y (optional)", "- : string", "- n: a||", "Outputs:", " -  out: \t",
    "Interface:", "k.1 :  v w ", "list: [ ' i ', \"\" ]"]

/-- The model in that text. -/
def blanks : Model where
  metadata := { modelId := "a.b" }
  capability := "does more"
  parameters := [⟨"my name", .choice ["x", "y"], false⟩, ⟨"n", .choice ["a"], true⟩]
  outputs := [⟨"out", none⟩]
  interface := .ofList [("k.1", .text "v w"), ("list", .list [" i "])]

theorem isSound_parse_sampleBlanks :
    parse .permissive sampleBlanks = .ok blanks ∧ blanks.IsSound .permissive :=
  have h : parse .permissive sampleBlanks = .ok blanks := by decide +kernel
  ⟨h, isSound_parse h⟩

end Model

end ActionBundles
