import ActionBundles.Proofs.Headings

/-!
# Metadata and capability

What the metadata and the capability of a model say has a meaning that speaks of the lines alone. A
metadata field has the value of the last line at the margin with its word. The capability is put
together from the value of the last line at the margin with the word `Capability` and the lines that
go on with it: the indented lines of prose or with a key, up to the next line of metadata, heading,
or line of prose or with a key at the margin. Comments and items neither go on with it nor end it.

The reader does much else in the meantime. `Front` is what it knows of metadata and capability, and
this much of it changes by itself, in the same way in both modes (`front_step`, `front_run`), so that
the rest is about runs of `Front` alone.
-/

namespace ActionBundles

/-! ### Lines at the margin -/

namespace Line

variable {raw text word key value : Text} {field : MetadataField} {line : Line}

/-- What a line at the margin says under a word: the text after the colon that follows the word. -/
def valueOf? (word raw : Text) : Option Text :=
  match (Text.stripStart? word raw).map Text.trimStart with
  | some (':' :: value) => some (Text.trim value)
  | _ => none

/-- Whether a line goes on with a capability: an indented line of prose or with a key. -/
def continuesCapability (raw : Text) : Bool :=
  match classify raw with
  | .entry _ _ _ true | .prose _ true => true
  | _ => false

/-- Whether a line ends a capability: metadata, a heading, and prose or a key at the margin. -/
def endsCapability (raw : Text) : Bool :=
  match classify raw with
  | .metadata _ _ | .heading _ | .entry _ _ _ false | .prose _ false => true
  | _ => false

/-- Whether a line starts with a blank. -/
def isIndented (raw : Text) : Bool := (raw.head?.map Text.isBlank).getD false

/-- What the class of a line can be. -/
theorem classify_cases (raw : Text) :
    classify raw = .skip ∨ (∃ text, classify raw = .item text) ∨ Text.trim raw ≠ [] ∧
      ((∃ key value, keyValue? (Text.trim raw) = some (key, value) ∧
          classify raw = ofKeyValue key value (Text.trim raw) (isIndented raw)) ∨
        classify raw = .prose (Text.trim raw) (isIndented raw)) := by
  rw [classify]
  split
  · exact .inl rfl
  · exact .inl rfl
  · next hne _ =>
    rw [ofContent]
    split
    · exact .inr (.inl ⟨_, rfl⟩)
    split
    · exact .inr (.inl ⟨_, rfl⟩)
    split
    · next key value hkey => exact .inr (.inr ⟨hne, .inl ⟨key, value, hkey, rfl⟩⟩)
    · exact .inr (.inr ⟨hne, .inr rfl⟩)

theorem valueOf?_eq_some_iff : valueOf? word raw = some value ↔
    ∃ gap rest, (∀ c ∈ gap, Text.isBlank c = true) ∧ raw = word ++ (gap ++ ':' :: rest) ∧
      value = Text.trim rest := by
  rw [valueOf?]
  constructor
  · intro h
    split at h
    · next after hcut =>
      obtain ⟨tail, htail, htrim⟩ := Option.map_eq_some_iff.1 hcut
      refine ⟨tail.takeWhile Text.isBlank, after, fun c hc => List.mem_takeWhile_imp hc, ?_,
        (Option.some.inj h).symm⟩
      rw [← htrim, Text.trimStart, List.takeWhile_append_dropWhile]
      exact Text.eq_append_of_stripStart? htail
    · cases h
  · rintro ⟨gap, rest, hgap, rfl, rfl⟩
    have hcut : Text.stripStart? word (word ++ (gap ++ ':' :: rest)) = some (gap ++ ':' :: rest) :=
      List.isPrefixOf?_eq_some_iff_append_eq.2 rfl
    rw [hcut, Option.map_some, Text.trimStart_append_of_blank hgap,
      Text.trimStart_of_head (by decide)]
    rfl

theorem classify_of_valueOf? (hk : IsKey word) (h : valueOf? word raw = some value) :
    ∃ text, classify raw = ofKeyValue word value text false := by
  obtain ⟨gap, rest, hgap, rfl, rfl⟩ := valueOf?_eq_some_iff.1 h
  exact ⟨_, classify_spaced blank_nil hk hgap rest⟩

theorem keyValue?_eq_some_iff : keyValue? text = some (key, value) ↔
    ∃ gap rest, IsKey key ∧ (∀ c ∈ gap, Text.isBlank c = true) ∧
      text = key ++ (gap ++ ':' :: rest) ∧ value = Text.trim rest := by
  constructor
  · intro h
    match text with
    | [] => cases h
    | c :: tail =>
      rw [keyValue?] at h
      split at h
      · next hstart =>
        split at h
        · next after hcut =>
          cases h
          refine ⟨(tail.dropWhile isKeyPart).takeWhile Text.isBlank, after,
            ⟨hstart, fun d hd => List.mem_takeWhile_imp hd⟩, fun d hd => List.mem_takeWhile_imp hd,
            ?_, rfl⟩
          rw [← hcut, Text.trimStart, List.takeWhile_append_dropWhile, List.cons_append,
            List.takeWhile_append_dropWhile]
        · cases h
      · cases h
  · rintro ⟨gap, rest, hkey, hgap, rfl, rfl⟩
    exact keyValue?_spaced hkey hgap rest

/-- A key that a line at the margin has is a word that it starts with. -/
theorem valueOf?_of_keyValue? (h : keyValue? (Text.trim raw) = some (key, value))
    (hmargin : isIndented raw = false) : valueOf? key raw = some value := by
  obtain ⟨gap, rest, -, hgap, htrim, rfl⟩ := keyValue?_eq_some_iff.1 h
  have hstart : Text.trimStart raw = raw := by
    match raw with
    | [] => rfl
    | c :: raw => exact Text.trimStart_of_head hmargin
  obtain ⟨after, hraw, hafter⟩ := Text.trimEnd_append raw
  rw [Text.trim, hstart] at htrim
  refine valueOf?_eq_some_iff.2
    ⟨gap, rest ++ after, hgap, ?_, (Text.trim_append_of_blank hafter rest).symm⟩
  rw [hraw, htrim]
  simp

/-- Whether lines of a class stand at the margin always: metadata and the capability do. -/
def isMarginal : Line → Bool
  | .metadata _ _ | .capability _ => true
  | _ => false

/-- An indented key heads a section or is a key. -/
theorem ofKeyValue_indented (key value text : Text) :
    (∃ s, ofKeyValue key value text true = .heading s) ∨
      ofKeyValue key value text true = .entry key value text true := by
  rw [ofKeyValue]
  split
  · next s _ => exact .inl ⟨s, rfl⟩
  · exact .inr rfl

/-- A key at the margin heads a section, has the word of the capability or of a metadata field, or is
another key. -/
theorem ofKeyValue_margin (key value text : Text) :
    (∃ s, ofKeyValue key value text false = .heading s) ∨
      (key = "Capability" ∧ ofKeyValue key value text false = .capability value) ∨
      (∃ field, MetadataField.ofKey? key = some field ∧
        ofKeyValue key value text false = .metadata field value) ∨
      ofKeyValue key value text false = .entry key value text false := by
  rw [ofKeyValue]
  split
  · next s _ => exact .inl ⟨s, rfl⟩
  · rw [if_neg Bool.false_ne_true]
    split
    · next hword => exact .inr (.inl ⟨hword, rfl⟩)
    · split
      · next field hfield => exact .inr (.inr (.inl ⟨field, hfield, rfl⟩))
      · exact .inr (.inr (.inr rfl))

/-- A line that is metadata or the capability starts with the word for it. -/
theorem of_isMarginal_classify (h : (classify raw).isMarginal = true) :
    (∃ value, valueOf? "Capability" raw = some value ∧ classify raw = .capability value) ∨
      ∃ word field value, MetadataField.ofKey? word = some field ∧ valueOf? word raw = some value ∧
        classify raw = .metadata field value := by
  rcases classify_cases raw with hskip | ⟨text, hitem⟩ | ⟨-, ⟨key, value, hkey, hclass⟩ | hprose⟩
  · rw [hskip] at h
    cases h
  · rw [hitem] at h
    cases h
  · rw [hclass] at h ⊢
    cases hmargin : isIndented raw with
    | true =>
      rw [hmargin] at h
      rcases ofKeyValue_indented key value (Text.trim raw) with ⟨s, hline⟩ | hline
      all_goals
        rw [hline] at h
        cases h
    | false =>
      rw [hmargin] at h
      have hvalue := valueOf?_of_keyValue? hkey hmargin
      rcases ofKeyValue_margin key value (Text.trim raw) with
        ⟨s, hline⟩ | ⟨rfl, hline⟩ | ⟨field, hfield, hline⟩ | hline
      · rw [hline] at h
        cases h
      · exact .inl ⟨value, hvalue, hline⟩
      · exact .inr ⟨key, field, value, hfield, hvalue, hline⟩
      · rw [hline] at h
        cases h
  · rw [hprose] at h
    cases h

theorem classify_eq_metadata_iff (hword : (word, field) ∈ MetadataField.words) :
    classify raw = .metadata field value ↔ valueOf? word raw = some value := by
  have hwords : ∀ e ∈ MetadataField.words, IsKey e.1 ∧ Section.ofKey? e.1 = none ∧
      e.1 ≠ ("Capability" : Text) ∧ MetadataField.ofKey? e.1 = some e.2 ∧
      ∀ e' ∈ MetadataField.words, e'.2 = e.2 → e'.1 = e.1 := by decide
  obtain ⟨hkey, hsection, hother, hfield, honly⟩ := hwords _ hword
  constructor
  · intro h
    have hmarginal : (classify raw).isMarginal = true := by
      rw [h]
      rfl
    rcases of_isMarginal_classify hmarginal with
      ⟨_, -, hclass⟩ | ⟨other, _, _, hother, hvalue, hclass⟩
    · cases h.symm.trans hclass
    · cases h.symm.trans hclass
      obtain ⟨before, after, hsplit, -⟩ := List.lookup_eq_some_iff.1 hother
      have hsame : other = word := honly (other, field) (by rw [hsplit]; simp) rfl
      rwa [← hsame]
  · intro h
    obtain ⟨text, hclass⟩ := classify_of_valueOf? hkey h
    rw [hclass, ofKeyValue_metadata hsection hother hfield]

theorem classify_eq_capability_iff :
    classify raw = .capability value ↔ valueOf? "Capability" raw = some value := by
  constructor
  · intro h
    have hmarginal : (classify raw).isMarginal = true := by
      rw [h]
      rfl
    rcases of_isMarginal_classify hmarginal with
      ⟨_, hvalue, hclass⟩ | ⟨_, _, _, -, -, hclass⟩
    · cases h.symm.trans hclass
      exact hvalue
    · cases h.symm.trans hclass
  · intro h
    obtain ⟨text, hclass⟩ := classify_of_valueOf? (by decide) h
    rw [hclass, ofKeyValue_capability]

/-- A line that goes on with a capability does so with its whole text. -/
theorem of_continuesCapability (h : continuesCapability raw = true) :
    Text.trim raw ≠ [] ∧ ((∃ key value, classify raw = .entry key value (Text.trim raw) true) ∨
      classify raw = .prose (Text.trim raw) true) := by
  rw [continuesCapability] at h
  rcases classify_cases raw with hskip | ⟨text, hitem⟩ | ⟨hne, ⟨key, value, -, hclass⟩ | hprose⟩
  · rw [hskip] at h
    cases h
  · rw [hitem] at h
    cases h
  · rw [hclass] at h ⊢
    cases hindented : isIndented raw with
    | true =>
      rw [hindented] at h
      rcases ofKeyValue_indented key value (Text.trim raw) with ⟨s, hline⟩ | hline
      · rw [hline] at h
        cases h
      · exact ⟨hne, .inl ⟨key, value, hline⟩⟩
    | false =>
      rw [hindented] at h
      rcases ofKeyValue_margin key value (Text.trim raw) with
        ⟨s, hline⟩ | ⟨-, hline⟩ | ⟨field, -, hline⟩ | hline
      all_goals
        rw [hline] at h
        cases h
  · rw [hprose] at h ⊢
    cases hindented : isIndented raw with
    | true => exact ⟨hne, .inr rfl⟩
    | false =>
      rw [hindented] at h
      cases h

end Line

/-! ### What is known of metadata and capability -/

/-- The metadata and the capability so far, and whether the next line can go on with it. -/
structure Front where
  metadata : Metadata := {}
  capability : Text := []
  isOpen : Bool := false

namespace Front

/-- What a line of prose or with a key does: while the capability is open, it goes on with it or ends
it. -/
def takeText (f : Front) (text : Text) (indented : Bool) : Front :=
  if !f.isOpen then f
  else if indented then
    { f with capability := if f.capability = [] then text else f.capability ++ ' ' :: text }
  else { f with isOpen := false }

/-- What a line does to metadata and capability. -/
def step (f : Front) : Line → Front
  | .skip | .item _ => f
  | .metadata field value => { f with metadata := f.metadata.set field value, isOpen := false }
  | .capability value => { f with capability := value, isOpen := true }
  | .heading _ => { f with isOpen := false }
  | .entry _ _ text indented | .prose text indented => f.takeText text indented

theorem takeText_of_closed {f : Front} (h : f.isOpen = false) (text : Text) (indented : Bool) :
    f.takeText text indented = f := by
  rw [takeText, h]
  rfl

theorem takeText_of_open {f : Front} (h : f.isOpen = true) (text : Text) (indented : Bool) :
    f.takeText text indented =
      if indented then
        { f with capability := if f.capability = [] then text else f.capability ++ ' ' :: text }
      else { f with isOpen := false } := by
  rw [takeText, h]
  rfl

end Front

namespace Progress

variable {mode : ParseMode} {p q : Progress} {line : Line}

/-- What a reader knows of metadata and capability. -/
def front (p : Progress) : Front where
  metadata := p.model.metadata
  capability := p.model.capability
  isOpen := p.place = .capability

theorem front_takesItem {text : Text} {s : Section} (hq : p.TakesItem mode text s q) :
    q.front = p.front := by
  cases hq <;> rfl

theorem isOpen_front_of_ne (h : p.place ≠ .capability) : p.front.isOpen = false := decide_eq_false h

/-- An open capability goes on with an indented line. -/
theorem front_continueCapability (hplace : p.place = .capability) (text : Text) :
    (p.continueCapability text).front = p.front.takeText text true := by
  rw [Front.takeText_of_open (decide_eq_true hplace)]
  rfl

/-- A line at the margin ends an open capability. -/
theorem front_start (hplace : p.place = .capability) (text : Text) :
    ({ p with place := .start } : Progress).front = p.front.takeText text false := by
  rw [Front.takeText_of_open (decide_eq_true hplace)]
  rfl

/-- In both modes, what a line does to metadata and capability depends on these alone. -/
theorem front_step (hq : p.step mode line = .ok q) : q.front = p.front.step line := by
  cases takes_of_step hq with
  | skip | metadata | capability | heading | strayItem => rfl
  | item _ hq => exact front_takesItem hq
  | setting hplace =>
    rw [Front.step, Front.takeText_of_closed (isOpen_front_of_ne (by simp [hplace])),
      setInterface]
    split <;> rfl
  | entryOn hplace | proseOn hplace => exact front_continueCapability hplace _
  | entryEnd hplace | proseEnd hplace => exact front_start hplace _
  | strayEntry hplace _ | strayProse hplace =>
    rw [Front.step, Front.takeText_of_closed (isOpen_front_of_ne hplace)]

theorem front_run {number : Nat} {ls : List Line} (hq : p.run mode number ls = .ok q) :
    q.front = ls.foldl Front.step p.front := by
  induction ls generalizing p number with
  | nil =>
    cases hq
    rfl
  | cons line rest ih =>
    obtain ⟨p', hstep, hq⟩ := exists_of_run_cons hq
    rw [ih hq, front_step hstep, List.foldl_cons]

end Progress

/-! ### Runs -/

/-- The value that a line gives a field, if it gives it one. -/
def Line.fieldValue? (field : MetadataField) : Line → Option Text
  | .metadata field' value => if field' = field then some value else none
  | _ => none

/-- Texts one after another with a space between them, without the empty ones. -/
def Text.sentence (ts : List Text) : Text := join [' '] (ts.filter (· ≠ []))

theorem Text.sentence_singleton (t : Text) : sentence [t] = t := by
  by_cases h : t = []
  · subst h
    rfl
  · rw [sentence, List.filter_cons_of_pos (by simpa using h), List.filter_nil, join,
      List.intercalate_singleton]

/-- Two texts that are joined count as one. -/
theorem Text.sentence_cons_cons {u : Text} (hu : u ≠ []) (t : Text) (ts : List Text) :
    sentence (t :: u :: ts) = sentence ((if t = [] then u else t ++ ' ' :: u) :: ts) := by
  have hfilter (v : Text) (hv : v ≠ []) :
      (v :: ts).filter (· ≠ []) = v :: ts.filter (· ≠ []) :=
    List.filter_cons_of_pos (by simpa using hv)
  by_cases ht : t = []
  · rw [if_pos ht, sentence, List.filter_cons_of_neg (by simp [ht]), sentence]
  · rw [if_neg ht, sentence, List.filter_cons_of_pos (by simp [ht]), hfilter u hu, sentence,
      hfilter _ (by simp), join, join]
    cases ts.filter (· ≠ []) with
    | nil => simp
    | cons v vs => simp [List.intercalate_cons_cons]

namespace Front

variable {f : Front} {field : MetadataField} {line : Line} {raws : List Text} {raw : Text}

theorem get_step (f : Front) (field : MetadataField) (line : Line) :
    (f.step line).metadata.get field = (line.fieldValue? field).getD (f.metadata.get field) := by
  cases line with
  | metadata field' value =>
    rw [step, Metadata.get_set, Line.fieldValue?]
    by_cases h : field = field'
    · rw [if_pos h, if_pos h.symm, Option.getD_some]
    · rw [if_neg h, if_neg (Ne.symm h), Option.getD_none]
  | entry key value text indented | prose text indented =>
    rw [step, takeText]
    split
    · rfl
    · split <;> rfl
  | _ => rfl

/-- After a run, a field has the last value that a line gave it. -/
theorem get_foldl (f : Front) (field : MetadataField) (ls : List Line) :
    (ls.foldl step f).metadata.get field =
      (ls.filterMap (Line.fieldValue? field)).getLastD (f.metadata.get field) := by
  induction ls generalizing f with
  | nil => rfl
  | cons line rest ih =>
    rw [List.foldl_cons, ih, get_step, List.filterMap_cons]
    cases line.fieldValue? field with
    | none => rfl
    | some value => rw [Option.getD_some, List.getLastD_cons]

/-- Where the capability is closed, only a new one changes it. -/
theorem foldl_of_closed (h : f.isOpen = false) {ls : List Line}
    (hls : ∀ line ∈ ls, ∀ value, line ≠ .capability value) :
    (ls.foldl step f).capability = f.capability := by
  induction ls generalizing f with
  | nil => rfl
  | cons line rest ih =>
    have hrest := fun line' h' => hls line' (List.mem_cons_of_mem line h')
    have hstep : (f.step line).isOpen = false ∧ (f.step line).capability = f.capability := by
      cases line with
      | capability value => exact absurd rfl (hls _ List.mem_cons_self value)
      | entry | prose =>
        rw [step, takeText_of_closed h]
        exact ⟨h, rfl⟩
      | skip | item => exact ⟨h, rfl⟩
      | metadata | heading => exact ⟨rfl, rfl⟩
    rw [List.foldl_cons, ih hstep.1 hrest, hstep.2]

/-- The text that an open capability goes on with. -/
theorem step_continuesCapability (h : f.isOpen = true)
    (hraw : Line.continuesCapability raw = true) :
    (f.step (Line.classify raw)).isOpen = true ∧ (f.step (Line.classify raw)).capability =
      if f.capability = [] then Text.trim raw else f.capability ++ ' ' :: Text.trim raw := by
  have hstep : f.step (Line.classify raw) = f.takeText (Text.trim raw) true := by
    rcases (Line.of_continuesCapability hraw).2 with ⟨key, value, hclass⟩ | hclass
    all_goals rw [hclass, step]
  rw [hstep, takeText_of_open h]
  exact ⟨h, rfl⟩

theorem step_endsCapability (h : f.isOpen = true) (hraw : Line.endsCapability raw = true) :
    (f.step (Line.classify raw)).isOpen = false ∧
      (f.step (Line.classify raw)).capability = f.capability := by
  rw [Line.endsCapability] at hraw
  split at hraw
  · next hclass =>
    rw [hclass]
    exact ⟨rfl, rfl⟩
  · next hclass =>
    rw [hclass]
    exact ⟨rfl, rfl⟩
  · next hclass =>
    rw [hclass, step, takeText_of_open h]
    exact ⟨rfl, rfl⟩
  · next hclass =>
    rw [hclass, step, takeText_of_open h]
    exact ⟨rfl, rfl⟩
  · cases hraw

theorem step_of_passing (hcontinues : Line.continuesCapability raw = false)
    (hends : Line.endsCapability raw = false)
    (hcapability : ∀ value, Line.classify raw ≠ .capability value) :
    f.step (Line.classify raw) = f := by
  rw [Line.continuesCapability] at hcontinues
  rw [Line.endsCapability] at hends
  cases hclass : Line.classify raw with
  | skip | item => rfl
  | capability value => exact absurd hclass (hcapability value)
  | metadata | heading =>
    rw [hclass] at hends
    cases hends
  | entry key value text indented | prose text indented =>
    rw [hclass] at hcontinues hends
    cases indented with
    | true => cases hcontinues
    | false => cases hends

/-- While the capability is open, it takes the lines that go on with it up to one that ends it. -/
theorem foldl_of_open (h : f.isOpen = true)
    (hraws : ∀ raw ∈ raws, ∀ value, Line.classify raw ≠ .capability value) :
    ((raws.map Line.classify).foldl step f).capability =
      Text.sentence (f.capability :: ((raws.takeWhile (!Line.endsCapability ·)).filter
        Line.continuesCapability).map Text.trim) := by
  induction raws generalizing f with
  | nil => exact (Text.sentence_singleton _).symm
  | cons raw rest ih =>
    have hrest := fun raw' h' => hraws raw' (List.mem_cons_of_mem raw h')
    rw [List.map_cons, List.foldl_cons]
    by_cases hends : Line.endsCapability raw = true
    · obtain ⟨hclosed, hkept⟩ := step_endsCapability h hends
      have hnone : ∀ line ∈ rest.map Line.classify, ∀ value, line ≠ .capability value :=
        List.forall_mem_map.2 hrest
      rw [foldl_of_closed hclosed hnone, hkept, List.takeWhile_cons_of_neg (by simp [hends]),
        List.filter_nil, List.map_nil, Text.sentence_singleton]
    rw [List.takeWhile_cons_of_pos (by simpa using hends)]
    by_cases hcontinues : Line.continuesCapability raw = true
    · obtain ⟨hopen, htaken⟩ := step_continuesCapability h hcontinues
      rw [ih hopen hrest, htaken, List.filter_cons_of_pos hcontinues, List.map_cons,
        Text.sentence_cons_cons (Line.of_continuesCapability hcontinues).1]
    · rw [Bool.not_eq_true] at hends hcontinues
      rw [step_of_passing hcontinues hends (hraws raw List.mem_cons_self), ih h hrest,
        List.filter_cons_of_neg (by simp [hcontinues])]

end Front

/-! ### Whole models -/

theorem Line.fieldValue?_eq_some_iff {field : MetadataField} {line : Line} {value : Text} :
    line.fieldValue? field = some value ↔ line = .metadata field value := by
  cases line with
  | metadata field' value' =>
    by_cases h : field' = field
    · simp [fieldValue?, h]
    · simp [fieldValue?, h]
  | _ => simp [fieldValue?]

theorem Line.fieldValue?_classify {word : Text} {field : MetadataField}
    (hword : (word, field) ∈ MetadataField.words) (raw : Text) :
    (classify raw).fieldValue? field = valueOf? word raw :=
  Option.ext fun _ => fieldValue?_eq_some_iff.trans (classify_eq_metadata_iff hword)

/-- **What metadata and capability say.** A metadata field has the value of the last line at the
margin with its word, and is empty if there is none. The capability is empty if no line at the margin
has its word; otherwise it puts together, with a space between them and without the empty ones, the
value of the last such line and the lines that go on with it before the first one that ends it. -/
theorem Model.front_parse {mode : ParseMode} {text : Text} {m : Model}
    (h : parse mode text = .ok m) :
    (∀ word field, (word, field) ∈ MetadataField.words →
      m.metadata.get field = ((Text.lines text).filterMap (Line.valueOf? word)).getLastD []) ∧
    ((∀ raw ∈ Text.lines text, Line.valueOf? "Capability" raw = none) → m.capability = []) ∧
    ∀ before raw after value, Text.lines text = before ++ raw :: after →
      Line.valueOf? "Capability" raw = some value →
      (∀ later ∈ after, Line.valueOf? "Capability" later = none) →
      m.capability = Text.sentence (value :: ((after.takeWhile (!Line.endsCapability ·)).filter
        Line.continuesCapability).map Text.trim) := by
  obtain ⟨q, hq, rfl⟩ := exists_run_of_parse h
  have hfront := Progress.front_run hq
  have hnone (raws : List Text) (hraws : ∀ raw ∈ raws, Line.valueOf? "Capability" raw = none) :
      ∀ raw ∈ raws, ∀ value, Line.classify raw ≠ .capability value := by
    intro raw hraw value hclass
    have hvalue := Line.classify_eq_capability_iff.1 hclass
    rw [hraws raw hraw] at hvalue
    cases hvalue
  refine ⟨fun word field hword => ?_, fun hraws => ?_,
    fun before raw after value hlines hvalue hlast => ?_⟩
  · have hget := Front.get_foldl ({} : Progress).front field (linesOf text)
    rw [← hfront, linesOf, List.filterMap_map] at hget
    refine hget.trans (congrArg₂ List.getLastD (List.filterMap_congr fun raw _ => ?_) ?_)
    · exact Line.fieldValue?_classify hword raw
    · cases field <;> rfl
  · have hkept := Front.foldl_of_closed (f := ({} : Progress).front) rfl
      (List.forall_mem_map.2 (hnone _ hraws))
    rw [← linesOf, ← hfront] at hkept
    exact hkept
  · have hclass := Line.classify_eq_capability_iff.2 hvalue
    rw [linesOf, hlines, List.map_append, List.map_cons, List.foldl_append, List.foldl_cons,
      hclass] at hfront
    have htaken := Front.foldl_of_open
      (f := ((before.map Line.classify).foldl Front.step ({} : Progress).front).step
        (.capability value)) rfl (hnone _ hlast)
    rw [← hfront] at htaken
    exact htaken

/-- A text with metadata that is given again and indented, a capability that is given up for another,
and comments, an item and a stray line among what goes on with it. -/
def Model.sampleFront : Text :=
  Text.unlines ["Model: a", "Version:", "Capability: old", "  lost", "Model : b ", "Capability:",
    "# a note", "  first: line", "- item", "\tsecond", "stray", "  late", "  Model: c"]

/-- The model in that text. -/
def Model.fronted : Model where
  metadata := { modelId := "b" }
  capability := "first: line second"

theorem Model.front_parse_sampleFront :
    parse .permissive sampleFront = .ok fronted ∧
      fronted.metadata.get .modelId =
        ((Text.lines sampleFront).filterMap (Line.valueOf? "Model")).getLastD [] ∧
      fronted.capability = Text.sentence ["", "first: line", "second"] :=
  have h : parse .permissive sampleFront = .ok fronted := by decide
  ⟨h, (front_parse h).1 "Model" .modelId (by decide),
    (front_parse h).2.2 ["Model: a", "Version:", "Capability: old", "  lost", "Model : b "]
      "Capability:"
      ["# a note", "  first: line", "- item", "\tsecond", "stray", "  late", "  Model: c"]
      "" (by decide) (by decide) (by decide)⟩

end ActionBundles
