import ActionBundles.Model.Parser

/-!
# Strict and permissive reading

Permissive reading of a model never fails, and strict reading is permissive reading that stops at
the first irregularity. What is irregular is said here without a mode: a spot at which permissive
reading passes over a line, an item or a key, drops an item without a name, keeps a name with a
blank in it, or reads a type as a string because it is unknown, missing or offers no values. A
parameter without a colon has no type to be missing.

`Agrees` is the relation between the two readings of a piece of text. It is shown of each reader
from the relation for the readers that it calls, then of a step, and by induction on the lines of
a whole run.
-/

namespace ActionBundles

/-! ### What is irregular -/

/-- A name at which permissive reading drops its item or keeps a blank. -/
inductive IrregularName : Text → Irregularity → Prop where
  /-- The item is dropped. -/
  | empty : IrregularName [] .emptyName
  /-- The name is kept. -/
  | blank {name : Text} {c : Char} (hc : c ∈ name) (hb : Text.isBlank c = true) :
      IrregularName name (.blankInName name)

/-- A type that permissive reading takes for a string. -/
inductive IrregularType (type : Text) : Irregularity → Prop where
  /-- A choice without values. -/
  | valueless (hbar : '|' ∈ type) (h : Kind.choiceValues type = []) :
      IrregularType type (.emptyChoice type)
  /-- No word after the colon. -/
  | missing (hbar : '|' ∉ type) (h : Text.words type = []) : IrregularType type .missingType
  /-- A word that names no kind. -/
  | unknown {word : Text} {rest : List Text} (hbar : '|' ∉ type)
      (h : Text.words type = word :: rest) (hw : Kind.ofWord? word = none) :
      IrregularType type (.unknownType word)

/-- The item of a parameter at which permissive reading degrades. -/
inductive IrregularParameter (text : Text) : Irregularity → Prop where
  /-- The item is a name alone. -/
  | bare {cause : Irregularity} (h : Text.splitOnce ':' (Parameter.plainText text) = none)
      (hn : IrregularName (Parameter.plainText text) cause) : IrregularParameter text cause
  /-- The name before the colon. -/
  | name {before type : Text} {cause : Irregularity}
      (h : Text.splitOnce ':' (Parameter.plainText text) = some (before, type))
      (hn : IrregularName (Text.trim before) cause) : IrregularParameter text cause
  /-- The type after the colon of an item that is not dropped. -/
  | type {before type : Text} {cause : Irregularity}
      (h : Text.splitOnce ':' (Parameter.plainText text) = some (before, type))
      (hn : Text.trim before ≠ []) (ht : IrregularType (Text.trim type) cause) :
      IrregularParameter text cause

/-- The name in the item of an output. -/
def Output.nameText (text : Text) : Text :=
  match Text.splitOnce ':' text with
  | none => Text.trim text
  | some (before, _) => Text.trim before

/-- A line that permissive reading passes over or degrades, after what has been read. -/
inductive Progress.Irregular (p : Progress) : Line → Irregularity → Prop where
  /-- A list item under no heading is passed over. -/
  | strayItem {text : Text} (h : ∀ s, p.place ≠ .under s) :
      p.Irregular (.item text) (.itemOutsideList text)
  /-- A list item of the interface that no key takes is passed over. -/
  | keylessItem {text : Text} (h : p.place = .under .interface) (hk : p.openKey = none) :
      p.Irregular (.item text) (.itemWithoutKey text)
  /-- A parameter is degraded. -/
  | parameter {text : Text} {cause : Irregularity} (h : p.place = .under .parameters)
      (hi : IrregularParameter text cause) : p.Irregular (.item text) cause
  /-- An output is degraded. -/
  | output {text : Text} {cause : Irregularity} (h : p.place = .under .outputs)
      (hi : IrregularName (Output.nameText text) cause) : p.Irregular (.item text) cause
  /-- A key outside the interface that does not continue the capability is passed over. -/
  | strayKey {key value text : Text} {indented : Bool} (h : p.place ≠ .under .interface)
      (hc : p.place = .capability → indented = false) :
      p.Irregular (.entry key value text indented) (.unknownKey key)
  /-- Any other line that does not continue the capability is passed over. -/
  | strayLine {text : Text} {indented : Bool} (hc : p.place = .capability → indented = false) :
      p.Irregular (.prose text indented) (.unknownLine text)

/-! ### The relation between the two readings -/

/-- The permissive and the strict reading of a piece of text at which the causes that satisfy
`irregular` are met. -/
structure Agrees {α : Type} (irregular : Irregularity → Prop)
    (permissive strict : Except Irregularity α) : Prop where
  /-- Permissive reading does not fail. -/
  reads : ∃ a, permissive = .ok a
  /-- Without irregularity the two are the same. -/
  same : (∀ cause, ¬ irregular cause) → strict = permissive
  /-- Strict reading fails at an irregularity. -/
  stops : ∀ cause, irregular cause → ∃ first, strict = .error first ∧ irregular first

namespace Agrees

variable {α β : Type} {irregular : Irregularity → Prop}

/-- What is read without a look at the mode is regular. -/
theorem ok (a : α) (h : ∀ cause, ¬ irregular cause) :
    Agrees irregular (.ok a : Except Irregularity α) (.ok a) where
  reads := ⟨a, rfl⟩
  same := fun _ => rfl
  stops := fun cause hc => absurd hc (h cause)

/-- What `ParseMode.meet` is met with is irregular. -/
theorem meet {cause : Irregularity} (a : α) (h : irregular cause) :
    Agrees irregular (ParseMode.permissive.meet cause a) (ParseMode.strict.meet cause a) where
  reads := ⟨a, rfl⟩
  same := fun hn => absurd h (hn cause)
  stops := fun _ _ => ⟨cause, rfl, h⟩

/-- Two pieces of text that are read one after the other. The second is looked at only after what
permissive reading made of the first. -/
theorem bind {permissive strict : Except Irregularity α}
    {nextPermissive nextStrict : α → Except Irregularity β} {whole : Irregularity → Prop}
    (h : Agrees irregular permissive strict) (other : Irregularity → Prop)
    (hn : ∀ a, permissive = .ok a → Agrees other (nextPermissive a) (nextStrict a))
    (hw : ∀ cause, whole cause ↔ irregular cause ∨ other cause) :
    Agrees whole (permissive >>= nextPermissive) (strict >>= nextStrict) := by
  obtain ⟨a, ha⟩ := h.reads
  have hnext := hn a ha
  subst ha
  refine ⟨hnext.reads, fun hno => ?_, fun cause hc => ?_⟩
  · rw [h.same fun c hc => hno c ((hw c).2 (.inl hc))]
    exact hnext.same fun c hc => hno c ((hw c).2 (.inr hc))
  · by_cases hi : ∃ c, irregular c
    · -- the first of the two stops strict reading
      obtain ⟨c, hi⟩ := hi
      obtain ⟨first, hs, hf⟩ := h.stops c hi
      exact ⟨first, by rw [hs]; rfl, (hw first).2 (.inl hf)⟩
    · have hno : ∀ c, ¬ irregular c := fun c hc => hi ⟨c, hc⟩
      obtain ⟨first, hs, hf⟩ :=
        hnext.stops cause (((hw cause).1 hc).resolve_left (hno cause))
      exact ⟨first, by rw [h.same hno]; exact hs, (hw first).2 (.inr hf)⟩

/-- What is made of a piece of text changes nothing. -/
theorem map {permissive strict : Except Irregularity α} (f : α → β)
    (h : Agrees irregular permissive strict) :
    Agrees irregular (permissive >>= fun a => pure (f a)) (strict >>= fun a => pure (f a)) :=
  h.bind (fun _ => False) (fun a _ => .ok (f a) fun _ => not_false)
    fun _ => (or_false _).symm.to_iff

end Agrees

/-! ### Readers of items -/

theorem readName_agrees (name : Text) :
    Agrees (IrregularName name) (readName .permissive name) (readName .strict name) := by
  unfold readName
  by_cases hempty : name = []
  · subst hempty
    exact .meet _ .empty
  · simp only [hempty, ↓reduceIte]
    by_cases hblank : name.any Text.isBlank = true
    · simp only [hblank, ↓reduceIte]
      obtain ⟨c, hc, hb⟩ := List.any_eq_true.1 hblank
      exact .meet _ (.blank hc hb)
    · simp only [hblank]
      refine .ok _ fun cause hi => ?_
      cases hi with
      | empty => exact hempty rfl
      | blank hc hb => exact hblank (List.any_eq_true.2 ⟨_, hc, hb⟩)

/-- Permissive reading drops an item exactly if its name is empty. -/
theorem readName_permissive (name : Text) :
    readName .permissive name = .ok (if name = [] then none else some name) := by
  unfold readName
  split
  · rfl
  · split <;> rfl

theorem Kind.read_agrees (type : Text) :
    Agrees (IrregularType type) (Kind.read .permissive type) (Kind.read .strict type) := by
  unfold Kind.read
  by_cases hbar : '|' ∈ type
  · simp only [hbar, ↓reduceIte]
    cases hv : choiceValues type with
    | nil => exact .meet _ (.valueless hbar hv)
    | cons value values =>
      refine .ok _ fun cause hi => ?_
      cases hi with
      | valueless _ h => rw [hv] at h; cases h
      | missing h => exact h hbar
      | unknown h => exact h hbar
  · simp only [hbar, ↓reduceIte]
    cases hw : Text.words type with
    | nil => exact .meet _ (.missing hbar hw)
    | cons word rest =>
      cases hk : Kind.ofWord? word with
      | none =>
        simp only [hk]
        exact .meet _ (.unknown hbar hw hk)
      | some kind =>
        simp only [hk]
        refine .ok _ fun cause hi => ?_
        cases hi with
        | valueless h => exact hbar h
        | missing _ h => rw [hw] at h; cases h
        | unknown _ h hn =>
          rw [hw] at h
          cases h
          rw [hk] at hn
          cases hn

theorem Parameter.read_agrees (text : Text) :
    Agrees (IrregularParameter text) (Parameter.read .permissive text)
      (Parameter.read .strict text) := by
  cases hsplit : Text.splitOnce ':' (Parameter.plainText text) with
  | none =>
    simp only [Parameter.read, hsplit]
    have hname : ∀ cause, IrregularParameter text cause ↔
        IrregularName (Parameter.plainText text) cause := fun cause => by
      constructor
      · intro hi
        cases hi with
        | bare _ hn => exact hn
        | name h => rw [hsplit] at h; cases h
        | type h => rw [hsplit] at h; cases h
      · exact .bare hsplit
    rw [show IrregularParameter text = IrregularName (Parameter.plainText text) from
      funext fun cause => propext (hname cause)]
    exact (readName_agrees _).map _
  | some halves =>
    obtain ⟨before, type⟩ := halves
    simp only [Parameter.read, hsplit]
    refine (readName_agrees (Text.trim before)).bind
      (fun cause => Text.trim before ≠ [] ∧ IrregularType (Text.trim type) cause)
      (fun name hname => ?_) fun cause => ?_
    · rw [readName_permissive] at hname
      cases hname
      by_cases hempty : Text.trim before = []
      · simp only [hempty, ↓reduceIte]
        exact .ok _ fun _ h => h.1 rfl
      · simp only [hempty, ↓reduceIte, ne_eq, not_false_eq_true, true_and]
        exact (Kind.read_agrees _).map _
    · constructor
      · intro hi
        cases hi with
        | bare h => rw [hsplit] at h; cases h
        | name h hn => rw [hsplit] at h; cases h; exact .inl hn
        | type h hn ht => rw [hsplit] at h; cases h; exact .inr ⟨hn, ht⟩
      · rintro (hn | ⟨hn, ht⟩)
        · exact .name hsplit hn
        · exact .type hsplit hn ht

theorem Output.read_agrees (text : Text) :
    Agrees (IrregularName (Output.nameText text)) (Output.read .permissive text)
      (Output.read .strict text) := by
  unfold Output.read Output.nameText
  cases Text.splitOnce ':' text with
  | none => exact (readName_agrees _).map _
  | some halves => exact (readName_agrees _).map _

/-! ### Steps and runs -/

namespace Progress

/-- What is irregular about an item under a heading. -/
theorem irregular_item_iff {p : Progress} {text : Text} {cause : Irregularity} {s : Section}
    (hp : p.place = .under s) :
    p.Irregular (.item text) cause ↔
      match s with
      | .parameters => IrregularParameter text cause
      | .outputs => IrregularName (Output.nameText text) cause
      | .interface => p.openKey = none ∧ cause = .itemWithoutKey text
      | _ => False := by
  constructor
  · intro hi
    cases hi with
    | strayItem h => exact absurd hp (h s)
    | keylessItem h hk => cases hp.symm.trans h; exact ⟨hk, rfl⟩
    | parameter h hi => cases hp.symm.trans h; exact hi
    | output h hi => cases hp.symm.trans h; exact hi
  · intro hi
    cases s with
    | parameters => exact .parameter hp hi
    | outputs => exact .output hp hi
    | interface =>
      obtain ⟨hk, rfl⟩ := hi
      exact .keylessItem hp hk
    | dependencies => exact hi.elim
    | patterns => exact hi.elim

theorem takeItem_agrees (p : Progress) (text : Text) {s : Section} (hp : p.place = .under s) :
    Agrees (p.Irregular (.item text)) (p.takeItem .permissive text s)
      (p.takeItem .strict text s) := by
  rw [show p.Irregular (.item text) = _ from
    funext fun cause => propext (@irregular_item_iff p text cause s hp)]
  cases s with
  | parameters => exact (Parameter.read_agrees text).map _
  | outputs => exact (Output.read_agrees text).map _
  | dependencies => exact .ok _ fun _ => not_false
  | patterns => exact .ok _ fun _ => not_false
  | interface =>
    unfold takeItem
    cases hk : p.openKey with
    | none => exact .meet _ ⟨rfl, rfl⟩
    | some key => exact .ok _ fun _ h => nomatch h.1

theorem step_agrees (p : Progress) (line : Line) :
    Agrees (p.Irregular line) (p.step .permissive line) (p.step .strict line) := by
  cases line with
  | skip => exact .ok _ fun _ h => nomatch h
  | metadata field value => exact .ok _ fun _ h => nomatch h
  | capability value => exact .ok _ fun _ h => nomatch h
  | heading s => exact .ok _ fun _ h => nomatch h
  | item text =>
    cases hp : p.place with
    | under s =>
      simp only [step, hp]
      exact p.takeItem_agrees text hp
    | start => simp only [step, hp]; exact .meet _ (.strayItem fun s => by simp [hp])
    | metadata => simp only [step, hp]; exact .meet _ (.strayItem fun s => by simp [hp])
    | capability => simp only [step, hp]; exact .meet _ (.strayItem fun s => by simp [hp])
  | entry key value text indented =>
    by_cases hi : p.place = .under .interface
    · simp only [step, hi]
      refine .ok _ fun cause h => ?_
      cases h with
      | strayKey h => exact h hi
    by_cases hc : p.place = .capability ∧ indented = true
    · obtain ⟨hc, rfl⟩ := hc
      simp only [step, hc, ↓reduceIte]
      refine .ok _ fun cause h => ?_
      cases h with
      | strayKey _ h => cases h hc
    · -- the line is passed over, wherever it stands
      have hstray : p.Irregular (.entry key value text indented) (.unknownKey key) :=
        .strayKey hi fun h => by simpa [h] using hc
      simp only [step]
      split
      · next h =>
        rw [if_neg fun e => hc ⟨h, e⟩, if_neg fun e => hc ⟨h, e⟩]
        exact .meet _ hstray
      · next h => exact absurd h hi
      · exact .meet _ hstray
  | prose text indented =>
    by_cases hc : p.place = .capability ∧ indented = true
    · obtain ⟨hc, rfl⟩ := hc
      simp only [step, hc, ↓reduceIte]
      refine .ok _ fun cause h => ?_
      cases h with
      | strayLine h => cases h hc
    · have hstray : p.Irregular (.prose text indented) (.unknownLine text) :=
        .strayLine fun h => by simpa [h] using hc
      simp only [step]
      split
      · next h =>
        rw [if_neg fun e => hc ⟨h, e⟩, if_neg fun e => hc ⟨h, e⟩]
        exact .meet _ hstray
      · exact .meet _ hstray

/-- Permissive reading meets the irregularity `cause` at the line of number `n` among `lines`, the
first of which has the number `number`: it has read the lines before, and the line is irregular
after them. -/
def Meets (p : Progress) (number : Nat) (lines : List Line) (n : Nat) (cause : Irregularity) :
    Prop :=
  ∃ before line after q, lines = before ++ line :: after ∧ n = number + before.length ∧
    p.run .permissive number before = .ok q ∧ q.Irregular line cause

theorem meets_nil (p : Progress) (number n : Nat) (cause : Irregularity) :
    ¬ p.Meets number [] n cause := by
  rintro ⟨before, line, after, q, h, -⟩
  simp at h

/-- An irregularity is met at the first line or at a later one. -/
theorem meets_cons_iff {p q : Progress} {line : Line} (hq : p.step .permissive line = .ok q)
    (number : Nat) (rest : List Line) (n : Nat) (cause : Irregularity) :
    p.Meets number (line :: rest) n cause ↔
      (n = number ∧ p.Irregular line cause) ∨ q.Meets (number + 1) rest n cause := by
  constructor
  · rintro ⟨before, line', after, q', hl, hn, hr, hi⟩
    cases before with
    | nil =>
      obtain ⟨rfl, rfl⟩ := List.cons.inj hl
      cases hr
      exact .inl ⟨by simpa using hn, hi⟩
    | cons head before =>
      obtain ⟨rfl, hrest⟩ := List.cons.inj hl
      simp only [run, hq] at hr
      refine .inr ⟨before, line', after, q', hrest, ?_, hr, hi⟩
      rw [hn, List.length_cons]
      omega
  · rintro (⟨rfl, hi⟩ | ⟨before, line', after, q', rfl, rfl, hr, hi⟩)
    · exact ⟨[], line, rest, p, rfl, rfl, rfl, hi⟩
    · refine ⟨line :: before, line', after, q', rfl, ?_, ?_, hi⟩
      · rw [List.length_cons]
        omega
      · simp only [run, hq, hr]

/-- Irregularities are met at the lines that are read. -/
theorem Meets.le {p : Progress} {number n : Nat} {lines : List Line} {cause : Irregularity}
    (h : p.Meets number lines n cause) : number ≤ n := by
  obtain ⟨before, -, -, -, -, hn, -⟩ := h
  omega

theorem run_permissive (p : Progress) (number : Nat) (lines : List Line) :
    ∃ q, p.run .permissive number lines = .ok q := by
  induction lines generalizing p number with
  | nil => exact ⟨p, rfl⟩
  | cons line rest ih =>
    obtain ⟨q, hq⟩ := (p.step_agrees line).reads
    obtain ⟨r, hr⟩ := ih q (number + 1)
    exact ⟨r, by simp only [run, hq, hr]⟩

/-- Where permissive reading meets no irregularity, strict reading is the same. -/
theorem run_strict_of_regular (p : Progress) (number : Nat) (lines : List Line)
    (h : ∀ n cause, ¬ p.Meets number lines n cause) :
    p.run .strict number lines = p.run .permissive number lines := by
  induction lines generalizing p number with
  | nil => rfl
  | cons line rest ih =>
    obtain ⟨q, hq⟩ := (p.step_agrees line).reads
    have hs : p.step .strict line = .ok q :=
      ((p.step_agrees line).same fun cause hi =>
        h number cause ((meets_cons_iff hq ..).2 (.inl ⟨rfl, hi⟩))).trans hq
    simp only [run, hq, hs]
    exact ih q (number + 1) fun n cause hm => h n cause ((meets_cons_iff hq ..).2 (.inr hm))

/-- Where permissive reading meets an irregularity, strict reading fails at the first line with
one, and with one of that line. -/
theorem run_strict_of_meets (p : Progress) (number : Nat) (lines : List Line)
    (h : ∃ n cause, p.Meets number lines n cause) :
    ∃ n cause, p.run .strict number lines = .error ⟨n, cause⟩ ∧ p.Meets number lines n cause ∧
      ∀ n' cause', p.Meets number lines n' cause' → n ≤ n' := by
  induction lines generalizing p number with
  | nil =>
    obtain ⟨n, cause, hm⟩ := h
    exact absurd hm (meets_nil p number n cause)
  | cons line rest ih =>
    obtain ⟨q, hq⟩ := (p.step_agrees line).reads
    by_cases hi : ∃ cause, p.Irregular line cause
    · obtain ⟨cause, hi⟩ := hi
      obtain ⟨first, hs, hf⟩ := (p.step_agrees line).stops cause hi
      refine ⟨number, first, by simp only [run, hs],
        (meets_cons_iff hq ..).2 (.inl ⟨rfl, hf⟩), fun _ _ hm => hm.le⟩
    · have hs : p.step .strict line = .ok q :=
        ((p.step_agrees line).same fun cause hc => hi ⟨cause, hc⟩).trans hq
      have hlater : ∀ n cause, p.Meets number (line :: rest) n cause →
          q.Meets (number + 1) rest n cause := fun n cause hm =>
        ((meets_cons_iff hq ..).1 hm).resolve_left fun hc => hi ⟨cause, hc.2⟩
      obtain ⟨n, cause, hm⟩ := h
      obtain ⟨first, cause', he, hf, hle⟩ := ih q (number + 1) ⟨n, cause, hlater n cause hm⟩
      refine ⟨first, cause', by simp only [run, hs, he],
        (meets_cons_iff hq ..).2 (.inr hf), fun n' c' hm' => hle n' c' (hlater n' c' hm')⟩

end Progress

/-! ### Whole texts -/

namespace Model

/-- Permissive reading of a text meets the irregularity `cause` at its line of number `n`. -/
def IrregularAt (text : Text) (n : Nat) (cause : Irregularity) : Prop :=
  Progress.Meets {} 1 (linesOf text) n cause

/-- The line of number `n` is the first at which permissive reading meets an irregularity. -/
def FirstIrregular (text : Text) (n : Nat) : Prop :=
  (∃ cause, IrregularAt text n cause) ∧ ∀ n' cause, IrregularAt text n' cause → n ≤ n'

/-- **Strict and permissive reading simulate each other**: permissive reading always succeeds;
strict reading fails exactly if permissive reading meets an irregularity, at the first line with
one, and names an irregularity of that line; and what strict reading reads, permissive reading
reads as well. -/
theorem strict_reading_simulates (text : Text) :
    (∃ m, parse .permissive text = .ok m) ∧
      (∀ n, (∃ e, parse .strict text = .error e ∧ e.line = n) ↔ FirstIrregular text n) ∧
      (∀ e, parse .strict text = .error e → IrregularAt text e.line e.cause) ∧
      ∀ m, parse .strict text = .ok m → parse .permissive text = .ok m := by
  obtain ⟨q, hq⟩ := Progress.run_permissive {} 1 (linesOf text)
  by_cases h : ∃ n cause, IrregularAt text n cause
  · obtain ⟨n, cause, hs, hm, hle⟩ := Progress.run_strict_of_meets {} 1 (linesOf text) h
    have hstrict : parse .strict text = .error ⟨n, cause⟩ := by rw [parse, hs]; rfl
    refine ⟨⟨q.model, by rw [parse, hq]; rfl⟩, fun n' => ?_, fun e he => ?_, fun m hm' => ?_⟩
    · constructor
      · rintro ⟨e, he, rfl⟩
        cases hstrict.symm.trans he
        exact ⟨⟨cause, hm⟩, hle⟩
      · rintro ⟨⟨cause', hm'⟩, hle'⟩
        exact ⟨_, hstrict, Nat.le_antisymm (hle n' cause' hm') (hle' n cause hm)⟩
    · cases hstrict.symm.trans he
      exact hm
    · cases hstrict.symm.trans hm'
  · have hs := Progress.run_strict_of_regular {} 1 (linesOf text) fun n cause hm => h ⟨n, cause, hm⟩
    have hstrict : parse .strict text = .ok q.model := by rw [parse, hs, hq]; rfl
    have hpermissive : parse .permissive text = .ok q.model := by rw [parse, hq]; rfl
    refine ⟨⟨q.model, hpermissive⟩, fun n => ?_, fun e he => ?_, fun m hm => ?_⟩
    · constructor
      · rintro ⟨e, he, -⟩
        cases hstrict.symm.trans he
      · rintro ⟨⟨cause, hm⟩, -⟩
        exact absurd ⟨n, cause, hm⟩ h
    · cases hstrict.symm.trans he
    · rw [hpermissive, ← hstrict, hm]

end Model

end ActionBundles
