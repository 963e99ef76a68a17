import ActionBundles.Manifest.Basic
import Mathlib.Data.List.Induction
import Mathlib.Data.List.Infix

/-!
# Mappings without a record

A manifest may be changed in any order, and an artifact may be given to one model after another. Its
record is that of the model that it was given to last, and it goes with that model, also if other
models are still mapped to the artifact. So after any changes an artifact is on record exactly if
the model that it was given to last is still mapped to it (`Manifest.owns_after_iff`), and nothing
is ever missing exactly if no change takes this model away while another one has the artifact
(`Manifest.unrecorded_nil_throughout_iff`).
-/

namespace ActionBundles.Manifest

variable {m : Manifest} {source artifact other : Text}

/-! ### What is on record afterwards -/

theorem owns_iff : m.owns source artifact = true ↔
    ∃ record, m.recordOf? artifact = some record ∧ record.source = source := by
  simp [owns, Option.any_eq_true]

theorem contains_iff_owns : m.generated.contains artifact = true ↔
    ∃ source, m.owns source artifact = true := by
  rw [Dict.contains, show m.generated.get? artifact = m.recordOf? artifact from rfl]
  constructor
  · intro h
    obtain ⟨record, hrecord⟩ := Option.isSome_iff_exists.1 h
    exact ⟨record.source, owns_iff.2 ⟨record, hrecord, rfl⟩⟩
  · rintro ⟨source, h⟩
    obtain ⟨record, hrecord, -⟩ := owns_iff.1 h
    exact Option.isSome_iff_exists.2 ⟨record, hrecord⟩

/-- Forgetting a model takes away the record that it has at its artifact. -/
theorem recordOf?_forget (m : Manifest) (source other : Text) :
    (m.forget source).recordOf? other =
      if m.artifactOf? source = some other ∧ m.owns source other = true then none
      else m.recordOf? other := by
  rw [forget]
  cases hmapped : m.artifactOf? source with
  | none => simp
  | some artifact =>
    show (m.release source artifact).recordOf? other = _
    rw [recordOf?_release]
    by_cases he : other = artifact
    · simp [he]
    · simp [he, Ne.symm he]

/-- Mapping a model anew takes away the record that it has at its former artifact, and puts the new
one on record. -/
theorem recordOf?_upsert (m : Manifest) (source artifact other : Text) (record : GeneratedRecord) :
    (m.upsert source artifact record).recordOf? other =
      if other = artifact then some record
      else if m.artifactOf? source = some other ∧ m.owns source other = true then none
      else m.recordOf? other := by
  have hput : ∀ n : Manifest, ({ mappings := n.mappings.insert source artifact
                                 generated := n.generated.insert artifact record } :
      Manifest).recordOf? other = if other = artifact then some record else n.recordOf? other :=
    fun n => by simp [recordOf?, Dict.get?_insert]
  rw [upsert, hput]
  split
  · rfl
  next hother =>
  cases hmapped : m.artifactOf? source with
  | none => simp
  | some previous =>
    dsimp only
    split
    · next hsame => simp [hsame, Ne.symm hother]
    · rw [recordOf?_release]
      by_cases he : other = previous
      · simp [he]
      · simp [he, Ne.symm he]

theorem owns_forget_iff : (m.forget source).owns other artifact = true ↔
    m.owns other artifact = true ∧ ¬ (m.artifactOf? source = some artifact ∧ other = source) := by
  rw [owns_iff, owns_iff, recordOf?_forget]
  constructor
  · rintro ⟨record, hrecord, rfl⟩
    split at hrecord
    · cases hrecord
    · next hnot =>
      refine ⟨⟨record, hrecord, rfl⟩, fun h => hnot ⟨h.1, owns_iff.2 ⟨record, hrecord, h.2⟩⟩⟩
  · rintro ⟨⟨record, hrecord, rfl⟩, hnot⟩
    refine ⟨record, ?_, rfl⟩
    rw [if_neg fun h => ?_, hrecord]
    obtain ⟨owner, howner, hsource⟩ := owns_iff.1 h.2
    obtain rfl := Option.some.inj (hrecord.symm.trans howner)
    exact hnot ⟨h.1, hsource⟩

theorem owns_upsert_iff {record : GeneratedRecord} {place : Text}
    (hrecord : record.source = source) :
    (m.upsert source place record).owns other artifact = true ↔
      if artifact = place then other = source
      else m.owns other artifact = true ∧
        ¬ (m.artifactOf? source = some artifact ∧ other = source) := by
  rw [owns_iff, recordOf?_upsert]
  split
  · constructor
    · rintro ⟨found, hfound, rfl⟩
      rw [← Option.some.inj hfound, hrecord]
    · rintro rfl
      exact ⟨record, rfl, hrecord⟩
  · rw [← owns_forget_iff, owns_iff (m := m.forget source), recordOf?_forget]

/-! ### Changes -/

/-- A change of a manifest. -/
inductive Change where
  /-- A model is given an artifact, with a record that names the model. -/
  | give (source artifact generatedAt version : Text)
  /-- A model is forgotten. -/
  | forget (source : Text)

namespace Change

/-- What a change makes of a manifest. -/
def apply (m : Manifest) : Change → Manifest
  | .give source artifact generatedAt version =>
    m.upsert source artifact ⟨source, generatedAt, version⟩
  | .forget source => m.forget source

/-- The model that is given an artifact. -/
def givenTo? (artifact : Text) : Change → Option Text
  | .give source place _ _ => if artifact = place then some source else none
  | .forget _ => none

/-- Whether a change takes a model away from the artifact that it is mapped to. -/
def Withdraws (m : Manifest) (source artifact : Text) : Change → Prop
  | .give model place _ _ =>
    model = source ∧ place ≠ artifact ∧ m.artifactOf? source = some artifact
  | .forget model => model = source ∧ m.artifactOf? source = some artifact

end Change

/-- The manifest after changes of an empty one. -/
def after (changes : List Change) : Manifest := changes.foldl Change.apply {}

/-- The model that an artifact was given to last. -/
def holder? (artifact : Text) (changes : List Change) : Option Text :=
  (changes.filterMap (Change.givenTo? artifact)).getLast?

variable {changes : List Change} {c : Change}

theorem after_concat (changes : List Change) (c : Change) :
    after (changes ++ [c]) = c.apply (after changes) := by
  rw [after, List.foldl_concat, after]

theorem holder?_concat (artifact : Text) (changes : List Change) (c : Change) :
    holder? artifact (changes ++ [c]) = (c.givenTo? artifact).or (holder? artifact changes) := by
  rw [holder?, List.filterMap_append, List.getLast?_append, holder?, List.filterMap_cons,
    List.filterMap_nil]
  cases c.givenTo? artifact <;> rfl

/-- The model that an artifact was given to last owns it as long as it is mapped to it, and no other
model ever does. -/
theorem owns_after_iff (changes : List Change) (source artifact : Text) :
    (after changes).owns source artifact = true ↔
      holder? artifact changes = some source ∧
        (after changes).artifactOf? source = some artifact := by
  induction changes using List.reverseRecOn with
  | nil => simp [after, holder?, owns, recordOf?]
  | append_singleton changes c ih =>
    rw [after_concat, holder?_concat]
    cases c with
    | give model place time version =>
      have hrecord : (⟨model, time, version⟩ : GeneratedRecord).source = model := rfl
      rw [Change.apply, owns_upsert_iff hrecord, ih, artifactOf?_upsert, Change.givenTo?]
      by_cases hplace : artifact = place
      · subst hplace
        rw [if_pos rfl, if_pos rfl, Option.some_or, Option.some.injEq]
        exact ⟨fun h => ⟨h.symm, if_pos h⟩, fun h => h.1.symm⟩
      · rw [if_neg hplace, if_neg hplace, Option.none_or]
        by_cases hmodel : source = model
        · subst hmodel
          rw [if_pos rfl, Option.some.injEq]
          exact ⟨fun h => absurd ⟨h.1.2, rfl⟩ h.2, fun h => absurd h.2.symm hplace⟩
        · rw [if_neg hmodel]
          exact ⟨fun h => h.1, fun h => ⟨h, fun hc => hmodel hc.2⟩⟩
    | forget model =>
      rw [Change.apply, owns_forget_iff, ih, artifactOf?_forget, Change.givenTo?, Option.none_or]
      by_cases hmodel : source = model
      · subst hmodel
        rw [if_pos rfl]
        exact ⟨fun h => absurd ⟨h.1.2, rfl⟩ h.2, fun h => by cases h.2⟩
      · rw [if_neg hmodel]
        exact ⟨fun h => h.1, fun h => ⟨h, fun hc => hmodel hc.2⟩⟩

/-- Nothing is missing if the model that a mapped artifact was given to last is mapped to it. -/
theorem unrecorded_after_eq_nil_iff (changes : List Change) :
    (after changes).unrecorded = [] ↔
      ∀ source artifact, (after changes).artifactOf? source = some artifact →
        ∃ holder, holder? artifact changes = some holder ∧
          (after changes).artifactOf? holder = some artifact := by
  rw [unrecorded, List.filter_eq_nil_iff]
  simp only [Bool.not_eq_true, Bool.not_eq_false', contains_iff_owns, owns_after_iff]
  exact ⟨fun h source artifact hmapped => h (source, artifact) (Dict.mem_toList_iff.2 hmapped),
    fun h e he => h e.1 e.2 (Dict.mem_toList_iff.1 he)⟩

/-- A change leaves a model at its artifact unless it withdraws it. -/
theorem artifactOf?_apply (h : m.artifactOf? source = some artifact)
    (hstays : ¬ c.Withdraws m source artifact) :
    (c.apply m).artifactOf? source = some artifact := by
  cases c with
  | give model place time version =>
    rw [Change.apply, artifactOf?_upsert]
    split
    · next he =>
      by_contra hne
      exact hstays ⟨he.symm, fun hplace => hne (congrArg some hplace), h⟩
    · exact h
  | forget model =>
    rw [Change.apply, artifactOf?_forget, if_neg fun he => hstays ⟨he.symm, h⟩, h]

/-- A model at an artifact was there before the change or is given it by the change. -/
theorem artifactOf?_of_apply (h : (c.apply m).artifactOf? source = some artifact) :
    c.givenTo? artifact = some source ∨ m.artifactOf? source = some artifact := by
  cases c with
  | give model place time version =>
    rw [Change.apply, artifactOf?_upsert] at h
    split at h
    · next he =>
      left
      rw [Change.givenTo?, if_pos (Option.some.inj h).symm, he]
    · exact .inr h
  | forget model =>
    rw [Change.apply, artifactOf?_forget] at h
    split at h
    · cases h
    · exact .inr h

theorem artifactOf?_of_withdraws (h : c.Withdraws m source artifact) :
    c.givenTo? artifact = none ∧ (c.apply m).artifactOf? source ≠ some artifact ∧
      ∀ other, c.Withdraws m other artifact → other = source := by
  cases c with
  | give model place time version =>
    obtain ⟨rfl, hplace, -⟩ := h
    refine ⟨if_neg (Ne.symm hplace), ?_, fun other ho => ho.1.symm⟩
    rw [Change.apply, artifactOf?_upsert, if_pos rfl]
    exact fun he => hplace (Option.some.inj he)
  | forget model =>
    obtain ⟨rfl, -⟩ := h
    refine ⟨rfl, ?_, fun other ho => ho.1.symm⟩
    rw [Change.apply, artifactOf?_forget, if_pos rfl]
    exact fun he => by cases he

/-- One change keeps every mapping on record if it does not withdraw the holder of an artifact that
another model is mapped to. -/
theorem unrecorded_nil_concat_iff (h : (after changes).unrecorded = []) :
    (after (changes ++ [c])).unrecorded = [] ↔
      ∀ source artifact, c.Withdraws (after changes) source artifact →
        holder? artifact changes = some source →
          ∀ other, (after changes).artifactOf? other = some artifact → other = source := by
  rw [unrecorded_after_eq_nil_iff] at h ⊢
  simp only [after_concat, holder?_concat]
  constructor
  · intro hnext source artifact hwithdraws hholder other hother
    obtain ⟨hnone, hgone, honly⟩ := artifactOf?_of_withdraws hwithdraws
    by_contra hne
    obtain ⟨holder, hholds, hmapped⟩ := hnext other artifact
      (artifactOf?_apply hother fun hw => hne (honly other hw))
    rw [hnone, Option.none_or, hholder] at hholds
    exact hgone (Option.some.inj hholds ▸ hmapped)
  · intro hkeeps source artifact hmapped
    rcases hgiven : c.givenTo? artifact with _ | model
    · have hbefore : (after changes).artifactOf? source = some artifact :=
        (artifactOf?_of_apply hmapped).resolve_left (by simp [hgiven])
      obtain ⟨holder, hholder, hheld⟩ := h source artifact hbefore
      refine ⟨holder, by rw [Option.none_or, hholder], artifactOf?_apply hheld fun hw => ?_⟩
      obtain rfl := hkeeps holder artifact hw hholder source hbefore
      exact (artifactOf?_of_withdraws hw).2.1 hmapped
    · refine ⟨model, rfl, ?_⟩
      cases c with
      | give source' place time version =>
        rw [Change.givenTo?] at hgiven
        split at hgiven
        · next he =>
          rw [Change.apply, artifactOf?_upsert, if_pos (Option.some.inj hgiven).symm, he]
        · cases hgiven
      | forget source' => cases hgiven

/-- **Nothing is ever missing** while a manifest is changed exactly if no change withdraws the model
that an artifact was given to last while another model is mapped to the artifact. -/
theorem unrecorded_nil_throughout_iff (changes : List Change) :
    (∀ before, before <+: changes → (after before).unrecorded = []) ↔
      ∀ before c, before ++ [c] <+: changes → ∀ source artifact,
        c.Withdraws (after before) source artifact → holder? artifact before = some source →
          ∀ other, (after before).artifactOf? other = some artifact → other = source := by
  constructor
  · intro h before c hstart
    exact (unrecorded_nil_concat_iff (h before ((List.prefix_append _ _).trans hstart))).1
      (h _ hstart)
  · intro h before hstart
    induction before using List.reverseRecOn with
    | nil => rfl
    | append_singleton before c ih =>
      exact (unrecorded_nil_concat_iff (ih ((List.prefix_append _ _).trans hstart))).2
        (h before c hstart)

/-- Two models are given the same artifact, and the second one is forgotten: the first one is mapped
to an artifact without a record. -/
theorem unrecorded_sampleShared :
    (after [.give "a.fcm" "actions/core/x" "t" "1", .give "b.fcm" "actions/core/x" "t" "1",
      .forget "b.fcm"]).unrecorded = [("a.fcm".toList, "actions/core/x".toList)] := by
  decide

end ActionBundles.Manifest
