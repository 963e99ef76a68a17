import ActionBundles.Generation

/-!
# Manifests as bijections

In a manifest that the program keeps, models and artifacts belong together one to one: a model is
mapped to an artifact exactly if the artifact is on record for the model. Each operation on
manifests keeps this, `upsert` only if no other model has the artifact; that is what
`Project.claim` sees to.
-/

namespace ActionBundles

namespace Manifest

/-- A model is mapped to an artifact exactly if the artifact is on record for it. -/
def Bijective (m : Manifest) : Prop := ∀ source artifact,
  m.artifactOf? source = some artifact ↔
    ∃ record, m.recordOf? artifact = some record ∧ record.source = source

theorem bijective_empty : Bijective {} := by
  intro source artifact
  simp [artifactOf?, recordOf?]

variable {m : Manifest} {source artifact : Text}

namespace Bijective

/-- No mapping dangles. -/
theorem recorded (h : m.Bijective) (hs : m.artifactOf? source = some artifact) :
    ∃ record, m.recordOf? artifact = some record ∧ record.source = source := (h _ _).1 hs

/-- No record is orphaned. -/
theorem mapped (h : m.Bijective) {record : GeneratedRecord}
    (hr : m.recordOf? artifact = some record) : m.artifactOf? record.source = some artifact :=
  (h _ _).2 ⟨record, hr, rfl⟩

/-- No two models share an artifact. -/
theorem injective (h : m.Bijective) {other : Text} (hs : m.artifactOf? source = some artifact)
    (ho : m.artifactOf? other = some artifact) : source = other := by
  obtain ⟨r, hr, rfl⟩ := h.recorded hs
  obtain ⟨r', hr', rfl⟩ := h.recorded ho
  cases hr.symm.trans hr'
  rfl

theorem owns (h : m.Bijective) (hs : m.artifactOf? source = some artifact) :
    m.owns source artifact = true := by
  obtain ⟨r, hr, hsource⟩ := h.recorded hs
  simp [Manifest.owns, hr, hsource]

end Bijective

/-! ### What the operations find -/

/-- Forgetting a model takes the record of its artifact away and no other. -/
theorem Bijective.recordOf?_forget (h : m.Bijective) (other : Text) :
    (m.forget source).recordOf? other =
      if m.artifactOf? source = some other then none else m.recordOf? other := by
  unfold forget
  cases hs : m.artifactOf? source with
  | none => simp
  | some artifact =>
    show (m.release source artifact).recordOf? other = _
    rw [recordOf?_release, h.owns hs]
    by_cases ho : other = artifact
    · simp [ho]
    · simp [ho, Ne.symm ho]

/-- Mapping a model anew takes the record of its former artifact away and sets that of the new
one. -/
theorem Bijective.recordOf?_upsert (h : m.Bijective) (record : GeneratedRecord) (other : Text) :
    (m.upsert source artifact record).recordOf? other =
      if other = artifact then some record
      else if m.artifactOf? source = some other then none
      else m.recordOf? other := by
  have hset : ∀ n : Manifest, ({ mappings := n.mappings.insert source artifact
                                 generated := n.generated.insert artifact record } :
      Manifest).recordOf? other = if other = artifact then some record else n.recordOf? other :=
    fun n => by simp [recordOf?, Dict.get?_insert]
  unfold upsert
  rw [hset]
  by_cases ho : other = artifact
  · simp [ho]
  · rw [if_neg ho, if_neg ho]
    cases hs : m.artifactOf? source with
    | none => simp
    | some previous =>
      by_cases hp : previous = artifact
      · simp [hp, Ne.symm ho]
      · simp only [hp, ↓reduceIte, Option.some.injEq]
        rw [recordOf?_release, h.owns hs]
        by_cases hq : other = previous
        · simp [hq]
        · simp [hq, Ne.symm hq]

/-! ### What the operations keep -/

theorem Bijective.forget (h : m.Bijective) (source : Text) : (m.forget source).Bijective := by
  intro other artifact
  rw [artifactOf?_forget, h.recordOf?_forget]
  constructor
  · intro ho
    split at ho
    · cases ho
    · next hne =>
      obtain ⟨r, hr, hrs⟩ := h.recorded ho
      refine ⟨r, ?_, hrs⟩
      rw [if_neg fun hs => hne (h.injective ho hs), hr]
  · rintro ⟨r, hr, rfl⟩
    split at hr
    · cases hr
    · next hne =>
      have hm := h.mapped hr
      rw [if_neg fun hs => hne (by rw [← hs, hm]), hm]

/-- An artifact that no other model has may be put on record for a model. -/
theorem Bijective.upsert (h : m.Bijective) {record : GeneratedRecord}
    (hfree : ∀ r, m.recordOf? artifact = some r → r.source = source)
    (hrecord : record.source = source) : (m.upsert source artifact record).Bijective := by
  intro other place
  rw [artifactOf?_upsert, h.recordOf?_upsert]
  constructor
  · intro ho
    split at ho
    · next hs =>
      cases ho
      exact ⟨record, by simp, hs ▸ hrecord⟩
    · next hs =>
      obtain ⟨r, hr, hrs⟩ := h.recorded ho
      have hplace : place ≠ artifact := by
        rintro rfl
        exact hs (hrs.symm.trans (hfree r hr))
      refine ⟨r, ?_, hrs⟩
      rw [if_neg hplace, if_neg fun hold => hs (h.injective ho hold), hr]
  · rintro ⟨r, hr, rfl⟩
    split at hr
    · next hplace =>
      cases hr
      rw [if_pos hrecord, hplace]
    · split at hr
      · cases hr
      · next hold =>
        have hm := h.mapped hr
        rw [if_neg fun hs => hold (by rw [← hs, hm]), hm]

end Manifest

namespace Project

variable {l : Layout} {m m' : Manifest} {source artifact : Text} {d : Disk}

/-- What a claim does: it leaves the manifest as it is where the artifact is on record for no other
model, and else forgets that model, which is gone. -/
theorem eq_of_claim (h : claim l m source artifact d = .ok m') :
    (m' = m ∧ ∀ r, m.recordOf? artifact = some r → r.source = source) ∨
      ∃ owner, m.recordOf? artifact = some owner ∧ owner.source ≠ source ∧
        d.isFile (l.resolve owner.source) = false ∧ m' = m.forget owner.source := by
  rw [claim] at h
  cases hrecord : m.recordOf? artifact with
  | none =>
    rw [hrecord] at h
    cases h
    exact .inl ⟨rfl, fun r hr => by cases hr⟩
  | some owner =>
    rw [hrecord] at h
    dsimp only at h
    split at h
    · next hsource =>
      cases h
      exact .inl ⟨rfl, fun r hr => Option.some.inj hr ▸ hsource⟩
    next hsource =>
    split at h
    · cases h
    · next hgone =>
      cases h
      exact .inr ⟨owner, rfl, hsource, eq_false_of_ne_true hgone, rfl⟩

/-- **A claim is what an entry needs**: after a model has claimed an artifact, no other model has
it. -/
theorem bijective_claim (h : m.Bijective) (hc : claim l m source artifact d = .ok m') :
    m'.Bijective ∧ ∀ r, m'.recordOf? artifact = some r → r.source = source := by
  rcases eq_of_claim hc with ⟨rfl, hfree⟩ | ⟨owner, howner, -, -, rfl⟩
  · exact ⟨h, hfree⟩
  · refine ⟨h.forget owner.source, fun r hr => ?_⟩
    rw [h.recordOf?_forget, if_pos (h.mapped howner)] at hr
    cases hr

end Project

end ActionBundles
