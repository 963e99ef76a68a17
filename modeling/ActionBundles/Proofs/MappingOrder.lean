import ActionBundles.Manifest.Storage
import ActionBundles.Proofs.Effects
import ActionBundles.Proofs.ReferentialIntegrity
import Mathlib.Data.List.Pairwise

/-!
# Models that are mapped in any order

A model that is given another artifact loses the record that it had, and the artifact of this record
may well be the one that another model is given next, or was given just before. Still it makes no
difference which of two models is given its artifact first, whatever was mapped and recorded before:
a model takes away no record but one that names it (`Manifest.HasRecord`), so never what the other
one was given. By the same reason a whole list of models may be mapped in any order
(`Manifest.foldl_apply_perm`).
-/

namespace ActionBundles.Manifest

open ActionBundles.Action

variable {m n : Manifest} {s s₁ s₂ a a₁ a₂ other : Text} {r r₁ r₂ : GeneratedRecord}

/-- Manifests with the same mappings and the same records are equal. -/
theorem ext_views (hmappings : ∀ s, m.artifactOf? s = n.artifactOf? s)
    (hrecords : ∀ a, m.recordOf? a = n.recordOf? a) : m = n := by
  have hm : m.mappings = n.mappings := Dict.ext_get? hmappings
  have hr : m.generated = n.generated := Dict.ext_get? hrecords
  cases m
  cases n
  cases hm
  cases hr
  rfl

/-! ### Two models -/

/-- A model is mapped to an artifact and has its record there. -/
def HasRecord (m : Manifest) (s a : Text) : Prop := m.artifactOf? s = some a ∧ m.owns s a = true

instance (m : Manifest) (s a : Text) : Decidable (m.HasRecord s a) :=
  inferInstanceAs (Decidable (_ ∧ _))

/-- A model that is mapped anew loses the record that it has elsewhere. -/
theorem recordOf?_upsert_hasRecord : (m.upsert s a r₁).recordOf? other =
    if other = a then some r₁ else if m.HasRecord s other then none else m.recordOf? other :=
  recordOf?_upsert ..

/-- When one model is given an artifact, another one loses the record that it has there and no
other. -/
theorem hasRecord_upsert_iff (hs : s₂ ≠ s₁) (hr : r₁.source = s₁) :
    (m.upsert s₁ a₁ r₁).HasRecord s₂ other ↔ other ≠ a₁ ∧ m.HasRecord s₂ other := by
  rw [HasRecord, artifactOf?_upsert, if_neg hs, owns_upsert_iff hr, HasRecord]
  by_cases hother : other = a₁
  · simp [hother, hs]
  · simp [hother, hs]

/-- What is on record after two models were given different artifacts. The right side says nothing
of an order. -/
theorem recordOf?_upsert_upsert (hs : s₁ ≠ s₂) (hr : r₁.source = s₁) :
    ((m.upsert s₁ a₁ r₁).upsert s₂ a₂ r₂).recordOf? other =
      if other = a₂ then some r₂ else if other = a₁ then some r₁
      else if m.HasRecord s₁ other ∨ m.HasRecord s₂ other then none else m.recordOf? other := by
  have hlost : (m.upsert s₁ a₁ r₁).HasRecord s₂ other ↔ other ≠ a₁ ∧ m.HasRecord s₂ other :=
    hasRecord_upsert_iff hs.symm hr
  rw [recordOf?_upsert_hasRecord, recordOf?_upsert_hasRecord]
  by_cases h₂ : other = a₂
  · rw [if_pos h₂, if_pos h₂]
  rw [if_neg h₂, if_neg h₂]
  by_cases h₁ : other = a₁
  · rw [if_neg fun h => (hlost.1 h).1 h₁, if_pos h₁, if_pos h₁]
  rw [if_neg h₁, if_neg h₁]
  by_cases htaken : m.HasRecord s₂ other
  · rw [if_pos (hlost.2 ⟨h₁, htaken⟩), if_pos (.inr htaken)]
  · rw [if_neg fun h => htaken (hlost.1 h).2]
    exact if_congr (or_iff_left htaken).symm rfl rfl

/-- **Two models may be given different artifacts in either order.** -/
theorem upsert_comm (hs : s₁ ≠ s₂) (ha : a₁ ≠ a₂) (h₁ : r₁.source = s₁) (h₂ : r₂.source = s₂) :
    (m.upsert s₁ a₁ r₁).upsert s₂ a₂ r₂ = (m.upsert s₂ a₂ r₂).upsert s₁ a₁ r₁ := by
  refine ext_views (fun s => ?_) fun a => ?_
  · rw [artifactOf?_upsert, artifactOf?_upsert, artifactOf?_upsert, artifactOf?_upsert]
    by_cases hfirst : s = s₁
    · rw [if_neg fun hsecond => hs (hfirst.symm.trans hsecond), if_pos hfirst, if_pos hfirst]
    · rw [if_neg hfirst, if_neg hfirst]
  · rw [recordOf?_upsert_upsert hs h₁, recordOf?_upsert_upsert hs.symm h₂]
    by_cases hfirst : a = a₁
    · rw [if_neg fun hsecond => ha (hfirst.symm.trans hsecond), if_pos hfirst, if_pos hfirst]
    · rw [if_neg hfirst, if_neg hfirst]
      exact if_congr Iff.rfl rfl (if_congr or_comm rfl rfl)

/-- **The order in which two models are mapped leaves no trace.** Whatever the manifest, consistent
or not, two models that are given different artifacts, each with its own record, leave one and the
same manifest in either order; so its document has the same bytes, and storing it, in any project
and on any disk, comes to the same. -/
theorem upsert_either_order (m : Manifest) (hs : s₁ ≠ s₂) (ha : a₁ ≠ a₂) (h₁ : r₁.source = s₁)
    (h₂ : r₂.source = s₂) :
    (m.upsert s₁ a₁ r₁).upsert s₂ a₂ r₂ = (m.upsert s₂ a₂ r₂).upsert s₁ a₁ r₁ ∧
      ((m.upsert s₁ a₁ r₁).upsert s₂ a₂ r₂).render.utf8 =
        ((m.upsert s₂ a₂ r₂).upsert s₁ a₁ r₁).render.utf8 ∧
      ∀ l d, (save l ((m.upsert s₁ a₁ r₁).upsert s₂ a₂ r₂)).on d =
        (save l ((m.upsert s₂ a₂ r₂).upsert s₁ a₁ r₁)).on d := by
  have hsame := upsert_comm (m := m) hs ha h₁ h₂
  exact ⟨hsame, by rw [hsame], fun l d => by rw [hsame]⟩

/-- A manifest in which a third model is mapped to an artifact whose record names `a.fcm`, while
`a.fcm` and `b.fcm` are mapped to the artifacts that the other one is about to be given. -/
def sampleCrossed : Manifest :=
  (((({} : Manifest).upsert "c.fcm" "actions/core/y" ⟨"a.fcm", "t0", "1"⟩).upsert "a.fcm"
    "actions/core/y" ⟨"a.fcm", "t1", "1"⟩).upsert "b.fcm" "actions/core/x" ⟨"b.fcm", "t2", "1"⟩)

theorem upsert_either_order_sampleCrossed :
    ("a.fcm" : Text) ≠ "b.fcm" ∧ ("actions/core/x" : Text) ≠ "actions/core/y" ∧
      sampleCrossed.HasRecord "a.fcm" "actions/core/y" ∧
      sampleCrossed.HasRecord "b.fcm" "actions/core/x" ∧
      (sampleCrossed.upsert "a.fcm" "actions/core/x" ⟨"a.fcm", "t3", "2"⟩).upsert "b.fcm"
          "actions/core/y" ⟨"b.fcm", "t4", "2"⟩ =
        (sampleCrossed.upsert "b.fcm" "actions/core/y" ⟨"b.fcm", "t4", "2"⟩).upsert "a.fcm"
          "actions/core/x" ⟨"a.fcm", "t3", "2"⟩ := by
  have hs : ("a.fcm" : Text) ≠ "b.fcm" := by decide
  have ha : ("actions/core/x" : Text) ≠ "actions/core/y" := by decide
  exact ⟨hs, ha, by decide, by decide, (upsert_either_order sampleCrossed hs ha rfl rfl).1⟩

/-! ### Any number of models -/

/-- Two changes give different artifacts to different models. -/
def Change.AreApart : Change → Change → Prop
  | .give s₁ a₁ _ _, .give s₂ a₂ _ _ => s₁ ≠ s₂ ∧ a₁ ≠ a₂
  | _, _ => False

theorem Change.AreApart.symm {c₁ c₂ : Change} (h : c₁.AreApart c₂) : c₂.AreApart c₁ := by
  cases c₁ with
  | forget => cases h
  | give =>
    cases c₂ with
    | forget => cases h
    | give => exact ⟨h.1.symm, h.2.symm⟩

theorem apply_comm {c₁ c₂ : Change} (h : c₁.AreApart c₂) (m : Manifest) :
    c₂.apply (c₁.apply m) = c₁.apply (c₂.apply m) := by
  cases c₁ with
  | forget => cases h
  | give =>
    cases c₂ with
    | forget => cases h
    | give => exact upsert_comm h.1 h.2 rfl rfl

/-- **Models may be mapped in any order**, if each is given an artifact of its own. -/
theorem foldl_apply_perm {changes changes' : List Change} (h : changes.Pairwise Change.AreApart)
    (hperm : changes.Perm changes') (m : Manifest) :
    changes.foldl Change.apply m = changes'.foldl Change.apply m := by
  refine hperm.foldl_eq' (fun c₁ hc₁ c₂ hc₂ m => ?_) m
  have : Std.Symm Change.AreApart := ⟨fun _ _ => Change.AreApart.symm⟩
  by_cases he : c₁ = c₂
  · rw [he]
  · exact apply_comm (h.forall hc₁ hc₂ he) m

end ActionBundles.Manifest
