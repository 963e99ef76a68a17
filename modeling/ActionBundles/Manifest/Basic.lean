import ActionBundles.Dict
import ActionBundles.Text.Basic

/-!
# Manifests

The manifest of a project says which model is mapped to which artifact, and for each artifact from
which model it was generated. Both are dictionaries: one of artifacts by model, one of records by
artifact. All paths are relative to the project.

`artifactOf?` and `recordOf?` are the views of a manifest; the lemmas at the end say what each
operation does to them.
-/

namespace ActionBundles

/-- How an artifact was generated. -/
structure GeneratedRecord where
  /-- The model. -/
  source : Text
  /-- When. -/
  generatedAt : Text
  /-- The version that the model declared. -/
  version : Text
  deriving DecidableEq

/-- Models and artifacts of a project. -/
structure Manifest where
  /-- The artifact of each model. -/
  mappings : Dict Text Text := .empty
  /-- The record of each artifact. -/
  generated : Dict Text GeneratedRecord := .empty
  deriving DecidableEq

namespace Manifest

/-- The artifact that a model is mapped to. -/
def artifactOf? (m : Manifest) (source : Text) : Option Text := m.mappings.get? source

/-- The record of an artifact. -/
def recordOf? (m : Manifest) (artifact : Text) : Option GeneratedRecord := m.generated.get? artifact

/-- Whether the record of an artifact names a model. -/
def owns (m : Manifest) (source artifact : Text) : Bool :=
  (m.recordOf? artifact).any fun r => r.source = source

/-- Removes the record of an artifact if it names a model. -/
def release (m : Manifest) (source artifact : Text) : Manifest :=
  if m.owns source artifact then { m with generated := m.generated.erase artifact } else m

/-- Maps a model to an artifact and puts the artifact on record. If the model was mapped to another
artifact, the record that it has there is removed. -/
def upsert (m : Manifest) (source artifact : Text) (record : GeneratedRecord) : Manifest :=
  let m := match m.artifactOf? source with
    | some previous => if previous = artifact then m else m.release source previous
    | none => m
  { mappings := m.mappings.insert source artifact
    generated := m.generated.insert artifact record }

/-- Forgets a model and the record that it has at its artifact. -/
def forget (m : Manifest) (source : Text) : Manifest :=
  match m.artifactOf? source with
  | none => m
  | some artifact => { m.release source artifact with mappings := m.mappings.erase source }

/-- The models whose artifact has no record, with their artifacts. -/
def unrecorded (m : Manifest) : List (Text × Text) :=
  m.mappings.toList.filter fun e => !m.generated.contains e.2

/-! ### What is found afterwards -/

@[simp] theorem artifactOf?_release (m : Manifest) (source artifact other : Text) :
    (m.release source artifact).artifactOf? other = m.artifactOf? other := by
  unfold release
  split <;> rfl

@[grind =] theorem recordOf?_release (m : Manifest) (source artifact other : Text) :
    (m.release source artifact).recordOf? other =
      if other = artifact ∧ m.owns source artifact = true then none else m.recordOf? other := by
  unfold release
  split
  · next h => simp [recordOf?, Dict.get?_erase, h]
  · next h => simp [h]

@[grind =] theorem artifactOf?_upsert (m : Manifest) (source artifact other : Text)
    (record : GeneratedRecord) :
    (m.upsert source artifact record).artifactOf? other =
      if other = source then some artifact else m.artifactOf? other := by
  have h : ∀ n : Manifest, n.artifactOf? other = m.artifactOf? other →
      ({ mappings := n.mappings.insert source artifact
         generated := n.generated.insert artifact record } : Manifest).artifactOf? other =
        if other = source then some artifact else m.artifactOf? other := fun n hn => by
    rw [← hn]
    simp [artifactOf?, Dict.get?_insert]
  unfold upsert
  refine h _ ?_
  split
  · split <;> simp
  · rfl

theorem recordOf?_upsert_self (m : Manifest) (source artifact : Text) (record : GeneratedRecord) :
    (m.upsert source artifact record).recordOf? artifact = some record := by
  simp [upsert, recordOf?, Dict.get?_insert]

@[grind =] theorem artifactOf?_forget (m : Manifest) (source other : Text) :
    (m.forget source).artifactOf? other =
      if other = source then none else m.artifactOf? other := by
  unfold forget
  split
  · next h =>
    split
    · next e => rw [e, h]
    · rfl
  · simp [artifactOf?, Dict.get?_erase]

end Manifest

end ActionBundles
