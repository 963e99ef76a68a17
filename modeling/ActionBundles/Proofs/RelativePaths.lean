import ActionBundles.Proofs.BundleDepth

/-!
# Paths from the root

What is put on record of a path is its names from the root of the project. Manifest, sync records
and provenance know models and bundles by such records alone, so the record has to be a faithful name
of the path: `Layout.relative_faithful`.

All of it is about components, not about how paths are written. `/project-b/x` starts with the text
`/project` and is not below it; `/project//x/.` is written otherwise than `/project/x` and has the
same record.
-/

namespace ActionBundles

/-! ### Components after those of a root -/

namespace Path

variable {p q dir : Text} {names : List Text}

/-- What comes after an absolute path, and does not lead up, is names. -/
theorem exists_names_of_components {rest : List Component} (hq : isAbsolute q = true)
    (h : components p = components q ++ rest) (hup : Component.up ∉ rest) :
    ∃ names : List Text, rest = names.map .name := by
  have hp : isAbsolute p = true := by
    rw [isAbsolute_eq, h, components_of_isAbsolute hq]
    rfl
  rw [components_of_isAbsolute hp, components_of_isAbsolute hq, List.cons_append,
    List.cons.injEq] at h
  refine Layout.exists_eq_map_name fun c hc => ?_
  have hmem : c ∈ (undotted (steps p)).map componentOf := h.2 ▸ List.mem_append_right _ hc
  obtain ⟨s, -, rfl⟩ := List.mem_map.1 hmem
  rw [componentOf] at hc ⊢
  split at hc
  · exact absurd hc hup
  · next hdots => exact ⟨s, if_neg hdots⟩

/-- Names that are joined to a path are its last components. -/
theorem components_join_names (hdir : dir ≠ []) (h : ∀ n ∈ names, isStep n = true) :
    components (join dir (Text.join ['/'] names)) = components dir ++ names.map .name := by
  have hcomponent : ∀ n ∈ names, componentOf n = .name n := fun n hn =>
    if_neg (isStep_iff.1 (h n hn)).2.2.1
  have hsteps : undotted (steps (Text.join ['/'] names)) = names := by
    rw [steps_join h, undotted_of_isStep h]
  rw [components_join_relative hdir (Disk.isAbsolute_join_steps h), filterMap_ofPiece?, ← steps,
    hsteps, List.map_congr_left hcomponent]

end Path

/-! ### Records -/

namespace Layout

variable {l : Layout}

/-- Exactly the paths whose components go on from those of the root with names have a record. -/
theorem relative_eq_ok_iff {path rel : Text} : l.relative path = .ok rel ↔
    ∃ names : List Text, Path.components path = Path.components l.root ++ names.map .name ∧
      rel = Text.join ['/'] names := by
  refine ⟨relative_eq_ok, ?_⟩
  rintro ⟨names, hcomponents, rfl⟩
  exact relative_of_components hcomponents

/-- A record leads from the root to the path that it is the record of. -/
theorem components_resolve_relative {path rel : Text} (hroot : l.root ≠ [])
    (h : l.relative path = .ok rel) :
    Path.components (l.resolve rel) = Path.components path := by
  obtain ⟨names, hcomponents, rfl⟩ := relative_eq_ok h
  have hstep := (Path.undotted_of_components_append hcomponents).2
  rw [resolve, Path.components_join_names hroot hstep, hcomponents]

/-- **Records are faithful names.** Below an absolute root, a path has a record exactly if its
components are those of the root and more, none of which leads up. The record is made of these, as
names with single slashes between them, and it leads from the root to the path. The paths with the
same record are those with the same components. -/
theorem relative_faithful (hroot : Path.isAbsolute l.root = true) (path : Text) :
    ((∃ rel, l.relative path = .ok rel) ↔
      ∃ rest, Path.components path = Path.components l.root ++ rest ∧ Component.up ∉ rest) ∧
    ∀ rel, l.relative path = .ok rel →
      (∃ names : List Text, (∀ n ∈ names, Path.isStep n = true) ∧ rel = Text.join ['/'] names ∧
        Path.components path = Path.components l.root ++ names.map .name) ∧
      Path.components (l.resolve rel) = Path.components path ∧
      ∀ path', l.relative path' = .ok rel ↔
        Path.components path' = Path.components path := by
  have hne : l.root ≠ [] := fun he => by
    rw [he] at hroot
    cases hroot
  refine ⟨⟨?_, ?_⟩, fun rel h => ⟨?_, components_resolve_relative hne h, fun path' => ?_⟩⟩
  · rintro ⟨rel, h⟩
    obtain ⟨names, hcomponents, -⟩ := relative_eq_ok h
    exact ⟨names.map .name, hcomponents, by simp⟩
  · rintro ⟨rest, hcomponents, hup⟩
    obtain ⟨names, rfl⟩ := Path.exists_names_of_components hroot hcomponents hup
    exact ⟨_, relative_of_components hcomponents⟩
  · obtain ⟨names, hcomponents, hrel⟩ := relative_eq_ok h
    exact ⟨names, (Path.undotted_of_components_append hcomponents).2, hrel, hcomponents⟩
  · constructor
    · intro h'
      rw [← components_resolve_relative hne h', components_resolve_relative hne h]
    · intro hsame
      rw [relative_eq_ok_iff] at h ⊢
      rwa [hsame]

/-- A path below `/project`, with slashes and dots that mean nothing. -/
def sampleSpelled : Text := "/project//axioms/./git/commit.fcm/"

theorem relative_faithful_sampleSpelled :
    Path.isAbsolute (ofConfig "/project" {}).root = true ∧
      (ofConfig "/project" {}).relative sampleSpelled = .ok "axioms/git/commit.fcm" ∧
      Path.components ((ofConfig "/project" {}).resolve "axioms/git/commit.fcm") =
        Path.components sampleSpelled ∧
      (ofConfig "/project" {}).relative "/project/axioms/git/commit.fcm" =
        .ok "axioms/git/commit.fcm" := by
  have hrecord : (ofConfig "/project" {}).relative sampleSpelled = .ok "axioms/git/commit.fcm" := by
    decide
  have hfaithful := (relative_faithful (l := ofConfig "/project" {}) (by decide) sampleSpelled).2
    _ hrecord
  exact ⟨by decide, hrecord, hfaithful.2.1, (hfaithful.2.2 _).2 (by decide)⟩

/-- Names that only start alike lead elsewhere. -/
example : (ofConfig "/project" {}).relative "/project-b/x" =
    .error (.notUnder "/project-b/x" "/project") := by
  decide

end Layout

end ActionBundles
