import ActionBundles.Proofs.BundlePlaces
import ActionBundles.Proofs.SamePlace

/-!
# Models and actions apart

A configuration is refused if models and actions have one directory, so that no action is written
among the models. What is compared is how the two paths are written, but for slashes at their ends.
Other spellings are not seen: in the directory of the actions a single dot or a slash too many is
enough, and models and actions share a directory (`Layout.same_directory_sampleDotted`).

Below, two paths name the same directory if they have the same steps but for dots
(`Path.IsSameDirectory`); whatever is on the disk, the entries of the two are then the same
(`Path.IsSameDirectory.find_join`). A configuration that can be used keeps both directories in the
project, and keeps them apart exactly if their steps differ, so in any case if both are written
without dots and repeated slashes (`Layout.directories_of_check`).
-/

namespace ActionBundles

namespace Path

variable {p q root : Text}

/-! ### One directory by two paths -/

/-- Two paths start at the same place and take the same steps but for dots. -/
def IsSameDirectory (p q : Text) : Prop :=
  isAbsolute p = isAbsolute q ∧ undotted (steps p) = undotted (steps q)

instance (p q : Text) : Decidable (IsSameDirectory p q) := inferInstanceAs (Decidable (_ ∧ _))

/-- The entries of a directory are the same by whichever path it is named. -/
theorem IsSameDirectory.find_join (h : IsSameDirectory p q) {n : Text} (hn : isStep n = true)
    (d : Disk) : d.find (join p n) = d.find (join q n) := by
  have hrelative := isAbsolute_of_isStep hn
  refine Disk.find_congr hn (steps_join_isStep hn p) (steps_join_isStep hn q)
    (Disk.wantsDirectory_join hn p) (Disk.wantsDirectory_join hn q) h.2 ?_
  rw [Disk.isAbsolute_join hrelative, Disk.isAbsolute_join hrelative, h.1]

/-- A path goes on from another one by names, and by nothing that leads up. -/
def LeadsDown (root p : Text) : Prop :=
  isAbsolute p = isAbsolute root ∧ ∃ names, (∀ n ∈ names, isStep n = true) ∧
    undotted (steps p) = undotted (steps root) ++ names

/-- A path is written as its names with single slashes between them, but for slashes at its end. -/
def IsPlain (p : Text) : Prop := Config.trimSlashes p = Text.join ['/'] (undotted (steps p))

instance (p : Text) : Decidable (IsPlain p) := inferInstanceAs (Decidable (_ = _))

/-- Plain paths with the same names are written alike, but for slashes at their ends. -/
theorem IsPlain.trimSlashes_congr (hp : IsPlain p) (hq : IsPlain q)
    (h : undotted (steps p) = undotted (steps q)) :
    Config.trimSlashes p = Config.trimSlashes q := by
  rw [hp, hq, h]

end Path

/-! ### Directories of a project -/

/-- What a usable configuration says of its directories. -/
theorem Config.inside_of_check {c : Config} (h : c.check = .ok ()) :
    isInside c.modelsDir = true ∧ isInside c.actionsDir = true ∧
      trimSlashes c.modelsDir ≠ trimSlashes c.actionsDir := by
  have hactions := (isInside_of_check h).1
  rw [check] at h
  obtain ⟨_, hmodels, h⟩ := exists_of_bind_eq_ok h
  obtain ⟨_, -, h⟩ := exists_of_bind_eq_ok h
  refine ⟨?_, hactions, fun hsame => ?_⟩
  · by_contra hnot
    rw [checkDirectory, if_neg hnot] at hmodels
    cases hmodels
  · dsimp only at h
    rw [if_pos hsame] at h
    cases h

namespace Layout

variable {l : Layout} {c : Config} {rel rel' : Text}

/-- What stands inside the project leads down from its root. -/
theorem leadsDown_resolve (h : Config.isInside rel = true) :
    Path.LeadsDown l.root (l.resolve rel) := by
  obtain ⟨-, habs, hup⟩ := Config.isInside_iff.1 h
  refine ⟨Disk.isAbsolute_join habs _, Path.undotted (Path.steps rel),
    fun _ hn => Path.isStep_of_mem_undotted hup hn, ?_⟩
  rw [resolve, Path.steps_join_relative habs, Path.undotted_append]

/-- From one root the same directory is reached by the same names. -/
theorem isSameDirectory_resolve_iff (h : Config.isInside rel = true)
    (h' : Config.isInside rel' = true) :
    Path.IsSameDirectory (l.resolve rel) (l.resolve rel') ↔
      Path.undotted (Path.steps rel) = Path.undotted (Path.steps rel') := by
  have habs := (Config.isInside_iff.1 h).2.1
  have habs' := (Config.isInside_iff.1 h').2.1
  rw [Path.IsSameDirectory, resolve, resolve, Disk.isAbsolute_join habs, Disk.isAbsolute_join habs',
    Path.steps_join_relative habs, Path.steps_join_relative habs', Path.undotted_append,
    Path.undotted_append, List.append_cancel_left_eq]
  exact and_iff_right rfl

/-- **Where a usable configuration keeps models and actions.** Whatever the root, both directories
are below it. They are different exactly if the names in their configured paths are, and so if both
of these paths are plain. -/
theorem directories_of_check (root : Text) (h : c.check = .ok ()) :
    Path.LeadsDown root (ofConfig root c).modelsDir ∧
      Path.LeadsDown root (ofConfig root c).actionsDir ∧
      (¬ Path.IsSameDirectory (ofConfig root c).modelsDir (ofConfig root c).actionsDir ↔
        Path.undotted (Path.steps c.modelsDir) ≠ Path.undotted (Path.steps c.actionsDir)) ∧
      (Path.IsPlain c.modelsDir → Path.IsPlain c.actionsDir →
        ¬ Path.IsSameDirectory (ofConfig root c).modelsDir (ofConfig root c).actionsDir) := by
  obtain ⟨hmodels, hactions, hwritten⟩ := Config.inside_of_check h
  have hsame := isSameDirectory_resolve_iff (l := ofConfig root c) hmodels hactions
  refine ⟨leadsDown_resolve hmodels, leadsDown_resolve hactions, not_congr hsame,
    fun hplain hplain' hboth => hwritten ?_⟩
  exact hplain.trimSlashes_congr hplain' (hsame.1 hboth)

/-- A configuration with directories of two names each, one of them with a slash at its end. -/
def sampleSlashed : Config :=
  { modelsDir := "src/axioms/", actionsDir := "src/actions", defaultDomain := "web" }

theorem directories_of_check_sampleSlashed :
    sampleSlashed.check = .ok () ∧ Path.IsPlain sampleSlashed.modelsDir ∧
      Path.IsPlain sampleSlashed.actionsDir ∧
        Path.LeadsDown "/p" (ofConfig "/p" sampleSlashed).modelsDir ∧
        ¬ Path.IsSameDirectory (ofConfig "/p" sampleSlashed).modelsDir
          (ofConfig "/p" sampleSlashed).actionsDir := by
  have hcheck : sampleSlashed.check = .ok () := by decide
  have hmodels : Path.IsPlain sampleSlashed.modelsDir := by decide
  have hactions : Path.IsPlain sampleSlashed.actionsDir := by decide
  obtain ⟨hdown, -, -, hdifferent⟩ := directories_of_check "/p" hcheck
  exact ⟨hcheck, hmodels, hactions, hdown, hdifferent hmodels hactions⟩

/-- A configuration in which the actions are among the models. -/
def sampleDotted : Config := { modelsDir := "axioms", actionsDir := "./axioms" }

/-- Models and actions share a directory under a configuration that can be used. -/
theorem same_directory_sampleDotted :
    sampleDotted.check = .ok () ∧
      Path.IsSameDirectory (ofConfig "/p" sampleDotted).modelsDir
        (ofConfig "/p" sampleDotted).actionsDir := by
  decide

end Layout

end ActionBundles
