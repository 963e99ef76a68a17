import ActionBundles.Proofs.BundleHistory
import ActionBundles.Proofs.ReadDescriptors
import ActionBundles.Proofs.Steadiness

/-!
# Checks that find nothing wrong

A validation passes without errors and warnings if each check can read all of its items and is fine
with them (`Layout.validate_of_fine`). For a project in order this comes down to its files: a bundle
is fine if it stands in its directory with a descriptor that can be read, a mapped model if its
bundle was generated from the bytes that it has, and the manifest because it is a bijection.
-/

namespace ActionBundles

open ActionBundles.Action

/-! ### Reports without findings -/

section Reports

variable {l : Layout} {m : Manifest} {d : Disk}

/-- The report with what a check found that is fine with all items. -/
theorem Report.addTo_fine {vs : List Verdict} (h : ∀ v ∈ vs, v = .fine) (r : Report) (check : Check) :
    (check.addTo m vs r).valid = r.valid ∧ (check.addTo m vs r).errors = r.errors ∧
      (check.addTo m vs r).warnings = r.warnings := by
  have hpasses : vs.any (·.isFailure) = false := by
    rw [List.any_eq_false]
    intro v hv
    rw [h v hv]
    simp [Verdict.isFailure]
  have herrors : vs.filterMap (·.error?) = [] :=
    List.filterMap_eq_nil_iff.2 fun v hv => by rw [h v hv]; rfl
  have hwarnings : vs.filterMap (·.warning?) = [] :=
    List.filterMap_eq_nil_iff.2 fun v hv => by rw [h v hv]; rfl
  rw [Check.addTo, herrors, hwarnings, hpasses]
  simp [Report.record]

/-- A check is fine with all of its items. -/
def Check.IsFine (check : Check) (l : Layout) (m : Manifest) (d : Disk) : Prop :=
  ∃ vs, check.verdicts l m d = .ok vs ∧ ∀ v ∈ vs, v = .fine

theorem Check.isFine_of_mapM {α : Type} {check : Check} {f : α → Except Failure Verdict}
    {items : List α} (hcheck : check.verdicts l m d = items.mapM f)
    (h : ∀ item ∈ items, f item = .ok .fine) : check.IsFine l m d :=
  ⟨_, hcheck.trans (mapM_eq_map h), fun v hv => by
    obtain ⟨_, -, rfl⟩ := List.mem_map.1 hv
    rfl⟩

/-- Checks that are fine leave a report as it is but for their results. -/
theorem Report.extend_of_fine {checks : List Check} (h : ∀ check ∈ checks, check.IsFine l m d)
    (r : Report) : ∃ r', r.extend l m d checks = .ok r' ∧ r'.valid = r.valid ∧
      r'.errors = r.errors ∧ r'.warnings = r.warnings := by
  induction checks generalizing r with
  | nil => exact ⟨r, rfl, rfl, rfl, rfl⟩
  | cons check checks ih =>
    obtain ⟨vs, hvs, hfine⟩ := h check List.mem_cons_self
    obtain ⟨hvalid, herrors, hwarnings⟩ := Report.addTo_fine (m := m) hfine r check
    obtain ⟨r', hr', hvalid', herrors', hwarnings'⟩ :=
      ih (fun other hother => h other (List.mem_cons_of_mem _ hother)) (check.addTo m vs r)
    refine ⟨r', ?_, hvalid'.trans hvalid, herrors'.trans herrors, hwarnings'.trans hwarnings⟩
    rw [Report.extend, hvs]
    exact hr'

/-- **A validation that finds nothing wrong.** -/
theorem Layout.validate_of_fine (h : ∀ check ∈ Check.all, check.IsFine l m d) :
    ∃ r, l.validate m d = .ok r ∧ r.valid = true ∧ r.errors = [] ∧ r.warnings = [] :=
  Report.extend_of_fine h {}

end Reports

/-! ### Directories of bundles -/

namespace Project

variable {a : Address} {d : Disk} {mode : ParseMode} {m : Manifest}

/-- What is looked at for bundles are directories two levels below that of the actions. -/
theorem exists_of_mem_bundleDirs (hroot : d.tree.get? a = some .directory)
    (hno : d.tree.NoLinksIn a) {dir : Text}
    (h : dir ∈ Check.bundleDirs (standard a mode).layout d) :
    ∃ domain slug, dir = Path.ofAddress (slug :: domain :: actionsAddress a) ∧
      d.tree.get? (slug :: domain :: actionsAddress a) = some .directory := by
  have hway : Path.IsWay (actionsAddress a) := (Tree.isWay_of_get? hroot).cons (by decide)
  have hactions : (standard a mode).layout.actionsDir = Path.ofAddress (actionsAddress a) :=
    Path.join_ofAddress (n := "actions".toList) (Tree.isWay_of_get? hroot) (by decide)
  have hsub : ∀ {x : Address} {dir : Text}, Path.IsWay x → a <:+ x →
      dir ∈ d.subdirectories (Path.ofAddress x) →
      ∃ n, dir = Path.ofAddress (n :: x) ∧ d.tree.get? (n :: x) = some .directory := by
    intro x dir hx hin hdir
    obtain ⟨n, rfl, hn⟩ := Disk.mem_subdirectories hdir
    have hfound := (List.mem_filter.1 hdir).2
    rw [Path.join_ofAddress hx hn] at hfound
    refine ⟨n, Path.join_ofAddress hx hn, ?_⟩
    exact (Disk.isDirectory_iff hroot hno (hx.cons hn) (hin.trans (List.suffix_cons n x))).1 hfound
  obtain ⟨above, habove, hdir⟩ := List.mem_flatMap.1 h
  rw [hactions] at habove
  obtain ⟨domain, rfl, hdomain⟩ := hsub hway (List.suffix_cons _ a) habove
  obtain ⟨slug, rfl, hslug⟩ := hsub (Tree.isWay_of_get? hdomain)
    (List.suffix_append [domain, "actions".toList] a) hdir
  exact ⟨domain, slug, rfl, hslug⟩

end Project

end ActionBundles
