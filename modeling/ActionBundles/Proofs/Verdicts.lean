import ActionBundles.Proofs.Attempts
import ActionBundles.Proofs.FileOrder

/-!
# What a report says

A report is put together from the verdicts of six checks on single items. Here each rule that a
check stands for is stated of the disk and the manifest alone, without verdicts, and the verdicts
are computed from the rules: an item that breaks a rule gives one error, in the order of the
items, and the report is valid if no rule is broken (`Layout.validate_exact`).

One rule is not only about errors: a source whose content is not that of its sync record makes the
report invalid, but is only warned of. What a source is warned of is `sourceWarning?`.
-/

namespace ActionBundles

/-! ### The rules -/

/-- The text in a file. -/
def Disk.text? (d : Disk) (path : Text) : Option Text :=
  (d.read path).toOption.bind Text.ofUtf8?

namespace Layout

variable (l : Layout) (m : Manifest) (d : Disk)

/-- A model is mapped under its path from the root. -/
def Mapped (model : Text) : Prop :=
  ∃ rel ∈ (l.relative model).toOption, (m.artifactOf? rel).isSome = true

/-- A bundle has a file for its sync record. -/
def Synced (dir : Text) : Prop := d.isFile (Path.join dir SyncRecord.fileName) = true

/-- A source is a file. -/
def Present (source : Text) : Prop := d.isFile (l.resolve source) = true

/-- The sync record of an artifact, if there is one that can be read. -/
def syncRecord? (artifact : Text) : Option SyncRecord :=
  match SyncRecord.load? d (l.resolve artifact) with
  | .ok record => record
  | .error _ => none

/-- A source has another content than the one that its artifact was generated from. -/
def Drifted (source artifact : Text) : Prop :=
  ∃ record ∈ l.syncRecord? d artifact, ∃ bytes ∈ (d.read (l.resolve source)).toOption,
    Sha256.checksum bytes ≠ record.checksum

/-- The descriptor of an artifact has a line with each mark of its header. -/
def Attested (artifact : Text) : Prop :=
  ∃ text ∈ d.text? (Path.join (l.resolve artifact) Bundle.descriptorName),
    (∃ line ∈ Text.lines text, sourceMark <+: Text.trimStart line) ∧
      ∃ line ∈ Text.lines text, lockMark <+: Text.trimStart line

/-- An artifact is on record. -/
def Recorded (artifact : Text) : Prop := (m.recordOf? artifact).isSome = true

/-- The descriptor of a bundle is a mapping that has a name and says what it runs with. -/
def WellFormed (dir : Text) : Prop :=
  ∃ text ∈ d.text? (Path.join dir Bundle.descriptorName),
    ∃ document ∈ Yaml.read? (Descriptor.withoutComments text), document.isMapping = true ∧
      (∃ name ∈ document.get? "name", name.isNull = false) ∧
      ∃ runs ∈ document.get? "runs", ∃ runner ∈ runs.get? "using", runner.isNull = false

/-- An artifact on record is mapped from the model that its record names. -/
def Accounted (artifact : Text) (record : GeneratedRecord) : Prop :=
  m.artifactOf? record.source = some artifact

instance (model : Text) : Decidable (l.Mapped m model) :=
  inferInstanceAs (Decidable
    (∃ rel ∈ (l.relative model).toOption, (m.artifactOf? rel).isSome = true))

instance (dir : Text) : Decidable (Synced d dir) :=
  inferInstanceAs (Decidable (d.isFile (Path.join dir SyncRecord.fileName) = true))

instance (source : Text) : Decidable (l.Present d source) :=
  inferInstanceAs (Decidable (d.isFile (l.resolve source) = true))

instance (source artifact : Text) : Decidable (l.Drifted d source artifact) :=
  inferInstanceAs (Decidable (∃ record ∈ l.syncRecord? d artifact,
    ∃ bytes ∈ (d.read (l.resolve source)).toOption, Sha256.checksum bytes ≠ record.checksum))

instance (artifact : Text) : Decidable (l.Attested d artifact) :=
  inferInstanceAs (Decidable
    (∃ text ∈ d.text? (Path.join (l.resolve artifact) Bundle.descriptorName),
      (∃ line ∈ Text.lines text, sourceMark <+: Text.trimStart line) ∧
        ∃ line ∈ Text.lines text, lockMark <+: Text.trimStart line))

instance (artifact : Text) : Decidable (Recorded m artifact) :=
  inferInstanceAs (Decidable ((m.recordOf? artifact).isSome = true))

instance (dir : Text) : Decidable (WellFormed d dir) :=
  inferInstanceAs (Decidable (∃ text ∈ d.text? (Path.join dir Bundle.descriptorName),
    ∃ document ∈ Yaml.read? (Descriptor.withoutComments text), document.isMapping = true ∧
      (∃ name ∈ document.get? "name", name.isNull = false) ∧
      ∃ runs ∈ document.get? "runs", ∃ runner ∈ runs.get? "using", runner.isNull = false))

instance (artifact : Text) (record : GeneratedRecord) : Decidable (Accounted m artifact record) :=
  inferInstanceAs (Decidable (m.artifactOf? record.source = some artifact))

/-- Every item keeps the rules that are about it. -/
structure Consistent (models : List Text) : Prop where
  mapped : ∀ model ∈ models, l.Mapped m model
  synced : ∀ domain ∈ d.subdirectories l.actionsDir, ∀ dir ∈ d.subdirectories domain, Synced d dir
  unchanged : ∀ source artifact, m.artifactOf? source = some artifact →
    l.Present d source ∧ ¬ l.Drifted d source artifact
  attested : ∀ source artifact, m.artifactOf? source = some artifact → l.Attested d artifact
  recorded : ∀ source artifact, m.artifactOf? source = some artifact → Recorded m artifact
  wellFormed : ∀ domain ∈ d.subdirectories l.actionsDir, ∀ dir ∈ d.subdirectories domain,
    WellFormed d dir

/-! ### What is said of an item that breaks a rule -/

/-- A path as it is shown: as it is put on record. -/
def shown (path : Text) : Text := (l.relative path).toOption.getD path

/-- The error for a model that is not mapped. -/
def unmappedError (model : Text) : Text :=
  "coverage: " ++ l.shown model ++ " has no manifest mapping"

/-- The error for a bundle without a sync record. -/
def unsyncedError (dir : Text) : Text :=
  "sync_files: " ++ l.shown dir ++ " has no " ++ SyncRecord.fileName

/-- The error for a source that is missing. -/
def missingError (source : Text) : Text :=
  "checksums: mapped model " ++ source ++ " no longer exists"

/-- The error for a descriptor without its header. -/
def unattestedError (artifact : Text) : Text :=
  if d.isFile (Path.join (l.resolve artifact) Bundle.descriptorName) then
    "manual_edits: " ++ Check.shownDescriptor artifact ++
      " lacks its provenance header; possible manual edit"
  else
    "manual_edits: " ++ Check.shownDescriptor artifact ++
      " is missing; provenance cannot be attested"

/-- The error for a mapped artifact that is not on record. -/
def unrecordedError (source artifact : Text) : Text :=
  "manifest_integrity: mapping " ++ source ++ " -> " ++ artifact ++ " has no generated record"

/-- The error for a bundle whose descriptor is not as it should be. -/
def illFormedError (dir : Text) : Text :=
  match (d.text? (Path.join dir Bundle.descriptorName)).bind Descriptor.problem? with
  | none => "schema_compatibility: " ++ l.shown dir ++ " has no " ++ Bundle.descriptorName
  | some problem =>
    "schema_compatibility: " ++ Check.shownDescriptor (l.shown dir) ++ ' ' :: problem.message

/-- The warning for a source that drifted. -/
def driftWarning (source artifact : Text) : Text :=
  "checksums: drift detected for " ++ source ++ "; " ++ artifact ++
    " was generated from different content"

/-- The warning for an artifact whose sync record cannot be read. -/
def skippedWarning? (artifact : Text) : Option Text :=
  match SyncRecord.load? d (l.resolve artifact) with
  | .ok none => some ("checksums: " ++ artifact ++ " has no sync record; skipped")
  | .error e =>
    some ("checksums: " ++ artifact ++ " sync record unreadable (" ++ e.message ++ "); skipped")
  | .ok (some _) => none

/-- The warning for a mapped source. -/
def sourceWarning? (source artifact : Text) : Option Text :=
  if l.Present d source then
    if l.Drifted d source artifact then some (driftWarning source artifact)
    else l.skippedWarning? d artifact
  else none

/-- The verdict on a mapped source. -/
def sourceVerdict (source artifact : Text) : Verdict :=
  if l.Present d source then
    if l.Drifted d source artifact then .drifted (driftWarning source artifact)
    else
      match l.skippedWarning? d artifact with
      | some warning => .noted warning
      | none => .fine
  else .failed (missingError source)

/-- The warning for a record of the manifest that no mapping accounts for. -/
def unaccountedWarning (artifact : Text) (record : GeneratedRecord) : Text :=
  "manifest_integrity: generated record " ++ artifact ++ " is not mapped from " ++ record.source

end Layout

/-! ### Verdicts from rules -/

namespace Verdict

/-- The verdict by a rule that is kept or gives an error. -/
def byRule (kept : Prop) [Decidable kept] (error : Text) : Verdict :=
  if kept then .fine else .failed error

theorem eq_byRule {kept : Prop} [Decidable kept] {error : Text} {v : Verdict}
    (hk : kept → v = .fine) (hb : ¬ kept → v = .failed error) : v = byRule kept error := by
  rw [byRule]
  split
  · next h => exact hk h
  · next h => exact hb h

theorem ite_eq_byRule {kept test : Prop} [Decidable kept] [Decidable test] (h : kept ↔ test)
    (error : Text) : (if test then .fine else .failed error) = byRule kept error :=
  eq_byRule (fun hk => if_pos (h.1 hk)) fun hb => if_neg fun ht => hb (h.2 ht)

end Verdict

/-! ### Files, headers and documents -/

namespace Disk

variable {d : Disk} {path : Text}

theorem isFile_iff : d.isFile path = true ↔ ∃ bytes, d.read path = .ok bytes := by
  rw [isFile, read]
  cases d.find path with
  | error e => simp
  | ok found =>
    obtain ⟨a, node⟩ := found
    cases node <;> simp

theorem text?_of_not_isFile (h : ¬ d.isFile path = true) : d.text? path = none := by
  rw [text?]
  cases hr : d.read path with
  | error e => rfl
  | ok bytes => exact absurd (isFile_iff.2 ⟨bytes, hr⟩) h

theorem text?_of_descriptorText {text : Text} (h : Check.descriptorText d path = .ok text) :
    d.text? path = some text := by
  rw [Check.descriptorText] at h
  rw [text?]
  cases hr : d.read path with
  | error e =>
    rw [hr] at h
    cases h
  | ok bytes =>
    rw [hr] at h
    show Text.ofUtf8? bytes = some text
    cases ht : Text.ofUtf8? bytes with
    | none =>
      simp only [ht] at h
      cases h
    | some text' =>
      simp only [ht] at h
      cases h
      rfl

end Disk

namespace Descriptor

theorem hasLine_iff {mark text : Text} :
    hasLine mark text = true ↔ ∃ line ∈ Text.lines text, mark <+: Text.trimStart line := by
  simp only [hasLine, List.any_eq_true, List.isPrefixOf_iff_prefix]

theorem isPresent_iff {value : Option Yaml} :
    isPresent value = true ↔ ∃ y ∈ value, y.isNull = false := by
  cases value <;> simp [isPresent]

/-- A document without a problem. -/
theorem problem?_eq_none_iff {text : Text} :
    problem? text = none ↔
      ∃ document ∈ Yaml.read? (withoutComments text), document.isMapping = true ∧
        (∃ name ∈ document.get? "name", name.isNull = false) ∧
        ∃ runs ∈ document.get? "runs", ∃ runner ∈ runs.get? "using", runner.isNull = false := by
  rw [problem?]
  cases Yaml.read? (withoutComments text) with
  | none => simp [valueProblem?]
  | some document =>
    have hrunner : isPresent ((document.get? "runs").bind (·.get? "using")) = true ↔
        ∃ runs ∈ document.get? "runs", ∃ runner ∈ runs.get? "using", runner.isNull = false := by
      rw [isPresent_iff]
      cases document.get? "runs" <;> simp
    have hiff : (∃ y ∈ some document, y.isMapping = true ∧
          (∃ name ∈ y.get? "name", name.isNull = false) ∧
          ∃ runs ∈ y.get? "runs", ∃ runner ∈ runs.get? "using", runner.isNull = false) ↔
        document.isMapping = true ∧ isPresent (document.get? "name") = true ∧
          isPresent ((document.get? "runs").bind (·.get? "using")) = true := by
      rw [hrunner, isPresent_iff]
      simp
    rw [hiff, valueProblem?]
    cases document.isMapping with
    | false => simp
    | true =>
      cases isPresent (document.get? "name") with
      | false => simp
      | true => cases isPresent ((document.get? "runs").bind (·.get? "using")) <;> simp

end Descriptor

namespace Check

variable (l : Layout) (m : Manifest) (d : Disk)

theorem mapped_eq {model : Text} {v : Verdict} (h : mapped l m model = .ok v) :
    v = .byRule (l.Mapped m model) (l.unmappedError model) := by
  rw [mapped] at h
  cases hr : l.relative model with
  | error e =>
    rw [hr] at h
    cases h
  | ok rel =>
    rw [hr] at h
    have hmapped : l.Mapped m model ↔ (m.artifactOf? rel).isSome = true := by
      simp [Layout.Mapped, hr, Except.toOption]
    have hshown : l.shown model = rel := by rw [Layout.shown, hr]; rfl
    simp only [Except.map, Except.ok.injEq] at h
    rw [← hshown] at h hmapped
    exact h.symm.trans (Verdict.ite_eq_byRule hmapped _)

theorem hasSyncFile_eq {dir : Text} {v : Verdict} (h : hasSyncFile l d dir = .ok v) :
    v = .byRule (Layout.Synced d dir) (l.unsyncedError dir) := by
  rw [hasSyncFile] at h
  split at h
  · next hfile =>
    exact Verdict.eq_byRule (fun _ => (Except.ok.inj h).symm) fun hb => absurd hfile hb
  · next hfile =>
    refine Verdict.eq_byRule (fun hk => absurd hk hfile) fun _ => ?_
    cases hr : l.relative dir with
    | error e =>
      rw [hr] at h
      cases h
    | ok rel =>
      rw [hr] at h
      have hshown : l.shown dir = rel := by rw [Layout.shown, hr]; rfl
      simp only [Except.map, Except.ok.injEq] at h
      rw [← hshown] at h
      exact h.symm

theorem attested_eq {artifact : Text} {v : Verdict} (h : attested l d artifact = .ok v) :
    v = .byRule (l.Attested d artifact) (l.unattestedError d artifact) := by
  rw [attested] at h
  rw [Layout.unattestedError]
  split at h
  · next hfile =>
    cases ht : descriptorText d (Path.join (l.resolve artifact) Bundle.descriptorName) with
    | error e =>
      rw [ht] at h
      cases h
    | ok text =>
      rw [ht] at h
      have hattested : l.Attested d artifact ↔ Descriptor.hasProvenance text = true := by
        rw [Descriptor.hasProvenance, Bool.and_eq_true, Descriptor.hasLine_iff,
          Descriptor.hasLine_iff, Layout.Attested, Disk.text?_of_descriptorText ht]
        simp
      rw [if_pos hfile, ← Verdict.ite_eq_byRule hattested]
      exact (Except.ok.inj h).symm
  · next hfile =>
    have hnone : ¬ l.Attested d artifact := by
      rw [Layout.Attested, Disk.text?_of_not_isFile hfile]
      simp
    rw [if_neg hfile]
    refine Verdict.eq_byRule (fun hk => absurd hk hnone) fun _ => ?_
    exact (Except.ok.inj h).symm

theorem wellFormed_eq {dir : Text} {v : Verdict} (h : wellFormed l d dir = .ok v) :
    v = .byRule (Layout.WellFormed d dir) (l.illFormedError d dir) := by
  rw [wellFormed] at h
  cases hr : l.relative dir with
  | error e =>
    rw [hr] at h
    cases h
  | ok rel =>
    rw [hr] at h
    have hshown : l.shown dir = rel := by rw [Layout.shown, hr]; rfl
    change (if _ then _ else _) = _ at h
    rw [Layout.illFormedError, hshown]
    split at h
    · next hfile =>
      cases ht : descriptorText d (Path.join dir Bundle.descriptorName) with
      | error e =>
        rw [ht] at h
        cases h
      | ok text =>
        rw [ht] at h
        have htext := Disk.text?_of_descriptorText ht
        have hwell : Layout.WellFormed d dir ↔ Descriptor.problem? text = none := by
          rw [Descriptor.problem?_eq_none_iff, Layout.WellFormed, htext]
          simp
        rw [htext, Option.bind_some]
        change (match Descriptor.problem? text with
          | none => _
          | some problem => _) = _ at h
        cases hp : Descriptor.problem? text with
        | none =>
          rw [hp] at h
          refine Verdict.eq_byRule (fun _ => (Except.ok.inj h).symm) fun hb => ?_
          exact absurd (hwell.2 hp) hb
        | some problem =>
          rw [hp] at h
          refine Verdict.eq_byRule (fun hk => ?_) fun _ => (Except.ok.inj h).symm
          rw [hwell.1 hk] at hp
          cases hp
    · next hfile =>
      have hnone := Disk.text?_of_not_isFile hfile
      have hill : ¬ Layout.WellFormed d dir := by
        rw [Layout.WellFormed, hnone]
        simp
      rw [hnone, Option.bind_none]
      refine Verdict.eq_byRule (fun hk => absurd hk hill) fun _ => (Except.ok.inj h).symm

theorem unchanged_eq {source artifact : Text} {v : Verdict}
    (h : unchanged l d source artifact = .ok v) : v = l.sourceVerdict d source artifact := by
  rw [unchanged] at h
  rw [Layout.sourceVerdict]
  split at h
  · next hfile =>
    have hpresent : l.Present d source := hfile
    rw [if_pos hpresent, Layout.skippedWarning?]
    cases hload : SyncRecord.load? d (l.resolve artifact) with
    | error e =>
      have hdrift : ¬ l.Drifted d source artifact := by
        simp [Layout.Drifted, Layout.syncRecord?, hload]
      rw [hload] at h
      rw [if_neg hdrift]
      exact (Except.ok.inj h).symm
    | ok record =>
      cases record with
      | none =>
        have hdrift : ¬ l.Drifted d source artifact := by
          simp [Layout.Drifted, Layout.syncRecord?, hload]
        rw [hload] at h
        rw [if_neg hdrift]
        exact (Except.ok.inj h).symm
      | some record =>
        obtain ⟨bytes, hread⟩ := Disk.isFile_iff.1 hfile
        have hdrift : l.Drifted d source artifact ↔ Sha256.checksum bytes ≠ record.checksum := by
          simp [Layout.Drifted, Layout.syncRecord?, hload, hread, Except.toOption]
        simp only [hload, hread] at h
        split at h
        · next heq =>
          rw [if_neg fun hd => hdrift.1 hd heq]
          exact (Except.ok.inj h).symm
        · next hne =>
          rw [if_pos (hdrift.2 hne)]
          exact (Except.ok.inj h).symm
  · next hfile =>
    have hpresent : ¬ l.Present d source := hfile
    rw [if_neg hpresent]
    exact (Except.ok.inj h).symm

theorem accounted_eq (artifact : Text) (record : GeneratedRecord) :
    accounted m artifact record =
      if Layout.Accounted m artifact record then .fine
      else .noted (Layout.unaccountedWarning artifact record) := rfl

end Check

/-! ### Lists of verdicts -/

namespace Verdict

variable {α : Type} {as : List α}

/-- Whether none of the verdicts is a failure. -/
def Passes (vs : List Verdict) : Prop := vs.any (·.isFailure) = false

theorem passes_append {vs ws : List Verdict} : Passes (vs ++ ws) ↔ Passes vs ∧ Passes ws := by
  rw [Passes, List.any_append, Bool.or_eq_false_iff]
  rfl

theorem passes_map_iff {f : α → Verdict} :
    Passes (as.map f) ↔ ∀ a ∈ as, (f a).isFailure = false := by
  simp [Passes]

section Rules

variable (kept : α → Prop) [DecidablePred kept] (error : α → Text)

theorem passes_byRule :
    Passes (as.map fun a => byRule (kept a) (error a)) ↔ ∀ a ∈ as, kept a := by
  rw [passes_map_iff]
  refine forall₂_congr fun a _ => ?_
  rw [byRule]
  split
  · next h => simp [isFailure, h]
  · next h => simp [isFailure, h]

/-- By a rule, each item that breaks it gives one error, in the order of the items. -/
theorem errors_byRule : (as.map fun a => byRule (kept a) (error a)).filterMap error? =
    (as.filter fun a => ¬ kept a).map error := by
  induction as with
  | nil => rfl
  | cons a as ih =>
    rw [List.map_cons, List.filterMap_cons, List.filter_cons, ih, byRule]
    by_cases h : kept a
    · simp [h, error?]
    · simp [h, error?]

theorem warnings_byRule :
    (as.map fun a => byRule (kept a) (error a)).filterMap warning? = [] := by
  rw [List.filterMap_map, List.filterMap_eq_nil_iff]
  intro a _
  show (byRule (kept a) (error a)).warning? = none
  rw [byRule]
  split <;> rfl

end Rules

end Verdict

namespace Layout

variable (l : Layout) (m : Manifest) (d : Disk)

variable (entries : List (Text × Text))

theorem passes_sources :
    Verdict.Passes (entries.map fun e => l.sourceVerdict d e.1 e.2) ↔
      ∀ e ∈ entries, l.Present d e.1 ∧ ¬ l.Drifted d e.1 e.2 := by
  rw [Verdict.passes_map_iff]
  refine forall₂_congr fun e _ => ?_
  rw [sourceVerdict]
  split
  · next hp =>
    split
    · next hd => simp [Verdict.isFailure, hd]
    · next hd => cases l.skippedWarning? d e.2 <;> simp [Verdict.isFailure, hp, hd]
  · next hp => simp [Verdict.isFailure, hp]

theorem errors_sources :
    (entries.map fun e => l.sourceVerdict d e.1 e.2).filterMap (·.error?) =
      (entries.filter fun e => ¬ l.Present d e.1).map fun e => missingError e.1 := by
  induction entries with
  | nil => rfl
  | cons e entries ih =>
    rw [List.map_cons, List.filterMap_cons, List.filter_cons, ih, sourceVerdict]
    by_cases hp : l.Present d e.1
    · by_cases hd : l.Drifted d e.1 e.2
      · simp [hp, hd, Verdict.error?]
      · cases l.skippedWarning? d e.2 <;> simp [hp, hd, Verdict.error?]
    · simp [hp, Verdict.error?]

theorem warnings_sources :
    (entries.map fun e => l.sourceVerdict d e.1 e.2).filterMap (·.warning?) =
      entries.filterMap fun e => l.sourceWarning? d e.1 e.2 := by
  rw [List.filterMap_map]
  refine List.filterMap_congr fun e _ => ?_
  show (l.sourceVerdict d e.1 e.2).warning? = _
  rw [sourceVerdict, sourceWarning?]
  split
  · split
    · rfl
    · cases l.skippedWarning? d e.2 <;> rfl
  · rfl

end Layout

/-! ### Whole checks -/

namespace Check

variable {l : Layout} {m : Manifest} {d : Disk} {vs : List Verdict}

theorem verdicts_coverage (h : coverage.verdicts l m d = .ok vs) :
    ∃ models, l.discover d = .ok models ∧
      vs = models.map fun model => .byRule (l.Mapped m model) (l.unmappedError model) := by
  rw [verdicts] at h
  cases hmodels : l.discover d with
  | error e =>
    rw [hmodels] at h
    cases h
  | ok models =>
    rw [hmodels] at h
    exact ⟨models, rfl, eq_map_of_mapM (fun _ _ _ hv => mapped_eq l m hv) h⟩

theorem verdicts_syncFiles (h : syncFiles.verdicts l m d = .ok vs) :
    vs = (bundleDirs l d).map fun dir => .byRule (Layout.Synced d dir) (l.unsyncedError dir) :=
  eq_map_of_mapM (fun _ _ _ hv => hasSyncFile_eq l d hv) h

theorem verdicts_checksums (h : checksums.verdicts l m d = .ok vs) :
    vs = m.mappings.toList.map fun e => l.sourceVerdict d e.1 e.2 :=
  eq_map_of_mapM (fun _ _ _ hv => unchanged_eq l d hv) h

theorem verdicts_manualEdits (h : manualEdits.verdicts l m d = .ok vs) :
    vs = m.mappings.values.map fun artifact =>
      .byRule (l.Attested d artifact) (l.unattestedError d artifact) :=
  eq_map_of_mapM (fun _ _ _ hv => attested_eq l d hv) h

theorem verdicts_manifestIntegrity (h : manifestIntegrity.verdicts l m d = .ok vs) :
    vs = (m.mappings.toList.map fun e =>
        .byRule (Layout.Recorded m e.2) (Layout.unrecordedError e.1 e.2)) ++
      m.generated.toList.map fun e => accounted m e.1 e.2 :=
  (Except.ok.inj h).symm

theorem verdicts_schemaCompatibility (h : schemaCompatibility.verdicts l m d = .ok vs) :
    vs = (bundleDirs l d).map fun dir =>
      .byRule (Layout.WellFormed d dir) (l.illFormedError d dir) :=
  eq_map_of_mapM (fun _ _ _ hv => wellFormed_eq l d hv) h

/-- The records of the manifest pass, and give a warning each if nothing accounts for them. -/
theorem accounted_records (m : Manifest) :
    let vs := m.generated.toList.map fun e => accounted m e.1 e.2
    Verdict.Passes vs ∧ vs.filterMap (·.error?) = [] ∧
      vs.filterMap (·.warning?) =
        (m.generated.toList.filter fun e => ¬ Layout.Accounted m e.1 e.2).map
          fun e => Layout.unaccountedWarning e.1 e.2 := by
  intro vs
  refine ⟨Verdict.passes_map_iff.2 fun e _ => ?_, ?_, ?_⟩
  · rw [accounted_eq]
    split <;> rfl
  · rw [List.filterMap_map, List.filterMap_eq_nil_iff]
    intro e _
    show (accounted m e.1 e.2).error? = none
    rw [accounted_eq]
    split <;> rfl
  · show (m.generated.toList.map fun e => accounted m e.1 e.2).filterMap (·.warning?) = _
    induction m.generated.toList with
    | nil => rfl
    | cons e es ih =>
      rw [List.map_cons, List.filterMap_cons, List.filter_cons, ih, accounted_eq]
      by_cases h : Layout.Accounted m e.1 e.2
      · simp [h, Verdict.warning?]
      · simp [h, Verdict.warning?]

end Check

/-! ### The report -/

/-- What a report is after further checks. -/
theorem Report.extend_eq_ok {l : Layout} {m : Manifest} {d : Disk} {r r' : Report}
    {checks : List Check} (h : r.extend l m d checks = .ok r') :
    ∃ vss, List.Forall₂ (fun check vs => check.verdicts l m d = .ok vs) checks vss ∧
      (r'.valid = true ↔ r.valid = true ∧ ∀ vs ∈ vss, Verdict.Passes vs) ∧
      r'.errors = r.errors ++ vss.flatMap (·.filterMap (·.error?)) ∧
      r'.warnings = r.warnings ++ vss.flatMap (·.filterMap (·.warning?)) := by
  induction checks generalizing r with
  | nil =>
    cases h
    exact ⟨[], .nil, by simp⟩
  | cons check checks ih =>
    rw [extend] at h
    cases hvs : check.verdicts l m d with
    | error e =>
      rw [hvs] at h
      cases h
    | ok vs =>
      rw [hvs] at h
      obtain ⟨vss, hall, hvalid, herrors, hwarnings⟩ := ih h
      refine ⟨vs :: vss, .cons hvs hall, ?_, ?_, ?_⟩
      · rw [hvalid, Check.addTo, record]
        simp [Verdict.Passes, and_assoc]
      · rw [herrors, List.flatMap_cons, ← List.append_assoc]
        rfl
      · rw [hwarnings, List.flatMap_cons, ← List.append_assoc]
        rfl

namespace Layout

variable {l : Layout} {m : Manifest} {d : Disk} {r : Report}

theorem forall_mappings_iff {p : Text → Text → Prop} :
    (∀ e ∈ m.mappings.toList, p e.1 e.2) ↔
      ∀ source artifact, m.artifactOf? source = some artifact → p source artifact :=
  ⟨fun h source artifact hs => h (source, artifact) (Dict.mem_toList_iff.2 hs),
    fun h e he => h e.1 e.2 (Dict.mem_toList_iff.1 he)⟩

theorem forall_bundleDirs_iff {p : Text → Prop} :
    (∀ dir ∈ Check.bundleDirs l d, p dir) ↔
      ∀ domain ∈ d.subdirectories l.actionsDir, ∀ dir ∈ d.subdirectories domain, p dir := by
  simp only [Check.bundleDirs, List.mem_flatMap]
  exact ⟨fun h domain hdomain dir hdir => h dir ⟨domain, hdomain, hdir⟩,
    fun h dir ⟨domain, hdomain, hdir⟩ => h domain hdomain dir hdir⟩

/-- The rules, item by item as the checks go through them. -/
theorem consistent_iff {models : List Text} :
    l.Consistent m d models ↔
      (∀ model ∈ models, l.Mapped m model) ∧ (∀ dir ∈ Check.bundleDirs l d, Synced d dir) ∧
      (∀ e ∈ m.mappings.toList, l.Present d e.1 ∧ ¬ l.Drifted d e.1 e.2) ∧
      (∀ artifact ∈ m.mappings.values, l.Attested d artifact) ∧
      (∀ e ∈ m.mappings.toList, Recorded m e.2) ∧
      ∀ dir ∈ Check.bundleDirs l d, WellFormed d dir := by
  have hvalues : (∀ artifact ∈ m.mappings.values, l.Attested d artifact) ↔
      ∀ source artifact, m.artifactOf? source = some artifact → l.Attested d artifact :=
    List.forall_mem_map.trans (forall_mappings_iff (p := fun _ artifact => l.Attested d artifact))
  have hsources := forall_mappings_iff (m := m) (p := fun source artifact =>
    l.Present d source ∧ ¬ l.Drifted d source artifact)
  have hrecorded := forall_mappings_iff (m := m) (p := fun _ artifact => Recorded m artifact)
  rw [hvalues, hsources, hrecorded, forall_bundleDirs_iff, forall_bundleDirs_iff]
  exact ⟨fun h => ⟨h.1, h.2, h.3, h.4, h.5, h.6⟩,
    fun ⟨h₁, h₂, h₃, h₄, h₅, h₆⟩ => ⟨h₁, h₂, h₃, h₄, h₅, h₆⟩⟩

/-- The verdicts on all items, one list for each check. -/
def verdicts (l : Layout) (m : Manifest) (d : Disk) (models : List Text) : List (List Verdict) :=
  [models.map fun model => .byRule (l.Mapped m model) (l.unmappedError model),
    (Check.bundleDirs l d).map fun dir => .byRule (Synced d dir) (l.unsyncedError dir),
    m.mappings.toList.map fun e => l.sourceVerdict d e.1 e.2,
    m.mappings.values.map fun artifact =>
      .byRule (l.Attested d artifact) (l.unattestedError d artifact),
    (m.mappings.toList.map fun e => .byRule (Recorded m e.2) (unrecordedError e.1 e.2)) ++
      m.generated.toList.map fun e => Check.accounted m e.1 e.2,
    (Check.bundleDirs l d).map fun dir => .byRule (WellFormed d dir) (l.illFormedError d dir)]

/-- No verdict is a failure if and only if every item keeps the rules about it. -/
theorem passes_verdicts_iff {models : List Text} :
    (∀ vs ∈ l.verdicts m d models, Verdict.Passes vs) ↔ l.Consistent m d models := by
  obtain ⟨hpasses, -, -⟩ := Check.accounted_records m
  rw [consistent_iff, verdicts]
  simp only [List.forall_mem_cons, Verdict.passes_append, Verdict.passes_byRule, passes_sources,
    hpasses, and_true]
  simp

/-- The warnings are about drifted sources, unreadable sync records and unaccounted records. -/
theorem warnings_verdicts (models : List Text) :
    (l.verdicts m d models).flatMap (·.filterMap (·.warning?)) =
      (m.mappings.toList.filterMap fun e => l.sourceWarning? d e.1 e.2) ++
      (m.generated.toList.filter fun e => ¬ Accounted m e.1 e.2).map
        fun e => unaccountedWarning e.1 e.2 := by
  obtain ⟨-, -, hunaccounted⟩ := Check.accounted_records m
  rw [verdicts]
  simp only [List.flatMap_cons, List.flatMap_nil, List.filterMap_append, Verdict.warnings_byRule,
    warnings_sources, hunaccounted, List.nil_append, List.append_nil]

/-- A report is what the verdicts on all items say. -/
theorem validate_eq_ok (h : l.validate m d = .ok r) :
    ∃ models, l.discover d = .ok models ∧
      (r.valid = true ↔ ∀ vs ∈ l.verdicts m d models, Verdict.Passes vs) ∧
      r.errors = (l.verdicts m d models).flatMap (·.filterMap (·.error?)) ∧
      r.warnings = (l.verdicts m d models).flatMap (·.filterMap (·.warning?)) := by
  obtain ⟨vss, hall, hvalid, herrors, hwarnings⟩ := Report.extend_eq_ok h
  rcases hall with _ | ⟨hcoverage, hall⟩
  rcases hall with _ | ⟨hsyncFiles, hall⟩
  rcases hall with _ | ⟨hchecksums, hall⟩
  rcases hall with _ | ⟨hmanualEdits, hall⟩
  rcases hall with _ | ⟨hintegrity, hall⟩
  rcases hall with _ | ⟨hschema, hall⟩
  rcases hall with _ | _
  obtain ⟨models, hmodels, rfl⟩ := Check.verdicts_coverage hcoverage
  obtain rfl := Check.verdicts_syncFiles hsyncFiles
  obtain rfl := Check.verdicts_checksums hchecksums
  obtain rfl := Check.verdicts_manualEdits hmanualEdits
  obtain rfl := Check.verdicts_manifestIntegrity hintegrity
  obtain rfl := Check.verdicts_schemaCompatibility hschema
  refine ⟨models, hmodels, hvalid.trans ?_, herrors.trans (List.nil_append _),
    hwarnings.trans (List.nil_append _)⟩
  exact and_iff_right rfl

/-- **The verdict of a validation is exact**: the report is valid if and only if every item keeps
the rules about it, and it has one error for each item that breaks a rule, in the order of the
checks and of the items. Models and bundles are in the order of their steps, mappings and records
in the order of their keys. A source that drifted has no error but one warning. -/
theorem validate_exact (h : l.validate m d = .ok r) :
    ∃ models, l.discover d = .ok models ∧ models.Pairwise Path.Precedes ∧
      (Check.bundleDirs l d).Pairwise Path.Precedes ∧
      (r.valid = true ↔ l.Consistent m d models) ∧
      r.errors =
        (models.filter fun model => ¬ l.Mapped m model).map l.unmappedError ++
        ((Check.bundleDirs l d).filter fun dir => ¬ Synced d dir).map l.unsyncedError ++
        (m.mappings.toList.filter fun e => ¬ l.Present d e.1).map (fun e => missingError e.1) ++
        (m.mappings.values.filter fun artifact => ¬ l.Attested d artifact).map
          (l.unattestedError d) ++
        (m.mappings.toList.filter fun e => ¬ Recorded m e.2).map
          (fun e => unrecordedError e.1 e.2) ++
        ((Check.bundleDirs l d).filter fun dir => ¬ WellFormed d dir).map (l.illFormedError d) ∧
      r.warnings =
        (m.mappings.toList.filterMap fun e => l.sourceWarning? d e.1 e.2) ++
        (m.generated.toList.filter fun e => ¬ Accounted m e.1 e.2).map
          fun e => unaccountedWarning e.1 e.2 := by
  obtain ⟨models, hmodels, hvalid, herrors, hwarnings⟩ := validate_eq_ok h
  refine ⟨models, hmodels, l.pairwise_discover d hmodels, Check.pairwise_bundleDirs l d,
    hvalid.trans passes_verdicts_iff, ?_, hwarnings.trans (warnings_verdicts models)⟩
  obtain ⟨-, hnoErrors, -⟩ := Check.accounted_records m
  rw [herrors, verdicts]
  simp only [List.flatMap_cons, List.flatMap_nil, List.filterMap_append, Verdict.errors_byRule,
    errors_sources, hnoErrors, List.append_nil, List.append_assoc]

end Layout

/-! ### A project in disorder -/

/-- The tree that some entries make up, each of which has its directory before it. -/
def Tree.ofEntries (entries : List (Text × Address × Node)) : Tree :=
  entries.foldl (fun t entry => t.set entry.1 entry.2.1 entry.2.2) .empty

/-- Without links among the entries there are none in the tree. -/
theorem Tree.noLinks_ofEntries {entries : List (Text × Address × Node)}
    (h : ∀ entry ∈ entries, ∀ target, entry.2.2 ≠ .link target) (b : Address) (target : Text) :
    (ofEntries entries).get? b ≠ some (.link target) :=
  List.foldlRecOn (motive := fun t : Tree => ∀ b target, t.get? b ≠ some (.link target)) entries _
    noLinks_empty (fun _ ht entry hentry => noLinks_set ht (h entry hentry)) b target

/-- A disk with the project `/p`: a model that is not mapped, a model that was changed since its
bundle was generated, and a bundle without any file. -/
def sampleDisorder : Disk where
  tree := .ofEntries
    [("p", [], .directory), ("axioms", ["p"], .directory),
      ("m.fcm", ["axioms", "p"], .file [0x78] false), ("n.fcm", ["axioms", "p"], .file [] false),
      ("actions", ["p"], .directory), ("d", ["actions", "p"], .directory),
      ("s", ["d", "actions", "p"], .directory), ("t", ["d", "actions", "p"], .directory),
      (".bridge-sync", ["s", "d", "actions", "p"],
        .file (Text.utf8 (SyncRecord.toJson ⟨"axioms/m.fcm", "", "1", ""⟩).pretty) false)]

/-- The layout of this project. -/
def sampleLayout : Layout := .ofConfig "/p" {}

/-- Its manifest. -/
def sampleManifest : Manifest :=
  Manifest.upsert {} "axioms/m.fcm" "actions/d/s" ⟨"axioms/m.fcm", "", "1"⟩

theorem validate_exact_sampleDisorder :
    ∃ r models, sampleLayout.validate sampleManifest sampleDisorder = .ok r ∧
      sampleLayout.discover sampleDisorder = .ok models ∧
      ¬ sampleLayout.Consistent sampleManifest sampleDisorder models ∧
      r.errors = ["coverage: axioms/n.fcm has no manifest mapping".toList,
        "sync_files: actions/d/t has no .bridge-sync".toList,
        "manual_edits: actions/d/s/action.yml is missing; provenance cannot be attested".toList,
        "schema_compatibility: actions/d/s has no action.yml".toList,
        "schema_compatibility: actions/d/t has no action.yml".toList] ∧
      r.warnings = ["checksums: drift detected for axioms/m.fcm; ".toList ++
        "actions/d/s was generated from different content".toList] := by
  have hreport : (sampleLayout.validate sampleManifest sampleDisorder).toOption.any (fun r =>
      r.valid = false ∧ r.errors = ["coverage: axioms/n.fcm has no manifest mapping".toList,
        "sync_files: actions/d/t has no .bridge-sync".toList,
        "manual_edits: actions/d/s/action.yml is missing; provenance cannot be attested".toList,
        "schema_compatibility: actions/d/s has no action.yml".toList,
        "schema_compatibility: actions/d/t has no action.yml".toList] ∧
      r.warnings = ["checksums: drift detected for axioms/m.fcm; ".toList ++
        "actions/d/s was generated from different content".toList]) = true := by
    decide +kernel
  cases hvalidate : sampleLayout.validate sampleManifest sampleDisorder with
  | error e =>
    rw [hvalidate] at hreport
    cases hreport
  | ok r =>
    rw [hvalidate] at hreport
    obtain ⟨hinvalid, herrors, hwarnings⟩ := of_decide_eq_true hreport
    obtain ⟨models, hmodels, -, -, hvalid, -⟩ := Layout.validate_exact hvalidate
    refine ⟨r, models, rfl, hmodels, fun hconsistent => ?_, herrors, hwarnings⟩
    rw [hvalid.2 hconsistent] at hinvalid
    cases hinvalid

end ActionBundles
