import ActionBundles.Proofs.BundleDepth
import ActionBundles.Proofs.Verdicts

/-!
# Projects that get a report

A report is what all checks found, one after another, and there is none as soon as one of them
fails to judge an item. Models and sync records are never in the way, whatever bytes they hold, and
neither is a path, since a configuration keeps everything that is looked at below the root. What is
left are descriptors: a project gets its report exactly if the models can be listed and every
descriptor that is read holds text (`Layout.validate_reports_iff`).
-/

namespace ActionBundles

/-! ### Reports as a whole -/

namespace Report

variable {l : Layout} {m : Manifest} {d : Disk} {r r' : Report} {checks : List Check}

/-- The report with what several checks found. -/
def collect (m : Manifest) (r : Report) (found : List (Check × List Verdict)) : Report :=
  found.foldl (fun r e => e.1.addTo m e.2 r) r

/-- A report says what each of its checks found, and nothing else. -/
theorem extend_eq_ok_iff : r.extend l m d checks = .ok r' ↔
    ∃ vss, checks.mapM (fun check => check.verdicts l m d) = .ok vss ∧
      r' = r.collect m (checks.zip vss) := by
  induction checks generalizing r with
  | nil =>
    refine ⟨fun h => ⟨[], rfl, (Except.ok.inj h).symm⟩, ?_⟩
    rintro ⟨vss, hvss, rfl⟩
    cases hvss
    rfl
  | cons check checks ih =>
    rw [extend, List.mapM_cons]
    cases check.verdicts l m d with
    | error e => simp [bind, Except.bind]
    | ok vs =>
      simp only [ih, bind, Except.bind]
      cases checks.mapM fun check => check.verdicts l m d with
      | error e => simp
      | ok vss => simp [pure, Except.pure, collect]

/-- There is a report exactly if each check can judge all of its items. -/
theorem exists_extend_iff : (∃ r', r.extend l m d checks = .ok r') ↔
    ∀ check ∈ checks, ∃ vs, check.verdicts l m d = .ok vs := by
  rw [← exists_mapM_iff]
  constructor
  · rintro ⟨r', h⟩
    obtain ⟨vss, hvss, -⟩ := extend_eq_ok_iff.1 h
    exact ⟨vss, hvss⟩
  · rintro ⟨vss, hvss⟩
    exact ⟨_, extend_eq_ok_iff.2 ⟨vss, hvss, rfl⟩⟩

/-- A report has one result for each check, in order. -/
theorem names_extend (h : r.extend l m d checks = .ok r') :
    r'.checks.map (·.name) = r.checks.map (·.name) ++ checks.map Check.name := by
  induction checks generalizing r with
  | nil =>
    cases h
    exact (List.append_nil _).symm
  | cons check checks ih =>
    rw [extend] at h
    split at h
    · cases h
    · rw [ih h, Check.addTo, record, List.map_append, List.append_assoc]
      rfl

end Report

/-! ### Paths below the root -/

namespace Path

variable {base path rel n : Text}

/-- A path goes on from another one with names. -/
def GoesOn (base path : Text) : Prop :=
  ∃ rest, components path = components base ++ rest ∧ ∀ c ∈ rest, ∃ n, c = .name n

theorem GoesOn.join (h : GoesOn base path) (hpath : path ≠ []) (hn : isStep n = true) :
    GoesOn base (join path n) := by
  obtain ⟨rest, hrest, hnames⟩ := h
  refine ⟨rest ++ [.name n], ?_, fun c hc => ?_⟩
  · rw [components_join hpath hn, hrest, List.append_assoc]
  · rcases List.mem_append.1 hc with hc | hc
    · exact hnames c hc
    · exact ⟨n, List.mem_singleton.1 hc⟩

/-- A directory of a project goes on from its root. -/
theorem goesOn_join (hbase : base ≠ []) (h : Config.isInside rel = true) :
    GoesOn base (Path.join base rel) := by
  obtain ⟨-, habs, hup⟩ := Config.isInside_iff.1 h
  refine ⟨_, components_join_relative hbase habs, fun c hc => ?_⟩
  have hmem : c ∈ components rel := by
    rw [components, habs, if_neg Bool.false_ne_true]
    split
    · exact List.mem_cons_of_mem _ hc
    · exact hc
  obtain ⟨piece, -, hpiece⟩ := List.mem_filterMap.1 hc
  rw [ofPiece?] at hpiece
  split at hpiece
  · cases hpiece
  split at hpiece
  · cases hpiece
  split at hpiece
  · cases hpiece
    exact absurd hmem hup
  · exact ⟨piece, (Option.some.inj hpiece).symm⟩

end Path

/-- What is found below a directory goes on from where the directory goes on from. -/
theorem Disk.goesOn_of_mem_filesWithin {d : Disk} {depth : Nat} {base dir path : Text}
    (hbase : Path.GoesOn base dir) (hdir : dir ≠ []) (h : path ∈ d.filesWithin depth dir) :
    Path.GoesOn base path := by
  induction depth generalizing dir with
  | zero => cases h
  | succ depth ih =>
    obtain ⟨n, hn, h⟩ := List.mem_flatMap.1 h
    have hstep : Path.isStep n = true := isStep_of_mem_namesAt (show n ∈ d.namesAt dir from hn)
    have hjoin := hbase.join hdir hstep
    simp only at h
    split at h
    · exact ih hjoin (Path.join_ne_nil hstep dir) h
    · split at h
      · exact List.mem_singleton.1 h ▸ hjoin
      · cases h

/-- The directory of the models too is one of the project. -/
theorem Config.isInside_models_of_check {c : Config} (h : c.check = .ok ()) :
    isInside c.modelsDir = true := by
  obtain ⟨_, hdir, -⟩ := exists_of_bind_eq_ok h
  by_contra hnot
  rw [checkDirectory, if_neg hnot] at hdir
  cases hdir

namespace Layout

variable {l : Layout} {m : Manifest} {d : Disk} {path : Text}

/-- What goes on from the root has a path from there. -/
theorem exists_relative (h : Path.GoesOn l.root path) : ∃ rel, l.relative path = .ok rel := by
  obtain ⟨rest, hrest, hnames⟩ := h
  obtain ⟨names, rfl⟩ := exists_eq_map_name hnames
  exact ⟨_, relative_of_components hrest⟩

theorem resolve_ne_nil {rel : Text} (hroot : l.root ≠ []) : l.resolve rel ≠ [] := by
  rw [resolve, Path.join]
  split
  · next habs =>
    rintro rfl
    cases habs
  split
  · exact List.append_ne_nil_of_left_ne_nil hroot _
  · exact List.append_ne_nil_of_left_ne_nil hroot _

/-- A model that is found has a path from the root. -/
theorem exists_relative_of_mem_discover (hroot : l.root ≠ []) (hmodels : Config.isInside l.models = true)
    {models : List Text} (h : l.discover d = .ok models) :
    ∀ model ∈ models, ∃ rel, l.relative model = .ok rel := by
  intro model hmodel
  obtain ⟨depth, hsublist⟩ := l.sublist_of_discover d h
  exact exists_relative (Disk.goesOn_of_mem_filesWithin (Path.goesOn_join hroot hmodels)
    (resolve_ne_nil hroot) (hsublist.subset hmodel))

/-- So has the directory of a bundle. -/
theorem exists_relative_of_mem_bundleDirs (hroot : l.root ≠ [])
    (hactions : Config.isInside l.actions = true) :
    ∀ dir ∈ Check.bundleDirs l d, ∃ rel, l.relative dir = .ok rel := by
  intro dir hdir
  obtain ⟨above, habove, hdir⟩ := List.mem_flatMap.1 hdir
  obtain ⟨n, rfl, hn⟩ := Disk.mem_subdirectories habove
  obtain ⟨k, rfl, hk⟩ := Disk.mem_subdirectories hdir
  have hdomain := (Path.goesOn_join hroot hactions).join (resolve_ne_nil hroot) hn
  exact exists_relative (hdomain.join (Path.join_ne_nil hn _) hk)

end Layout

/-! ### Items that can be judged -/

/-- If a file is at a path, it holds text. -/
def Disk.Legible (d : Disk) (path : Text) : Prop :=
  ∀ bytes, d.read path = .ok bytes → ∃ text, Text.ofUtf8? bytes = some text

namespace Check

variable {l : Layout} {m : Manifest} {d : Disk} {dir source artifact path : Text}

theorem exists_descriptorText_iff (h : d.isFile path = true) :
    (∃ text, descriptorText d path = .ok text) ↔ d.Legible path := by
  obtain ⟨bytes, hread⟩ := Disk.isFile_iff.1 h
  rw [descriptorText, Disk.Legible, hread]
  cases hutf8 : Text.ofUtf8? bytes with
  | none => simp [hutf8]
  | some text => simp [hutf8]

theorem legible_of_not_isFile (h : ¬ d.isFile path = true) : d.Legible path :=
  fun bytes hread => absurd (Disk.isFile_iff.2 ⟨bytes, hread⟩) h

theorem exists_mapped (h : ∃ rel, l.relative path = .ok rel) : ∃ v, mapped l m path = .ok v := by
  obtain ⟨rel, hrel⟩ := h
  exact ⟨_, by rw [mapped, hrel]; rfl⟩

theorem exists_hasSyncFile (h : ∃ rel, l.relative dir = .ok rel) :
    ∃ v, hasSyncFile l d dir = .ok v := by
  obtain ⟨rel, hrel⟩ := h
  rw [hasSyncFile, hrel]
  split
  · exact ⟨_, rfl⟩
  · exact ⟨_, rfl⟩

/-- Whatever a model and a sync record hold, there is a verdict on them. -/
theorem exists_unchanged (source artifact : Text) : ∃ v, unchanged l d source artifact = .ok v := by
  rw [unchanged]
  split
  · next hfile =>
    obtain ⟨bytes, hread⟩ := Disk.isFile_iff.1 hfile
    split
    · exact ⟨_, rfl⟩
    · exact ⟨_, rfl⟩
    · rw [hread]
      dsimp only
      split
      · exact ⟨_, rfl⟩
      · exact ⟨_, rfl⟩
  · exact ⟨_, rfl⟩

theorem exists_attested_iff : (∃ v, attested l d artifact = .ok v) ↔
    d.Legible (Path.join (l.resolve artifact) Bundle.descriptorName) := by
  rw [attested]
  split
  · next hfile => exact exists_map_iff.trans (exists_descriptorText_iff hfile)
  · next hfile => exact iff_of_true ⟨_, rfl⟩ (legible_of_not_isFile hfile)

theorem exists_wellFormed_iff (h : ∃ rel, l.relative dir = .ok rel) :
    (∃ v, wellFormed l d dir = .ok v) ↔ d.Legible (Path.join dir Bundle.descriptorName) := by
  obtain ⟨rel, hrel⟩ := h
  rw [wellFormed, hrel]
  simp only [bind, Except.bind]
  split
  · next hfile =>
    rw [← exists_descriptorText_iff hfile]
    cases descriptorText d (Path.join dir Bundle.descriptorName) with
    | error e => simp
    | ok text =>
      dsimp only
      cases Descriptor.problem? text <;> simp [pure, Except.pure]
  · next hfile => exact iff_of_true ⟨_, rfl⟩ (legible_of_not_isFile hfile)

end Check

/-- The models are found if their directory is missing or can be listed. -/
theorem Layout.exists_discover_iff {l : Layout} {d : Disk} : (∃ models, l.discover d = .ok models) ↔
    (d.isThere l.modelsDir = true → ∃ names, d.names l.modelsDir = .ok names) := by
  rw [discover, Disk.filesBelow]
  by_cases hthere : d.isThere l.modelsDir = true
  · rw [if_pos hthere]
    cases d.names l.modelsDir <;> simp [hthere, Except.map]
  · rw [if_neg hthere]
    simp [hthere]

/-- **What stands in the way of a report.** Under a configuration that passes its check there is a
report, with a result for each of the checks, exactly if the directory of the models can be listed,
unless it is missing, and all descriptors hold text, those of mapped models and those that are
found. -/
theorem Layout.validate_reports_iff {root : Text} (hroot : root ≠ []) {c : Config}
    (hc : c.check = .ok ()) (m : Manifest) (d : Disk) :
    let l := Layout.ofConfig root c
    (∃ r, l.validate m d = .ok r ∧ r.checks.map (·.name) = Check.all.map Check.name) ↔
      (d.isThere l.modelsDir = true → ∃ names, d.names l.modelsDir = .ok names) ∧
      (∀ source artifact, m.artifactOf? source = some artifact →
        d.Legible (Path.join (l.resolve artifact) Bundle.descriptorName)) ∧
      ∀ dir ∈ Check.bundleDirs l d, d.Legible (Path.join dir Bundle.descriptorName) := by
  intro l
  have hmodels {models : List Text} (hfound : l.discover d = .ok models) :
      ∀ model ∈ models, ∃ rel, l.relative model = .ok rel :=
    exists_relative_of_mem_discover hroot (Config.isInside_models_of_check hc) hfound
  have hdirs := exists_relative_of_mem_bundleDirs (l := l) (d := d) hroot
    (Config.isInside_of_check hc).1
  have hreport : (∃ r, l.validate m d = .ok r ∧ r.checks.map (·.name) = Check.all.map Check.name) ↔
      ∀ check ∈ Check.all, ∃ vs, check.verdicts l m d = .ok vs := by
    rw [← Report.exists_extend_iff (r := {})]
    exact exists_congr fun r => and_iff_left_of_imp Report.names_extend
  have hcoverage : (∃ vs, Check.coverage.verdicts l m d = .ok vs) ↔
      ∃ models, l.discover d = .ok models := by
    rw [Check.verdicts]
    cases hdiscover : l.discover d with
    | error e => simp [bind, Except.bind]
    | ok models =>
      exact iff_of_true (exists_mapM_iff.2 fun model hmodel =>
        Check.exists_mapped (hmodels hdiscover model hmodel)) ⟨models, rfl⟩
  have hsync : ∃ vs, Check.syncFiles.verdicts l m d = .ok vs :=
    exists_mapM_iff.2 fun dir hdir => Check.exists_hasSyncFile (hdirs dir hdir)
  have hchecksums : ∃ vs, Check.checksums.verdicts l m d = .ok vs :=
    exists_mapM_iff.2 fun e _ => Check.exists_unchanged e.1 e.2
  have hedits : (∃ vs, Check.manualEdits.verdicts l m d = .ok vs) ↔
      ∀ source artifact, m.artifactOf? source = some artifact →
        d.Legible (Path.join (l.resolve artifact) Bundle.descriptorName) := by
    rw [Check.verdicts, exists_mapM_iff, Dict.values, List.forall_mem_map]
    simp only [Check.exists_attested_iff]
    exact forall_mappings_iff (p := fun _ artifact =>
      d.Legible (Path.join (l.resolve artifact) Bundle.descriptorName))
  have hintegrity : ∃ vs, Check.manifestIntegrity.verdicts l m d = .ok vs := ⟨_, rfl⟩
  have hschema : (∃ vs, Check.schemaCompatibility.verdicts l m d = .ok vs) ↔
      ∀ dir ∈ Check.bundleDirs l d, d.Legible (Path.join dir Bundle.descriptorName) := by
    rw [Check.verdicts, exists_mapM_iff]
    exact forall₂_congr fun dir hdir => Check.exists_wellFormed_iff (hdirs dir hdir)
  rw [hreport, ← exists_discover_iff, ← hcoverage, ← hedits, ← hschema, Check.all]
  simp [hsync, hchecksums, hintegrity]

/-! ### A descriptor that is no text -/

/-- A disk with the project `/p`, in which a bundle has a single byte that is no text. -/
def sampleIllegible : Disk where
  tree := .ofEntries
    [("p", [], .directory), ("actions", ["p"], .directory), ("d", ["actions", "p"], .directory),
      ("s", ["d", "actions", "p"], .directory),
      ("action.yml", ["s", "d", "actions", "p"], .file [0xFF] false)]

/-- There is no report on this project. -/
theorem validate_reports_sampleIllegible :
    "/p".toList ≠ [] ∧ ({} : Config).check = .ok () ∧
      ¬ ∃ r, sampleLayout.validate sampleManifest sampleIllegible = .ok r ∧
        r.checks.map (·.name) = Check.all.map Check.name := by
  have hroot : "/p".toList ≠ [] := by decide
  have hcheck : ({} : Config).check = .ok () := by decide
  have hread : sampleIllegible.read "/p/actions/d/s/action.yml" = .ok [0xFF] := by decide
  have hmapped : sampleManifest.artifactOf? "axioms/m.fcm" = some "actions/d/s".toList := by decide
  refine ⟨hroot, hcheck, fun hreport => ?_⟩
  obtain ⟨-, hlegible, -⟩ :=
    (Layout.validate_reports_iff hroot hcheck sampleManifest sampleIllegible).1 hreport
  obtain ⟨text, htext⟩ := hlegible _ _ hmapped [0xFF] hread
  cases htext

end ActionBundles
