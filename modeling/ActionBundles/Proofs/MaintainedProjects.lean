import ActionBundles.Proofs.BatchHistory
import ActionBundles.Proofs.PassedChecks

/-!
# Generation and validation agree

In a maintained project every bundle is fine, and so is the manifest; if moreover the bytes of every
mapped model are those in the ledger, and every model is mapped, there is nothing wrong at all. After
a run that generates all actions without a failure this is so, unless a mapped model is gone: the
validation that follows finds neither an error nor a reason to warn
(`Command.validates_after_batch`).

That no write fails is asked of the earlier runs too. One that has no room for a file leaves the
directory of its bundle behind, and once the model has got another action no later run looks at that
again (`Command.invalid_after_batch_sampleMoved`).
-/

namespace ActionBundles

open ActionBundles.Action

/-! ### Bundles that are fine -/

theorem Text.utf8_injective {t u : Text} (h : Text.utf8 t = Text.utf8 u) : t = u :=
  Option.some.inj <| by rw [← ofUtf8?_utf8 t, h, ofUtf8?_utf8]

/-- Where a bundle stands, its descriptor can be read. -/
theorem Bundle.Stands.descriptorText {b : Bundle} {d : Disk} {dir : Address}
    (h : b.Stands d.tree dir) :
    Check.descriptorText d (Path.join (Path.ofAddress dir) descriptorName) = .ok b.descriptor := by
  have hfile := h.file _ _ (.head _)
  rw [Path.join_ofAddress (Tree.isWay_of_get? h.directory) (by decide), Check.descriptorText,
    Disk.read, Disk.find_of_get? hfile (by simp)]
  simp only [Text.ofUtf8?_utf8]

namespace Project

variable {a : Address} {d : Disk} {m : Manifest} {last : Ledger} {mode : ParseMode}

/-- The path of a bundle that is on record. -/
theorem resolve_bundleAddress {domain slug : Text} (hroot : d.tree.get? a = some .directory)
    (hdomain : Identity.IsSegment domain) (hslug : Identity.IsSegment slug) :
    (standard a mode).layout.resolve (Path.ofRelative (bundleAddress domain slug)) =
      Path.ofAddress (slug :: domain :: actionsAddress a) :=
  Path.join_ofRelative (Tree.isWay_of_get? hroot)
    (place_bundleAddress (a := a) hdomain hslug).isWay (List.cons_ne_nil _ _)

namespace Maintained

variable (h : Maintained a last m d.tree)

include h

/-- The bundle in a directory, with a descriptor as the checks want it. -/
theorem exists_bundle {domain slug : Text}
    (hdir : d.tree.get? (slug :: domain :: actionsAddress a) = some .directory) :
    ∃ b : Bundle, b.Stands d.tree (slug :: domain :: actionsAddress a) ∧
      Descriptor.problem? b.descriptor = none ∧ Descriptor.hasProvenance b.descriptor = true := by
  obtain ⟨b, -, hstands⟩ := h.tidy.bundle slug domain _ hdir
  obtain ⟨text, htext, hlegible⟩ := h.legible slug domain _ _ (hstands.file _ _ (.head _))
  exact ⟨b, hstands, Text.utf8_injective htext ▸ hlegible⟩

theorem isFine_syncFiles : Check.syncFiles.IsFine (standard a mode).layout m d := by
  refine Check.isFine_of_mapM rfl fun dir hdir => ?_
  obtain ⟨domain, slug, rfl, hget⟩ := exists_of_mem_bundleDirs h.root h.noLinks hdir
  obtain ⟨b, hstands, -⟩ := h.exists_bundle hget
  rw [Check.hasSyncFile, if_pos (hstands.isFile (by decide))]

theorem isFine_schemaCompatibility :
    Check.schemaCompatibility.IsFine (standard a mode).layout m d := by
  refine Check.isFine_of_mapM rfl fun dir hdir => ?_
  obtain ⟨domain, slug, rfl, hget⟩ := exists_of_mem_bundleDirs h.root h.noLinks hdir
  obtain ⟨b, hstands, hproblem, -⟩ := h.exists_bundle hget
  have hrelative : (standard a mode).layout.relative
      (Path.ofAddress (slug :: domain :: actionsAddress a)) =
        .ok (Path.ofRelative (bundleAddress domain slug)) :=
    (Path.denotes_ofAddress (Tree.isWay_of_get? hget)).relative rfl rfl
  rw [Check.wellFormed, hrelative]
  show (if d.isFile _ = true then _ else _) = _
  rw [if_pos (hstands.isFile (by decide)), hstands.descriptorText]
  simp only [bind, Except.bind, hproblem]
  rfl

/-- The bundle that a model is mapped to. -/
theorem exists_backing {source artifact : Text} (hmapped : m.artifactOf? source = some artifact) :
    ∃ dir bytes, ∃ b : Bundle, (standard a mode).layout.resolve artifact = Path.ofAddress dir ∧
      b.Stands d.tree dir ∧ Descriptor.hasProvenance b.descriptor = true ∧
      last source = some bytes ∧ b.sync.checksum = Sha256.checksum bytes := by
  obtain ⟨domain, slug, record, bytes, b, hdomain, hslug, rfl, hstands, -, hlast, hsync⟩ :=
    h.backed source artifact hmapped
  obtain ⟨text, htext, -, hprovenance⟩ := h.legible slug domain _ _ (hstands.file _ _ (.head _))
  exact ⟨_, bytes, b, resolve_bundleAddress h.root hdomain hslug, hstands,
    Text.utf8_injective htext ▸ hprovenance, hlast, by rw [hsync]⟩

theorem isFine_manualEdits : Check.manualEdits.IsFine (standard a mode).layout m d := by
  refine Check.isFine_of_mapM rfl fun artifact hartifact => ?_
  obtain ⟨e, he, rfl⟩ := List.mem_map.1 hartifact
  obtain ⟨dir, -, b, hdir, hstands, hprovenance, -⟩ := h.exists_backing (Dict.mem_toList_iff.1 he)
  rw [Check.attested, hdir, if_pos (hstands.isFile (by decide)), hstands.descriptorText]
  simp only [Except.map, hprovenance, ↓reduceIte]

theorem isFine_checksums (hcurrent : ∀ source artifact, m.artifactOf? source = some artifact →
      ∃ bytes, d.read ((standard a mode).layout.resolve source) = .ok bytes ∧
        last source = some bytes) :
    Check.checksums.IsFine (standard a mode).layout m d := by
  refine Check.isFine_of_mapM rfl fun e he => ?_
  have hmapped := Dict.mem_toList_iff.1 he
  obtain ⟨bytes, hread, hlast⟩ := hcurrent e.1 e.2 hmapped
  obtain ⟨dir, bytes', b, hdir, hstands, -, hlast', hchecksum⟩ := h.exists_backing hmapped
  cases hlast.symm.trans hlast'
  rw [Check.unchanged, hdir, hstands.load?]
  dsimp only
  rw [if_pos (Disk.isFile_iff.2 ⟨bytes, hread⟩), hread]
  simp only [hchecksum, ↓reduceIte]

theorem isFine_manifestIntegrity :
    Check.manifestIntegrity.IsFine (standard a mode).layout m d := by
  refine ⟨_, rfl, fun v hv => ?_⟩
  rcases List.mem_append.1 hv with hv | hv
  · obtain ⟨e, he, rfl⟩ := List.mem_map.1 hv
    obtain ⟨record, hrecord, -⟩ := h.bijective.recorded (Dict.mem_toList_iff.1 he)
    refine if_pos ?_
    rw [Dict.contains, show m.generated.get? e.2 = some record from hrecord]
    rfl
  · obtain ⟨e, he, rfl⟩ := List.mem_map.1 hv
    exact if_pos (h.bijective.mapped (Dict.mem_toList_iff.1 he))

/-- **Nothing is wrong with a maintained project** in which every model is mapped and every mapped
model has the bytes that its bundle was generated from. -/
theorem validate (hcoverage : Check.coverage.IsFine (standard a mode).layout m d)
    (hcurrent : ∀ source artifact, m.artifactOf? source = some artifact →
      ∃ bytes, d.read ((standard a mode).layout.resolve source) = .ok bytes ∧
        last source = some bytes) :
    ∃ r, (standard a mode).layout.validate m d = .ok r ∧ r.valid = true ∧ r.errors = [] ∧
      r.warnings = [] := by
  refine Layout.validate_of_fine fun check _ => ?_
  cases check with
  | coverage => exact hcoverage
  | syncFiles => exact h.isFine_syncFiles
  | checksums => exact h.isFine_checksums hcurrent
  | manualEdits => exact h.isFine_manualEdits
  | manifestIntegrity => exact h.isFine_manifestIntegrity
  | schemaCompatibility => exact h.isFine_schemaCompatibility

end Maintained

end Project

/-! ### After a run -/

namespace Command

open Project

variable {a : Address} {d : Disk} {occasion : Occasion} {root : Text} {strict : Bool}

/-- **Generation and validation agree.** If all actions of a project have been generated without a
failure, and every model that is mapped is still a file, the validation that follows finds neither an
error nor a reason to warn. Models may have come and gone before in any way; the project started
without a manifest and without actions, has no links and the default configuration, no path of a
model has a line feed in it, and no write has failed. -/
theorem validates_after_batch (h : BatchLife (· = .ample) a d) (hrun : IsRun a d occasion root)
    (hresult : (outcome occasion (.generate root none strict) d).1.result = .ok true) :
    let d' := (outcome occasion (.generate root none strict) d).2
    ∃ p m, Project.load root d' = .ok p ∧ Manifest.load p.layout d' = .ok m ∧
      ((∀ source artifact, m.artifactOf? source = some artifact →
          d'.isFile (p.layout.resolve source) = true) →
        ∃ r, p.layout.validate m d' = .ok r ∧ r.valid = true ∧ r.errors = [] ∧ r.warnings = []) := by
  intro d'
  obtain ⟨last, m₀, hbefore⟩ := h.maintained
  obtain ⟨m, hafter⟩ := hbefore.outcome hrun strict
  obtain ⟨p, m', models, hload, hmanifest, hmodels, hfound⟩ :=
    exists_mapped_after_batch hrun.find hbefore.root hbefore.noLinks hrun.name hresult
  have hsame : Project.load root d' = Project.load root d :=
    Project.load_steady hrun.find hbefore.root hbefore.noLinks
      (workingDirectory_outcome occasion root strict d)
      (hrun.steady hbefore.root hbefore.noLinks strict)
  obtain ⟨mode, rfl⟩ := hrun.load p (hsame.symm.trans hload)
  cases (hafter.toAgrees.load rfl).symm.trans hmanifest
  refine ⟨_, m, hload, hmanifest, fun hpresent => ?_⟩
  refine hafter.validate ⟨_, verdicts_coverage_of_mapped hmodels hfound, fun v hv => ?_⟩
    fun source artifact hmapped => ?_
  · obtain ⟨_, -, rfl⟩ := List.mem_map.1 hv
    rfl
  · obtain ⟨b, rfl, hb, hway⟩ := hafter.found source artifact hmapped
    obtain ⟨n, c, rfl, hn⟩ := hb
    have ha := Tree.isWay_of_get? hafter.root
    have hresolve : (standard a mode).layout.resolve (Path.ofRelative (n :: (c ++ ["axioms".toList]))) =
        Path.ofAddress (n :: (c ++ ["axioms".toList]) ++ a) :=
      Path.join_ofRelative ha hway (List.cons_ne_nil _ _)
    have hfile := hpresent _ _ hmapped
    rw [hresolve] at hfile ⊢
    obtain ⟨content, executable, hget⟩ := (Disk.isFile_iff_exists hafter.root hafter.noLinks
      (hway.append ha) (List.suffix_append _ a)).1 hfile
    refine ⟨content, ?_, ledger_after_batch hbefore hrun hresult ⟨n, c, rfl, hn⟩ hget⟩
    rw [Disk.read, Disk.find_of_get? hget (by simp)]

/-! ### A model that gets another action -/

/-- The sample project before there is a model. -/
def sampleEmpty : Disk where
  tree := (Tree.empty.set "p" [] .directory).set "axioms" ["p"] .directory

theorem batchLife_sampleDisk {media : Medium → Prop} : BatchLife media ["p".toList] sampleDisk := by
  have hno : ∀ b target, sampleEmpty.tree.get? b ≠ some (.link target) :=
    Tree.noLinks_set (Tree.noLinks_set Tree.noLinks_empty (by simp)) (by simp)
  have hempty : BatchLife media ["p".toList] sampleEmpty := by
    refine .start (by rfl) (fun b => hno _) (fun b content executable hb hget => ?_) (by rfl) (by rfl)
    obtain ⟨n, c, rfl, -⟩ := hb
    rw [sampleEmpty, Tree.get?_set, Tree.get?_set] at hget
    split at hget
    · cases hget
    split at hget <;> cases hget
  exact hempty.write "x.fcm" [] [] false (by decide)

/-- A run for the project `/p` under the default configuration. -/
theorem isRun_sample {media : Medium → Prop} (h : BatchLife media ["p".toList] d)
    (hname : isName occasion.transactionName = true)
    (hload : Project.load "/p" d = .ok sampleProject) :
    IsRun ["p".toList] d occasion ("/p" : Text) where
  name := hname
  find := by
    have hpath : Path.ofAddress ["p".toList] = "/p".toList := by decide
    rw [← hpath]
    exact Disk.find_of_get? h.surroundings.1 (by simp)
  load q hq := ⟨.permissive, Except.ok.inj (hq.symm.trans hload)⟩

theorem isRun_sampleDisk : IsRun ["p".toList] sampleDisk sampleOccasion ("/p" : Text) :=
  have hlife : BatchLife (· = .ample) ["p".toList] sampleDisk := batchLife_sampleDisk
  isRun_sample hlife (by decide) load_sampleDisk

/-- The sample project after its model was edited, so that it has another action. -/
def sampleRenamed : Disk :=
  { sampleGenerated with
    tree := sampleGenerated.tree.set "x.fcm" ["axioms", "p"]
      (.file (Text.utf8 "Model: axiom.git.tag\n") false) }

theorem batchLife_sampleRenamed : BatchLife (· = .ample) ["p".toList] sampleRenamed :=
  have hlife : BatchLife (· = .ample) ["p".toList] sampleDisk := batchLife_sampleDisk
  have hgenerated : BatchLife (· = .ample) ["p".toList] sampleGenerated :=
    sampleGenerated_eq ▸ hlife.generate .ample rfl sampleOccasion "/p" false isRun_sampleDisk
  hgenerated.write "x.fcm" [] _ false (by decide)

/-- This project after its actions were generated again. -/
def sampleRegenerated : Disk :=
  (outcome sampleOccasion (.generate ("/p" : Text) none false) sampleRenamed).2

/-- What is found before and after that run. -/
theorem found_sampleRegenerated :
    (Project.load "/p" sampleRenamed).toOption = some sampleProject ∧
    (outcome sampleOccasion (.generate ("/p" : Text) none false) sampleRenamed).1.result.toOption =
      some true ∧
    (Project.load ("/p" : Text) sampleRegenerated).toOption = some sampleProject ∧
    ((Manifest.load sampleProject.layout sampleRegenerated).toOption.map fun m =>
      m.mappings.toList) = some [("axioms/x.fcm".toList, "actions/git/tag".toList)] ∧
    sampleRegenerated.isFile (sampleProject.layout.resolve "axioms/x.fcm") = true ∧
    sampleRegenerated.isFile ("/p/actions/core/x/action.yml" : Text) = true := by
  decide +kernel

theorem isRun_sampleRenamed : IsRun ["p".toList] sampleRenamed sampleOccasion ("/p" : Text) :=
  isRun_sample batchLife_sampleRenamed (by decide) (eq_ok_of_toOption found_sampleRegenerated.1)

/-- The bundle of the former action is left behind, and the validation finds nothing wrong. -/
theorem validates_after_batch_sampleRenamed :
    sampleRegenerated.isFile ("/p/actions/core/x/action.yml" : Text) = true ∧
      ∃ m, Manifest.load sampleProject.layout sampleRegenerated = .ok m ∧
        m.mappings.toList = [("axioms/x.fcm".toList, "actions/git/tag".toList)] ∧
        ∃ r, sampleProject.layout.validate m sampleRegenerated = .ok r ∧ r.valid = true ∧
          r.errors = [] ∧ r.warnings = [] := by
  obtain ⟨-, hresult, hproject, hmappings, hfile, hleft⟩ := found_sampleRegenerated
  obtain ⟨p, m, hload, hm, hvalid⟩ :
      ∃ p m, Project.load ("/p" : Text) sampleRegenerated = .ok p ∧
        Manifest.load p.layout sampleRegenerated = .ok m ∧
        ((∀ source artifact, m.artifactOf? source = some artifact →
            sampleRegenerated.isFile (p.layout.resolve source) = true) →
          ∃ r, p.layout.validate m sampleRegenerated = .ok r ∧ r.valid = true ∧ r.errors = [] ∧
            r.warnings = []) :=
    validates_after_batch batchLife_sampleRenamed isRun_sampleRenamed (eq_ok_of_toOption hresult)
  obtain rfl : sampleProject = p :=
    Except.ok.inj ((eq_ok_of_toOption hproject).symm.trans hload)
  rw [hm] at hmappings
  have hmapped : m.mappings.toList = [("axioms/x.fcm".toList, "actions/git/tag".toList)] :=
    Option.some.inj hmappings
  refine ⟨hleft, m, hm, hmapped, hvalid fun source artifact hsource => ?_⟩
  have hmem : (source, artifact) ∈ m.mappings.toList := Dict.mem_toList_iff.2 hsource
  rw [hmapped, List.mem_singleton] at hmem
  obtain ⟨rfl, -⟩ := Prod.mk.inj hmem
  exact hfile

/-! ### A bundle that was left behind in part -/

/-- Where the draft of the sync record of the sample's action is written. -/
def sampleSyncDraft : Address := ["..bridge-sync.tmp", "x", "core", "actions", "p"]

/-- A medium that has no room for this draft any more. -/
abbrev sampleCramped : Medium := .fullAt (· = sampleSyncDraft)

/-- The sample project after its actions were generated on this medium. -/
def sampleCutShort : Disk :=
  (@outcome sampleCramped sampleOccasion (.generate ("/p" : Text) none false) sampleDisk).2

theorem sampleCutShort_eq : sampleCutShort = (@outcome sampleCramped sampleOccasion
    (.generate ("/p" : Text) none false) sampleDisk).2 := rfl

/-- This project after its model was edited, so that it has another action. -/
def sampleMoved : Disk :=
  { sampleCutShort with
    tree := sampleCutShort.tree.set "x.fcm" ["axioms", "p"] (.file (Text.utf8 "Model: y") false) }

theorem batchLife_sampleMoved : BatchLife (fun _ => True) ["p".toList] sampleMoved :=
  have hcutShort : BatchLife (fun _ => True) ["p".toList] sampleCutShort :=
    sampleCutShort_eq ▸
      batchLife_sampleDisk.generate sampleCramped trivial sampleOccasion "/p" false isRun_sampleDisk
  hcutShort.write "x.fcm" [] _ false (by decide)

/-- This project after its actions were generated again, with room for everything. -/
def sampleLeftBehind : Disk :=
  (outcome sampleLater (.generate ("/p" : Text) none false) sampleMoved).2

/-- What is found before and after that run. -/
theorem found_sampleLeftBehind :
    (Project.load "/p" sampleMoved).toOption = some sampleProject ∧
    sampleMoved.tree.get? sampleSyncDraft = some (.file [] false) ∧
    (outcome sampleLater (.generate ("/p" : Text) none false) sampleMoved).1.result.toOption =
      some true ∧
    (Project.load ("/p" : Text) sampleLeftBehind).toOption = some sampleProject ∧
    ((Manifest.load sampleProject.layout sampleLeftBehind).toOption.map fun m =>
      (m.mappings.toList, (sampleProject.layout.validate m sampleLeftBehind).toOption.map fun r =>
        (r.valid, r.errors))) =
      some ([("axioms/x.fcm".toList, "actions/core/y".toList)], some (false,
        ["sync_files: actions/core/x has no .bridge-sync".toList,
          "schema_compatibility: actions/core/x has no action.yml".toList])) ∧
    sampleLeftBehind.isFile (sampleProject.layout.resolve "axioms/x.fcm") = true := by
  decide +kernel

/-- The run reports no failure and its one mapped model is a file, but the validation that follows
finds errors: of the bundle that an earlier run could not put into its place, the directory is there
with an empty draft in it, and neither descriptor nor sync record. -/
theorem invalid_after_batch_sampleMoved :
    BatchLife (fun _ => True) ["p".toList] sampleMoved ∧
    sampleMoved.tree.get? sampleSyncDraft = some (.file [] false) ∧
    IsRun ["p".toList] sampleMoved sampleLater ("/p" : Text) ∧
    (outcome sampleLater (.generate ("/p" : Text) none false) sampleMoved).1.result = .ok true ∧
    ∃ m r, Project.load ("/p" : Text) sampleLeftBehind = .ok sampleProject ∧
      Manifest.load sampleProject.layout sampleLeftBehind = .ok m ∧
      (∀ source artifact, m.artifactOf? source = some artifact →
        sampleLeftBehind.isFile (sampleProject.layout.resolve source) = true) ∧
      sampleProject.layout.validate m sampleLeftBehind = .ok r ∧ r.valid = false ∧
      r.errors = ["sync_files: actions/core/x has no .bridge-sync".toList,
        "schema_compatibility: actions/core/x has no action.yml".toList] := by
  obtain ⟨hload, hdraft, hresult, hproject, hfound, hfile⟩ := found_sampleLeftBehind
  obtain ⟨m, hm, hfound⟩ := Option.map_eq_some_iff.1 hfound
  obtain ⟨hmappings, hvalidated⟩ := Prod.mk.inj hfound
  obtain ⟨r, hr, hreport⟩ := Option.map_eq_some_iff.1 hvalidated
  obtain ⟨hvalid, herrors⟩ := Prod.mk.inj hreport
  refine ⟨batchLife_sampleMoved, hdraft,
    isRun_sample batchLife_sampleMoved (by decide) (eq_ok_of_toOption hload),
    eq_ok_of_toOption hresult, m, r, eq_ok_of_toOption hproject, eq_ok_of_toOption hm,
    fun source artifact hsource => ?_, eq_ok_of_toOption hr, hvalid, herrors⟩
  have hmem : (source, artifact) ∈ m.mappings.toList := Dict.mem_toList_iff.2 hsource
  rw [hmappings, List.mem_singleton] at hmem
  obtain ⟨rfl, -⟩ := Prod.mk.inj hmem
  exact hfile

end Command

end ActionBundles
