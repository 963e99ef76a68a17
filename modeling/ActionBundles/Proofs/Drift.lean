import ActionBundles.Proofs.OtherContents
import ActionBundles.Proofs.PassedChecks
import ActionBundles.Proofs.Reports
import Mathlib.Logic.Function.Basic

/-!
# Models that drift

A validation that finds nothing wrong is repeated after the file of one mapped model was written
again. As long as the file plays no other part in the project, only the checksum check can tell, and
it tells exactly if the digest of the file is another one (`Layout.drift_detected`).

A path leads where it led before, whatever a file holds (`Disk.find_rewritten`). So each check is
looked at for who reads the file: that is nobody but the verdict on the model itself.
-/

namespace ActionBundles

/-! ### Reports of checks that are fine -/

namespace Report

/-- What a report says about a check. -/
def result (m : Manifest) (check : Check) (vs : List Verdict) : CheckResult where
  name := check.name
  passed := !vs.any (·.isFailure)
  message := check.summary m vs

/-- The report of checks that judged their items as they did. -/
def ofVerdicts (m : Manifest) (found : List (Check × List Verdict)) : Report where
  valid := found.all fun e => !e.2.any (·.isFailure)
  checks := found.map fun e => result m e.1 e.2
  errors := found.flatMap fun e => e.2.filterMap (·.error?)
  warnings := found.flatMap fun e => e.2.filterMap (·.warning?)

theorem collect_eq (r : Report) (found : List (Check × List Verdict)) : r.collect m found =
    { valid := r.valid && (ofVerdicts m found).valid
      checks := r.checks ++ (ofVerdicts m found).checks
      errors := r.errors ++ (ofVerdicts m found).errors
      warnings := r.warnings ++ (ofVerdicts m found).warnings } := by
  induction found generalizing r with
  | nil => simp [collect, ofVerdicts]
  | cons e found ih =>
    show (e.1.addTo m e.2 r).collect m found = _
    rw [ih]
    simp [Check.addTo, record, ofVerdicts, result, Bool.and_assoc]

end Report

theorem Verdict.eq_fine {v : Verdict} (hpasses : v.isFailure = false) (hquiet : v.warning? = none) :
    v = .fine := by
  cases v with
  | fine => rfl
  | failed error => cases hpasses
  | drifted warning => cases hpasses
  | noted warning => cases hquiet

namespace Layout

variable {l : Layout} {m : Manifest} {d : Disk} {r : Report}

theorem validate_eq {f : Check → List Verdict}
    (h : ∀ check ∈ Check.all, check.verdicts l m d = .ok (f check)) :
    l.validate m d = .ok (Report.ofVerdicts m (Check.all.map fun check => (check, f check))) := by
  refine Report.extend_eq_ok_iff.2 ⟨Check.all.map f, mapM_eq_map h, ?_⟩
  rw [← List.map_prod_left_eq_zip, Report.collect_eq]
  rfl

/-- In a valid report without warnings every check was fine with all items. -/
theorem exists_fine_of_validate (h : l.validate m d = .ok r) (hvalid : r.valid = true)
    (hquiet : r.warnings = []) : ∃ f : Check → List Verdict,
      (∀ check ∈ Check.all, check.verdicts l m d = .ok (f check) ∧ ∀ v ∈ f check, v = .fine) ∧
      r = Report.ofVerdicts m (Check.all.map fun check => (check, f check)) := by
  have hverdicts : ∀ check ∈ Check.all,
      check.verdicts l m d = .ok ((check.verdicts l m d).toOption.getD []) := fun check hcheck => by
    obtain ⟨vs, hvs⟩ := Report.exists_extend_iff.1 ⟨r, h⟩ check hcheck
    rw [hvs]
    rfl
  obtain rfl := Except.ok.inj (h.symm.trans (validate_eq hverdicts))
  refine ⟨_, fun check hcheck => ⟨hverdicts check hcheck, fun v hv => Verdict.eq_fine ?_ ?_⟩, rfl⟩
  · have hpasses := List.all_eq_true.1 hvalid _ (List.mem_map_of_mem hcheck)
    simp only [Bool.not_eq_true', List.any_eq_false] at hpasses
    simpa using hpasses v hv
  · have hnone := List.flatMap_eq_nil_iff.1 hquiet _ (List.mem_map_of_mem hcheck)
    exact List.filterMap_eq_nil_iff.1 hnone v hv

end Layout

/-! ### Digests as they are put on record -/

namespace Sha256

theorem hexByte_injective {a b : UInt8} (h : hexByte a = hexByte b) : a = b := by
  have hdigit : ∀ x < 16, ∀ y < 16, Nat.digitChar x = Nat.digitChar y → x = y := by decide
  have ha := a.toNat_lt
  have hb := b.toNat_lt
  rw [hexByte, hexByte, List.cons.injEq, List.cons.injEq] at h
  have hhigh := hdigit _ (by omega) _ (by omega) h.1
  have hlow := hdigit _ (by omega) _ (by omega) h.2.1
  exact UInt8.toNat_inj.1 (by omega)

theorem eq_of_flatMap_hexByte {xs ys : Bytes} (h : xs.flatMap hexByte = ys.flatMap hexByte) :
    xs = ys := by
  induction xs generalizing ys with
  | nil =>
    cases ys with
    | nil => rfl
    | cons y ys => cases h
  | cons x xs ih =>
    cases ys with
    | nil => cases h
    | cons y ys =>
      rw [List.flatMap_cons, List.flatMap_cons] at h
      obtain ⟨hbyte, hrest⟩ := List.append_inj h rfl
      rw [hexByte_injective hbyte, ih hrest]

/-- Messages have the same checksum exactly if they have the same digest. -/
theorem checksum_eq_iff {a b : Bytes} : checksum a = checksum b ↔ digest a = digest b :=
  ⟨fun h => eq_of_flatMap_hexByte (List.append_cancel_left h),
    congrArg fun bytes : Bytes => "sha256:" ++ bytes.flatMap hexByte⟩

end Sha256

/-! ### What a check sees of a model -/

section Files

variable {t : Tree} {follow : Bool} {a : Address} {content : Bytes} {mode : Bool}

theorem Tree.get?_of_leg {start : Address} {steps : List Text}
    (h : t.leg follow start steps = .ok (.end_ (.entry a (.file content mode)))) :
    t.get? a = some (.file content mode) := by
  rw [leg_eq_ok_iff] at h
  generalize hfirst : Leg.end_ (.entry a (.file content mode)) = first at h
  induction h with
  | dot _ ih => exact ih hfirst
  | up _ ih => exact ih hfirst
  | down _ _ _ ih => exact ih hfirst
  | file _ hnode =>
    cases hfirst
    exact hnode
  | nil | vacant | unfollowed | link => cases hfirst

theorem Tree.get?_of_walk {budget : Nat} {start : Address} {steps : List Text}
    (h : t.walk follow budget start steps = .ok (.entry a (.file content mode))) :
    t.get? a = some (.file content mode) := by
  rw [walk_eq_ok_iff] at h
  generalize hspot : Spot.entry a (.file content mode) = spot at h
  induction h with
  | end_ hleg =>
    subst hspot
    exact get?_of_leg hleg
  | link _ _ _ ih => exact ih hspot

/-- A file that a path leads to is there, wherever the path starts. -/
theorem Disk.get?_of_find {d : Disk} {path : Text} (h : d.find path = .ok (a, .file content mode)) :
    d.tree.get? a = some (.file content mode) :=
  Tree.get?_of_walk (walk_of_find h).2

end Files

/-- Whether a path leads to an address can be found out. -/
instance (d : Disk) (path : Text) (a : Address) : Decidable (d.LeadsTo path a) :=
  decidable_of_iff ((d.find path).toOption.map (·.1) = some a) (by
    rw [Disk.LeadsTo]
    cases d.find path with
    | error e => simp [Except.toOption]
    | ok found =>
      obtain ⟨b, node⟩ := found
      simp [Except.toOption])

/-- The files of a bundle that are looked at. -/
def Check.checkedNames : List Text := [Bundle.descriptorName, SyncRecord.fileName]

/-- Whether the file at an address plays no part in a project but that of the mapped model `source`:
it is no file of a bundle, neither of one that a model is mapped to nor of one that is found, and no
other model. -/
structure Layout.IsOnlyModel (l : Layout) (m : Manifest) (d : Disk) (source : Text) (a : Address) :
    Prop where
  mapped : ∀ e ∈ m.mappings.toList, ∀ name ∈ Check.checkedNames,
    ¬ d.LeadsTo (Path.join (l.resolve e.2) name) a
  found : ∀ dir ∈ Check.bundleDirs l d, ∀ name ∈ Check.checkedNames,
    ¬ d.LeadsTo (Path.join dir name) a
  sole : ∀ e ∈ m.mappings.toList, e.1 ≠ source → ¬ d.LeadsTo (l.resolve e.1) a

instance (l : Layout) (m : Manifest) (d : Disk) (source : Text) (a : Address) :
    Decidable (l.IsOnlyModel m d source a) :=
  decidable_of_iff
    ((∀ e ∈ m.mappings.toList, ∀ name ∈ Check.checkedNames,
        ¬ d.LeadsTo (Path.join (l.resolve e.2) name) a) ∧
      (∀ dir ∈ Check.bundleDirs l d, ∀ name ∈ Check.checkedNames,
        ¬ d.LeadsTo (Path.join dir name) a) ∧
      ∀ e ∈ m.mappings.toList, e.1 ≠ source → ¬ d.LeadsTo (l.resolve e.1) a)
    ⟨fun ⟨hmapped, hfound, hsole⟩ => ⟨hmapped, hfound, hsole⟩,
      fun h => ⟨h.mapped, h.found, h.sole⟩⟩

namespace Check

variable {l : Layout} {m : Manifest} {d : Disk} {source artifact path n : Text} {dir : Address}
  {old content : Bytes} {oldMode mode : Bool}

section

variable (h : d.tree.get? (n :: dir) = some (.file old oldMode))

include h

theorem bundleDirs_rewritten :
    bundleDirs l (d.rewritten n dir content mode) = bundleDirs l d := by
  rw [bundleDirs, bundleDirs, Disk.subdirectories_rewritten h]
  exact List.flatMap_congr fun domain _ => Disk.subdirectories_rewritten h domain

theorem discover_rewritten : l.discover (d.rewritten n dir content mode) = l.discover d := by
  rw [Layout.discover, Layout.discover, Disk.filesBelow_rewritten h]

theorem descriptorText_rewritten (hpath : ¬ d.LeadsTo path (n :: dir)) :
    descriptorText (d.rewritten n dir content mode) path = descriptorText d path := by
  rw [descriptorText, descriptorText, Disk.read_rewritten_of_not_leadsTo h hpath]

theorem attested_rewritten
    (hpath : ¬ d.LeadsTo (Path.join (l.resolve artifact) Bundle.descriptorName) (n :: dir)) :
    attested l (d.rewritten n dir content mode) artifact = attested l d artifact := by
  rw [attested, attested, Disk.isFile_rewritten h, descriptorText_rewritten h hpath]

theorem wellFormed_rewritten {bundle : Text}
    (hpath : ¬ d.LeadsTo (Path.join bundle Bundle.descriptorName) (n :: dir)) :
    wellFormed l (d.rewritten n dir content mode) bundle = wellFormed l d bundle := by
  simp only [wellFormed, Disk.isFile_rewritten h, descriptorText_rewritten h hpath]

theorem load?_rewritten {bundle : Text}
    (hpath : ¬ d.LeadsTo (Path.join bundle SyncRecord.fileName) (n :: dir)) :
    SyncRecord.load? (d.rewritten n dir content mode) bundle = SyncRecord.load? d bundle := by
  rw [SyncRecord.load?, SyncRecord.load?, Disk.isFile_rewritten h,
    Disk.read_rewritten_of_not_leadsTo h hpath]

/-- The verdict on another model is the same. -/
theorem unchanged_rewritten_of_not_leadsTo (hsource : ¬ d.LeadsTo (l.resolve source) (n :: dir))
    (hpath : ¬ d.LeadsTo (Path.join (l.resolve artifact) SyncRecord.fileName) (n :: dir)) :
    unchanged l (d.rewritten n dir content mode) source artifact = unchanged l d source artifact := by
  simp only [unchanged, Disk.isFile_rewritten h, load?_rewritten h hpath,
    Disk.read_rewritten_of_not_leadsTo h hsource]

/-- The verdict on the model itself, if nothing was wrong with it. -/
theorem unchanged_rewritten
    (hsource : d.find (l.resolve source) = .ok (n :: dir, .file old oldMode))
    (hpath : ¬ d.LeadsTo (Path.join (l.resolve artifact) SyncRecord.fileName) (n :: dir))
    (hfine : unchanged l d source artifact = .ok .fine) :
    unchanged l (d.rewritten n dir content mode) source artifact =
      .ok (if Sha256.digest content = Sha256.digest old then .fine
        else .drifted (Layout.driftWarning source artifact)) := by
  have hread : d.read (l.resolve source) = .ok old := by rw [Disk.read, hsource]
  have hfile : d.isFile (l.resolve source) = true := Disk.isFile_iff.2 ⟨old, hread⟩
  simp only [unchanged, Disk.isFile_rewritten h, load?_rewritten h hpath,
    Disk.read_rewritten h hsource, hfile, hread, ↓reduceIte] at hfine ⊢
  split at hfine
  · cases hfine
  · cases hfine
  · split at hfine
    · next hchecksum =>
      rw [← hchecksum]
      by_cases hsame : Sha256.digest content = Sha256.digest old
      · rw [if_pos hsame, if_pos (Sha256.checksum_eq_iff.2 hsame)]
      · rw [if_neg hsame, if_neg (mt Sha256.checksum_eq_iff.1 hsame)]
        rfl
    · cases hfine

/-- A check other than that of the checksums comes to the same verdicts. -/
theorem verdicts_rewritten (honly : l.IsOnlyModel m d source (n :: dir)) {check : Check}
    (hcheck : check ≠ .checksums) :
    check.verdicts l m (d.rewritten n dir content mode) = check.verdicts l m d := by
  have hdescriptor : Bundle.descriptorName ∈ checkedNames := by decide
  cases check with
  | checksums => exact absurd rfl hcheck
  | coverage => rw [verdicts, verdicts, discover_rewritten h]
  | syncFiles =>
    rw [verdicts, verdicts, bundleDirs_rewritten h]
    exact mapM_congr fun bundle _ => by rw [hasSyncFile, hasSyncFile, Disk.isFile_rewritten h]
  | manualEdits =>
    refine mapM_congr fun artifact hartifact => ?_
    obtain ⟨e, he, rfl⟩ := List.mem_map.1 hartifact
    exact attested_rewritten h (honly.mapped e he _ hdescriptor)
  | manifestIntegrity => rfl
  | schemaCompatibility =>
    rw [verdicts, verdicts, bundleDirs_rewritten h]
    exact mapM_congr fun bundle hbundle =>
      wellFormed_rewritten h (honly.found bundle hbundle _ hdescriptor)

end

/-- What is said of a mapped model once the file of `source`, which held `old`, holds `content`. -/
def verdictAfter (source : Text) (old content : Bytes) (e : Text × Text) : Verdict :=
  if e.1 = source ∧ Sha256.digest content ≠ Sha256.digest old then
    .drifted (Layout.driftWarning e.1 e.2)
  else .fine

theorem verdictAfter_of_ne {e : Text × Text} (h : e.1 ≠ source) :
    verdictAfter source old content e = .fine := if_neg fun hdrift => h hdrift.1

theorem verdictAfter_of_eq (h : Sha256.digest content = Sha256.digest old) (e : Text × Text) :
    verdictAfter source old content e = .fine := if_neg fun hdrift => hdrift.2 h

/-- The verdicts on all models, if nothing was wrong with any. -/
theorem verdicts_checksums_rewritten (h : d.tree.get? (n :: dir) = some (.file old oldMode))
    (hsource : d.find (l.resolve source) = .ok (n :: dir, .file old oldMode))
    (honly : l.IsOnlyModel m d source (n :: dir))
    (hfine : ∀ e ∈ m.mappings.toList, unchanged l d e.1 e.2 = .ok .fine) :
    checksums.verdicts l m (d.rewritten n dir content mode) =
      .ok (m.mappings.toList.map (verdictAfter source old content)) := by
  refine mapM_eq_map fun e he => ?_
  have hrecord := honly.mapped e he SyncRecord.fileName (by decide)
  by_cases hown : e.1 = source
  · rw [unchanged_rewritten h (hown ▸ hsource) hrecord (hfine e he)]
    by_cases hsame : Sha256.digest content = Sha256.digest old
    · rw [if_pos hsame, verdictAfter_of_eq hsame]
    · rw [if_neg hsame, verdictAfter, if_pos ⟨hown, hsame⟩]
  · rw [unchanged_rewritten_of_not_leadsTo h (honly.sole e he hown) hrecord, hfine e he,
      verdictAfter_of_ne hown]

/-- One of the verdicts is about the model itself. -/
theorem exists_verdictAfter (hmapped : m.artifactOf? source = some artifact)
    (hdrift : Sha256.digest content ≠ Sha256.digest old) : ∃ before after : List Verdict,
      m.mappings.toList.map (verdictAfter source old content) =
        before ++ .drifted (Layout.driftWarning source artifact) :: after ∧
      ∀ v ∈ before ++ after, v = .fine := by
  obtain ⟨before, after, hentries, hothers⟩ := Dict.exists_toList_eq hmapped
  refine ⟨before.map (verdictAfter source old content), after.map (verdictAfter source old content),
    ?_, fun v hv => ?_⟩
  · rw [hentries, List.map_append, List.map_cons, verdictAfter, if_pos ⟨rfl, hdrift⟩]
  · rw [← List.map_append] at hv
    obtain ⟨e, he, rfl⟩ := List.mem_map.1 hv
    exact verdictAfter_of_ne (hothers e he)

end Check

/-! ### The report on a model that drifted -/

namespace Report

variable {m : Manifest} {source artifact : Text}

/-- What is said about the checksums after one model has drifted. -/
def driftMessage : Text := "1 sources drifted or missing"

/-- The report after one model has drifted, which changes the result of one check. -/
def drifted (r : Report) (source artifact : Text) : Report where
  valid := false
  checks := r.checks.map fun c =>
    if c.name = Check.checksums.name then { name := c.name, passed := false, message := driftMessage }
    else c
  errors := r.errors
  warnings := r.warnings ++ [Layout.driftWarning source artifact]

/-- The result of the checksums if all models but one are fine. -/
theorem result_of_one_drifted {before after : List Verdict} {warning : Text}
    (h : ∀ v ∈ before ++ after, v = .fine) :
    result m .checksums (before ++ .drifted warning :: after) =
      { name := Check.checksums.name, passed := false, message := driftMessage } := by
  have hcount : ∀ vs : List Verdict, (∀ v ∈ vs, v = .fine) → vs.countP (·.isFailure) = 0 :=
    fun vs hvs => List.countP_eq_zero.2 fun v hv => by rw [hvs v hv]; exact Bool.false_ne_true
  have hbefore := hcount before fun v hv => h v (List.mem_append_left _ hv)
  have hafter := hcount after fun v hv => h v (List.mem_append_right _ hv)
  have hany : (before ++ .drifted warning :: after).any (·.isFailure) = true :=
    List.any_eq_true.2 ⟨_, List.mem_append_right _ List.mem_cons_self, rfl⟩
  have hmessage : Text.ofNat 1 ++ " sources drifted or missing" = driftMessage := by decide
  rw [result, Check.summary, hany, if_pos rfl, List.countP_append, List.countP_cons, hbefore, hafter]
  exact congrArg (CheckResult.mk Check.checksums.name false) hmessage

theorem filterMap_of_one_drifted {before after : List Verdict} {v : Verdict}
    (h : ∀ v ∈ before ++ after, v = .fine) {f : Verdict → Option Text} (hf : f .fine = none) :
    (before ++ v :: after).filterMap f = (f v).toList := by
  have hnone : ∀ vs : List Verdict, (∀ v ∈ vs, v = .fine) → vs.filterMap f = [] :=
    fun vs hvs => List.filterMap_eq_nil_iff.2 fun v hv => by rw [hvs v hv, hf]
  rw [List.filterMap_append, hnone before fun v hv => h v (List.mem_append_left _ hv),
    List.nil_append, List.filterMap_cons, hnone after fun v hv => h v (List.mem_append_right _ hv)]
  cases f v <;> rfl

/-- One drifted model makes of a report without findings its drifted form. -/
theorem ofVerdicts_of_one_drifted {f g : Check → List Verdict} {before after : List Verdict}
    (hfine : ∀ check ∈ Check.all, ∀ v ∈ f check, v = .fine)
    (hsame : ∀ check ∈ Check.all, check ≠ .checksums → g check = f check)
    (hchecksums : g .checksums = before ++ .drifted (Layout.driftWarning source artifact) :: after)
    (h : ∀ v ∈ before ++ after, v = .fine) :
    ofVerdicts m (Check.all.map fun check => (check, g check)) =
      (ofVerdicts m (Check.all.map fun check => (check, f check))).drifted source artifact := by
  have hresult : ∀ check ∈ Check.all, result m check (g check) =
      if check.name = Check.checksums.name then
        { name := check.name, passed := false, message := driftMessage }
      else result m check (f check) := fun check hcheck => by
    by_cases hown : check = .checksums
    · subst hown
      rw [hchecksums, result_of_one_drifted h, if_pos rfl]
    · rw [hsame check hcheck hown, if_neg]
      cases check <;> first | exact absurd rfl hown | decide
  -- what the verdicts say of errors or warnings comes from the one that is not fine
  have hfound : ∀ k : Verdict → Option Text, k .fine = none →
      (Check.all.flatMap fun check => (g check).filterMap k) =
        (Check.all.flatMap fun check => (f check).filterMap k) ++
          (k (.drifted (Layout.driftWarning source artifact))).toList := fun k hk => by
    have hf : ∀ check ∈ Check.all, (f check).filterMap k = [] := fun check hcheck =>
      List.filterMap_eq_nil_iff.2 fun v hv => by rw [hfine check hcheck v hv, hk]
    have hg : ∀ check ∈ Check.all, (g check).filterMap k =
        if check = .checksums then (k (.drifted (Layout.driftWarning source artifact))).toList
        else [] := fun check hcheck => by
      by_cases hown : check = .checksums
      · rw [hown, hchecksums, filterMap_of_one_drifted h hk, if_pos rfl]
      · rw [hsame check hcheck hown, hf check hcheck, if_neg hown]
    rw [List.flatMap_congr hf, List.flatMap_congr hg]
    cases k (.drifted (Layout.driftWarning source artifact)) <;> rfl
  have hinvalid : Check.all.all (fun check => !(g check).any (·.isFailure)) = false := by
    refine List.all_eq_false.2 ⟨.checksums, by decide, ?_⟩
    have hpassed := congrArg CheckResult.passed (hresult .checksums (by decide))
    rw [if_pos rfl] at hpassed
    exact fun hpasses => Bool.noConfusion (hpassed.symm.trans hpasses)
  rw [ofVerdicts, ofVerdicts, drifted]
  simp only [List.map_map, List.flatMap_map, List.all_map, Function.comp_def]
  rw [hinvalid, hfound _ rfl, hfound _ rfl, List.map_congr_left hresult]
  exact congrArg (fun errors => Report.mk false _ errors _) (List.append_nil _)

end Report

/-! ### The project -/

section Loading

variable {l : Layout} {d : Disk} {n : Text} {dir : Address} {old content : Bytes}
  {oldMode mode : Bool} (h : d.tree.get? (n :: dir) = some (.file old oldMode))

include h

/-- A project is the same as long as its configuration is. -/
theorem Project.load_rewritten {path : Text} {p : Project} (hp : Project.load path d = .ok p)
    (hpath : ¬ d.LeadsTo p.layout.configPath (n :: dir)) :
    Project.load path (d.rewritten n dir content mode) = .ok p := by
  have hroot := (layout_of_load hp).1
  rw [load, hroot] at hp
  rw [load, Disk.canonical_rewritten h, hroot]
  show (if (d.rewritten n dir content mode).isFile p.layout.configPath = true then _ else _) = _
  rw [Disk.isFile_rewritten h]
  show (if d.isFile p.layout.configPath = true then
    ((d.rewritten n dir content mode).read p.layout.configPath).mapError _ >>= _ else _) = _
  rw [Disk.read_rewritten_of_not_leadsTo h hpath]
  exact hp

/-- So is its manifest. -/
theorem Manifest.load_rewritten (hpath : ¬ d.LeadsTo l.manifestPath (n :: dir)) :
    Manifest.load l (d.rewritten n dir content mode) = Manifest.load l d := by
  rw [load, load, Disk.isThere_rewritten h, Disk.read_rewritten_of_not_leadsTo h hpath]

end Loading

/-- **A model that drifts is noticed, and nothing else is.** A project was validated without errors
and warnings, and then the file of a mapped model that plays no other part is written again. All
checks but that of the checksums have the results they had before. That check has its result too if
the digest of the file is the same, and otherwise fails with one warning, which names the model.

If the file is neither the configuration nor the manifest of the project, then the project and its
manifest are still what they were. -/
theorem Layout.drift_detected {l : Layout} {m : Manifest} {d : Disk} {r : Report}
    {source artifact n : Text} {dir : Address} {old : Bytes} {oldMode : Bool}
    (hreport : l.validate m d = .ok r) (hvalid : r.valid = true) (hquiet : r.warnings = [])
    (hmapped : m.artifactOf? source = some artifact)
    (hsource : d.find (l.resolve source) = .ok (n :: dir, .file old oldMode))
    (honly : l.IsOnlyModel m d source (n :: dir)) (content : Bytes) (mode : Bool) :
    let d' := d.rewritten n dir content mode
    (r.checks.map (·.name) = Check.all.map Check.name ∧ (∀ c ∈ r.checks, c.passed = true) ∧
      r.errors = []) ∧
    l.validate m d' =
      .ok (if Sha256.digest content = Sha256.digest old then r else r.drifted source artifact) ∧
    (¬ d.LeadsTo l.manifestPath (n :: dir) → Manifest.load l d' = Manifest.load l d) ∧
    ∀ path p, Project.load path d = .ok p → p.layout = l →
      ¬ d.LeadsTo l.configPath (n :: dir) → Project.load path d' = .ok p := by
  intro d'
  have h : d.tree.get? (n :: dir) = some (.file old oldMode) := Disk.get?_of_find hsource
  obtain ⟨f, hf, rfl⟩ := exists_fine_of_validate hreport hvalid hquiet
  have hpassed : ∀ check ∈ Check.all, (Report.result m check (f check)).passed = true :=
    fun check hcheck => List.all_eq_true.1 hvalid _ (List.mem_map_of_mem hcheck)
  have hfine : ∀ e ∈ m.mappings.toList, Check.unchanged l d e.1 e.2 = .ok .fine := by
    obtain ⟨hverdicts, hall⟩ := hf .checksums (by decide)
    exact forall_of_mapM hverdicts hall
  have hchecksums : Check.checksums.verdicts l m d' =
      .ok (m.mappings.toList.map (Check.verdictAfter source old content)) :=
    Check.verdicts_checksums_rewritten h hsource honly hfine
  refine ⟨⟨rfl, ?_, ?_⟩, ?_, fun hmanifest => Manifest.load_rewritten h hmanifest,
    fun path p hp hl hconfig => Project.load_rewritten h hp (hl ▸ hconfig)⟩
  · intro c hc
    obtain ⟨e, he, rfl⟩ := List.mem_map.1 hc
    obtain ⟨check, hcheck, rfl⟩ := List.mem_map.1 he
    exact hpassed check hcheck
  · refine List.flatMap_eq_nil_iff.2 fun e he => ?_
    obtain ⟨check, hcheck, rfl⟩ := List.mem_map.1 he
    exact List.filterMap_eq_nil_iff.2 fun v hv => by rw [(hf check hcheck).2 v hv]; rfl
  have hg : ∀ check ∈ Check.all, check.verdicts l m d' = .ok (Function.update f .checksums
      (m.mappings.toList.map (Check.verdictAfter source old content)) check) :=
    fun check hcheck => by
      by_cases hown : check = .checksums
      · rw [hown, hchecksums, Function.update_self]
      · rw [Check.verdicts_rewritten h honly hown, (hf check hcheck).1, Function.update_of_ne hown]
  rw [validate_eq hg]
  by_cases hsame : Sha256.digest content = Sha256.digest old
  · have hnothing : m.mappings.toList.map (Check.verdictAfter source old content) = f .checksums := by
      rw [List.map_congr_left fun e _ => Check.verdictAfter_of_eq hsame e]
      exact Except.ok.inj ((mapM_eq_map hfine).symm.trans (hf .checksums (by decide)).1)
    rw [if_pos hsame, hnothing, Function.update_eq_self]
  · obtain ⟨before, after, hverdicts, hothers⟩ := Check.exists_verdictAfter hmapped hsame
    rw [if_neg hsame, Report.ofVerdicts_of_one_drifted (fun check hcheck => (hf check hcheck).2)
      (fun check _ hown => Function.update_of_ne hown _ _)
      ((Function.update_self _ _ _).trans hverdicts) hothers]

/-! ### A model that drifts -/

/-- A disk with the project `/p`: one model and its bundle, whose sync record is up to date. -/
def sampleCurrent : Disk where
  tree := .ofEntries
    [("p", [], .directory), ("axioms", ["p"], .directory),
      ("m.fcm", ["axioms", "p"], .file [0x78] false), ("actions", ["p"], .directory),
      ("d", ["actions", "p"], .directory), ("s", ["d", "actions", "p"], .directory),
      (".bridge-sync", ["s", "d", "actions", "p"],
        .file (Text.utf8 (SyncRecord.toJson
          ⟨"axioms/m.fcm", "", "1", Sha256.checksum [0x78]⟩).pretty) false),
      ("action.yml", ["s", "d", "actions", "p"],
        .file (Text.utf8 ("# Generated from axioms/m.fcm\n# DO NOT EDIT\n".toList ++
          "name: S\nruns:\n  using: docker\n".toList)) false)]

/-- Its model drifts when it is emptied. -/
theorem drift_detected_sampleCurrent : ∃ r,
    sampleLayout.validate sampleManifest sampleCurrent = .ok r ∧ r.valid = true ∧
      r.warnings = [] ∧
      sampleLayout.IsOnlyModel sampleManifest sampleCurrent "axioms/m.fcm"
        ["m.fcm", "axioms", "p"] ∧
      sampleLayout.validate sampleManifest
        (sampleCurrent.rewritten "m.fcm" ["axioms", "p"] [] false) =
          .ok (r.drifted "axioms/m.fcm" "actions/d/s") := by
  have hclean : (sampleLayout.validate sampleManifest sampleCurrent).toOption.any
      (fun r => r.valid ∧ r.warnings = []) = true := by
    decide +kernel
  have hdigest : Sha256.digest [] ≠ Sha256.digest [0x78] := by decide +kernel
  have honly : sampleLayout.IsOnlyModel sampleManifest sampleCurrent "axioms/m.fcm"
      ["m.fcm".toList, "axioms", "p"] := by
    decide +kernel
  have hmapped : sampleManifest.artifactOf? "axioms/m.fcm" = some "actions/d/s".toList := by decide
  have hsource : sampleCurrent.find (sampleLayout.resolve "axioms/m.fcm") =
      .ok (["m.fcm".toList, "axioms", "p"], .file [0x78] false) := by
    decide +kernel
  cases hreport : sampleLayout.validate sampleManifest sampleCurrent with
  | error e =>
    rw [hreport] at hclean
    cases hclean
  | ok r =>
    rw [hreport] at hclean
    obtain ⟨hvalid, hquiet⟩ := of_decide_eq_true hclean
    obtain ⟨-, hdrifted, -⟩ :=
      Layout.drift_detected hreport hvalid hquiet hmapped hsource honly [] false
    rw [if_neg hdigest] at hdrifted
    exact ⟨r, rfl, hvalid, hquiet, honly, hdrifted⟩

end ActionBundles
