import ActionBundles.Generation
import ActionBundles.Validation.Report
import ActionBundles.Validation.Schema

/-!
# Checks

A check goes through the items that it is about, models or bundles or entries of the manifest, and
comes to a verdict on each. It is passed if no verdict is a failure. What is wrong with an item
never keeps a check from going on; a check ends early only if something cannot be read at all.

* `coverage`: every model is mapped.
* `syncFiles`: every bundle has a sync record.
* `checksums`: every mapped model has the checksum of its sync record.
* `manualEdits`: every mapped descriptor has its header.
* `manifestIntegrity`: every mapped artifact is on record.
* `schemaCompatibility`: every descriptor is as it should be.
-/

namespace ActionBundles

/-- The checks, by what they are about. -/
inductive Check where
  | coverage
  | syncFiles
  | checksums
  | manualEdits
  | manifestIntegrity
  | schemaCompatibility
  deriving DecidableEq

/-- What a check says about an item. -/
inductive Verdict where
  | fine
  /-- The item fails. -/
  | failed (error : Text)
  /-- The item fails, but not because something is broken. -/
  | drifted (warning : Text)
  /-- Something is worth a warning. -/
  | noted (warning : Text)
  deriving DecidableEq

namespace Verdict

/-- Whether the item fails. -/
def isFailure : Verdict → Bool
  | .failed _ => true
  | .drifted _ => true
  | _ => false

/-- The error of a verdict. -/
def error? : Verdict → Option Text
  | .failed error => some error
  | _ => none

/-- The warning of a verdict. -/
def warning? : Verdict → Option Text
  | .drifted warning => some warning
  | .noted warning => some warning
  | _ => none

end Verdict

namespace Check

/-- All checks, in the order in which they are made. -/
def all : List Check :=
  [.coverage, .syncFiles, .checksums, .manualEdits, .manifestIntegrity, .schemaCompatibility]

/-- The name of a check. -/
def name : Check → Text
  | .coverage => "coverage"
  | .syncFiles => "sync_files"
  | .checksums => "checksums"
  | .manualEdits => "manual_edits"
  | .manifestIntegrity => "manifest_integrity"
  | .schemaCompatibility => "schema_compatibility"

variable (l : Layout) (m : Manifest) (d : Disk)

/-! ### Verdicts on single items -/

/-- Whether a model is mapped. -/
def mapped (model : Text) : Except Failure Verdict :=
  (l.relative model).map fun rel =>
    if (m.artifactOf? rel).isSome then .fine
    else .failed ("coverage: " ++ rel ++ " has no manifest mapping")

/-- Whether a bundle has a sync record. -/
def hasSyncFile (dir : Text) : Except Failure Verdict :=
  if d.isFile (Path.join dir SyncRecord.fileName) then .ok .fine
  else (l.relative dir).map fun rel =>
    .failed ("sync_files: " ++ rel ++ " has no " ++ SyncRecord.fileName)

/-- Whether a mapped model is as it was when its bundle was generated. -/
def unchanged (source artifact : Text) : Except Failure Verdict :=
  let path := l.resolve source
  if d.isFile path then
    match SyncRecord.load? d (l.resolve artifact) with
    | .ok none => .ok (.noted ("checksums: " ++ artifact ++ " has no sync record; skipped"))
    | .error e =>
      .ok (.noted
        ("checksums: " ++ artifact ++ " sync record unreadable (" ++ e.message ++ "); skipped"))
    | .ok (some record) =>
      match d.read path with
      | .error e => .error (.refused (.read path) e)
      | .ok bytes =>
        if Sha256.checksum bytes = record.checksum then .ok .fine
        else
          .ok (.drifted
            ("checksums: drift detected for " ++ source ++ "; " ++ artifact ++
              " was generated from different content"))
  else .ok (.failed ("checksums: mapped model " ++ source ++ " no longer exists"))

/-- The text of a descriptor. -/
def descriptorText (path : Text) : Except Failure Text :=
  match d.read path with
  | .error e => .error (.refused (.read path) e)
  | .ok bytes =>
    match Text.ofUtf8? bytes with
    | none => .error (.during (.read path) .notText)
    | some text => .ok text

/-- The path of a descriptor as it is shown. -/
def shownDescriptor (artifact : Text) : Text := artifact ++ '/' :: Bundle.descriptorName

/-- Whether a mapped descriptor has its header. -/
def attested (artifact : Text) : Except Failure Verdict :=
  let path := Path.join (l.resolve artifact) Bundle.descriptorName
  if d.isFile path then
    (descriptorText d path).map fun text =>
      if Descriptor.hasProvenance text then .fine
      else
        .failed
          ("manual_edits: " ++ shownDescriptor artifact ++
            " lacks its provenance header; possible manual edit")
  else
    .ok (.failed
      ("manual_edits: " ++ shownDescriptor artifact ++
        " is missing; provenance cannot be attested"))

/-- Whether a mapped artifact is on record. -/
def recorded (source artifact : Text) : Verdict :=
  if m.generated.contains artifact then .fine
  else
    .failed
      ("manifest_integrity: mapping " ++ source ++ " -> " ++ artifact ++ " has no generated record")

/-- Whether an artifact on record is mapped. -/
def accounted (artifact : Text) (record : GeneratedRecord) : Verdict :=
  if m.artifactOf? record.source = some artifact then .fine
  else
    .noted
      ("manifest_integrity: generated record " ++ artifact ++ " is not mapped from " ++
        record.source)

/-- Whether the descriptor of a bundle is as it should be. -/
def wellFormed (dir : Text) : Except Failure Verdict := do
  let rel ← l.relative dir
  let path := Path.join dir Bundle.descriptorName
  if d.isFile path then
    let text ← descriptorText d path
    match Descriptor.problem? text with
    | none => return .fine
    | some problem =>
      return .failed
        ("schema_compatibility: " ++ shownDescriptor rel ++ ' ' :: problem.message)
  else return .failed ("schema_compatibility: " ++ rel ++ " has no " ++ Bundle.descriptorName)

/-! ### Whole checks -/

/-- The directories of bundles: those two levels below the directory of the actions. -/
def bundleDirs : List Text := (d.subdirectories l.actionsDir).flatMap d.subdirectories

/-- The verdicts of a check. -/
def verdicts : Check → Except Failure (List Verdict)
  | .coverage => do (← l.discover d).mapM (mapped l m)
  | .syncFiles => (bundleDirs l d).mapM (hasSyncFile l d)
  | .checksums => m.mappings.toList.mapM fun e => unchanged l d e.1 e.2
  | .manualEdits => m.mappings.values.mapM (attested l d)
  | .manifestIntegrity =>
    .ok (m.mappings.toList.map (fun e => recorded m e.1 e.2) ++
      m.generated.toList.map fun e => accounted m e.1 e.2)
  | .schemaCompatibility => (bundleDirs l d).mapM (wellFormed l d)

/-- What is said about a check that made some verdicts. -/
def summary (check : Check) (verdicts : List Verdict) : Text :=
  let total := Text.ofNat verdicts.length
  let failures := Text.ofNat (verdicts.countP (·.isFailure))
  let mappings := Text.ofNat m.mappings.size
  if verdicts.any (·.isFailure) then
    match check with
    | .coverage => failures ++ " of " ++ total ++ " models unmapped"
    | .syncFiles => failures ++ " of " ++ total ++ " bundles missing sync records"
    | .checksums => failures ++ " sources drifted or missing"
    | .manualEdits => failures ++ " of " ++ total ++ " descriptors may have been edited"
    | .manifestIntegrity => failures ++ " of " ++ mappings ++ " mappings lack generated records"
    | .schemaCompatibility => failures ++ " of " ++ total ++ " descriptors incompatible"
  else
    match check with
    | .coverage => "all " ++ total ++ " models mapped"
    | .syncFiles => total ++ " bundles carry sync records"
    | .checksums =>
      Text.ofNat (verdicts.countP (· = .fine)) ++ " sources match their sync records"
    | .manualEdits => total ++ " descriptors carry provenance markers"
    | .manifestIntegrity => mappings ++ " mappings have generated records"
    | .schemaCompatibility => total ++ " descriptors are well-formed"

/-- The report with what a check found. -/
def addTo (check : Check) (verdicts : List Verdict) (r : Report) : Report :=
  r.record
    { name := check.name
      passed := !verdicts.any (·.isFailure)
      message := check.summary m verdicts }
    (verdicts.filterMap (·.error?)) (verdicts.filterMap (·.warning?))

end Check

/-! ### Validation -/

/-- Makes checks one after another and adds what they find to a report. -/
def Report.extend (l : Layout) (m : Manifest) (d : Disk) (r : Report) :
    List Check → Except Failure Report
  | [] => .ok r
  | check :: rest =>
    match check.verdicts l m d with
    | .error e => .error (.during (.runCheck check.name) e)
    | .ok verdicts => (check.addTo m verdicts r).extend l m d rest

/-- The report on a project. -/
def Layout.validate (l : Layout) (m : Manifest) (d : Disk) : Except Failure Report :=
  Report.extend l m d {} Check.all

/-- Stores a report, as text and as JSON. -/
def Report.save [Medium] (l : Layout) (r : Report) : Action Failure Unit := do
  (Disk.makeDirectories l.bridgeDir).within (.create l.bridgeDir)
  (Disk.write l.reportTextPath r.render.utf8).within (.write l.reportTextPath)
  (Disk.write l.reportJsonPath (Text.utf8 (r.toJson.pretty ++ ['\n']))).within
    (.write l.reportJsonPath)

end ActionBundles
