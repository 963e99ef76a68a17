import ActionBundles.Json.Decode
import ActionBundles.Json.Printer
import ActionBundles.Json.Reader
import ActionBundles.Layout
import ActionBundles.Manifest.Basic

/-!
# Stored manifests

A manifest is stored whole as a JSON document. It is written beside its place and moved there, so
that no reader meets half of it. Whoever changes it holds a lock on a file of its own.
-/

namespace ActionBundles

namespace GeneratedRecord

/-- The record as it is stored. -/
def toJson (r : GeneratedRecord) : Json :=
  .object
    [("source_path", .string r.source), ("generated_at", .string r.generatedAt),
      ("source_version", .string r.version)]

/-- A stored record. -/
def ofJson? (j : Json) : Option GeneratedRecord := do
  match ← Json.fields? ["source_path", "generated_at", "source_version"] j with
  | [source, generatedAt, version] => do
    let source ← Json.required? Json.text? source
    let generatedAt ← Json.required? Json.text? generatedAt
    let version ← Json.required? Json.text? version
    return { source, generatedAt, version }
  | _ => none

end GeneratedRecord

namespace Manifest

/-- The version of the rules that stored manifests follow. -/
def formatVersion : Nat := 1

/-- The mappings as they are stored. -/
def mappingsJson (m : Manifest) : Json :=
  .object (m.mappings.toList.map fun e => (e.1, .string e.2))

/-- The records as they are stored. -/
def generatedJson (m : Manifest) : Json :=
  .object (m.generated.toList.map fun e => (e.1, e.2.toJson))

/-- The manifest as it is stored. -/
def toJson (m : Manifest) : Json :=
  .object
    [("schema_version", Json.ofNat formatVersion), ("mappings", m.mappingsJson),
      ("generated", m.generatedJson)]

/-- A stored manifest with the version of its rules. -/
def ofJson? (j : Json) : Option (Nat × Manifest) := do
  match ← Json.fields? ["schema_version", "mappings", "generated"] j with
  | [version, mappings, generated] => do
    let version ← Json.orElse? formatVersion Json.word? version
    let mappings ← Json.orElse? .empty (Json.dict? Json.text?) mappings
    let generated ← Json.orElse? .empty (Json.dict? GeneratedRecord.ofJson?) generated
    return (version, { mappings, generated })
  | _ => none

/-- The document of a manifest. -/
def render (m : Manifest) : Text := m.toJson.pretty ++ ['\n']

/-- The manifest of a document at `path`. -/
def read (path : Text) (bytes : Bytes) : Except Failure Manifest :=
  match (Json.read? bytes).bind ofJson? with
  | none => .error (.during (.parseManifest path) .badJson)
  | some (version, m) =>
    if version = formatVersion then .ok m else .error (.manifestVersion version path)

/-- The manifest of a project; an empty one if none is stored. -/
def load (l : Layout) (d : Disk) : Except Failure Manifest :=
  if d.isThere l.manifestPath then
    match d.read l.manifestPath with
    | .error e => .error (.refused (.readManifest l.manifestPath) e)
    | .ok bytes => read l.manifestPath bytes
  else .ok {}

/-- Stores the manifest of a project. -/
def save [Medium] (l : Layout) (m : Manifest) : Action Failure Unit := do
  let draft := Path.join l.bridgeDir ".manifest.json.tmp"
  (Disk.makeDirectories l.bridgeDir).within (.create l.bridgeDir)
  (Disk.write draft m.render.utf8).within (.write draft)
  (Disk.move draft l.manifestPath).within (.writeManifest l.manifestPath)

/-- Takes the lock on the manifest of a project. -/
def lock [Medium] (l : Layout) : Action Failure Unit := do
  (Disk.makeDirectories l.bridgeDir).within (.create l.bridgeDir)
  (Disk.touch l.lockPath).within (.openLock l.lockPath)

end Manifest

end ActionBundles
