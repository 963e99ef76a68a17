import ActionBundles.Failure
import ActionBundles.Json.Decode
import ActionBundles.Json.Printer
import ActionBundles.Json.Reader
import ActionBundles.Path

/-!
# Sync records

A sync record ties a bundle to the exact bytes of the model that it was generated from.
-/

namespace ActionBundles

/-- What a bundle was generated from, and when. -/
structure SyncRecord where
  /-- The path of the model in the project. -/
  source : Text
  /-- When the bundle was generated. -/
  generated : Text
  /-- The version that the model declared. -/
  version : Text
  /-- The checksum of the model's bytes. -/
  checksum : Text
  deriving DecidableEq

namespace SyncRecord

/-- The name of the file that holds the record of a bundle. -/
def fileName : Text := ".bridge-sync"

/-- The record as it is stored. -/
def toJson (r : SyncRecord) : Json :=
  .object
    [("source", .string r.source), ("generated", .string r.generated),
      ("version", .string r.version), ("checksum", .string r.checksum)]

/-- A stored record. -/
def ofJson? (j : Json) : Option SyncRecord := do
  match ← Json.fields? ["source", "generated", "version", "checksum"] j with
  | [source, generated, version, checksum] => do
    let source ← Json.required? Json.text? source
    let generated ← Json.required? Json.text? generated
    let version ← Json.required? Json.text? version
    let checksum ← Json.required? Json.text? checksum
    return { source, generated, version, checksum }
  | _ => none

/-- The record of the bundle in a directory, if there is a file for it. -/
def load? (d : Disk) (dir : Text) : Except Failure (Option SyncRecord) :=
  let path := Path.join dir fileName
  if d.isFile path then
    match d.read path with
    | .error e => .error (.refused (.read path) e)
    | .ok bytes =>
      match (Json.read? bytes).bind ofJson? with
      | none => .error (.during (.parseSyncRecord path) .badJson)
      | some record => .ok (some record)
  else .ok none

end SyncRecord

end ActionBundles
