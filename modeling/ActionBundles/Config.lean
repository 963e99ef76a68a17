import ActionBundles.Failure
import ActionBundles.Json.Decode
import ActionBundles.Json.Printer
import ActionBundles.Json.Reader
import ActionBundles.Path

/-!
# Configurations

A project may configure where its models and actions are, how models are read, and what stands in
where a model says nothing. `Config.read` takes a configuration from a JSON document in which any
field may be missing, and refuses one whose directories, image or domain cannot be used.
-/

namespace ActionBundles

/-- The choices of a project. -/
structure Config where
  /-- The directory of the models, relative to the project. -/
  modelsDir : Text := "axioms"
  /-- The directory of the generated actions, relative to the project. -/
  actionsDir : Text := "actions"
  mode : ParseMode := .permissive
  /-- The image for models that name none. -/
  defaultImage : Text := "python:3.11-slim"
  /-- The domain for models that have none. -/
  defaultDomain : Text := "core"
  deriving DecidableEq

namespace Config

/-! ### What can be used -/

/-- Whether a path may be a directory of the project: it is not blank, starts in the project and
does not go up. -/
def isInside (path : Text) : Bool :=
  Text.trim path ≠ [] && !Path.isAbsolute path && Component.up ∉ Path.components path

/-- Refuses a path that may not be a directory of the project. -/
def checkDirectory (label path : Text) : Except Failure Unit :=
  if isInside path then .ok () else .error (.badDirectory label path)

/-- The path without the slashes at its end. -/
def trimSlashes (path : Text) : Text := (path.reverse.dropWhile (· = '/')).reverse

/-- Refuses a configuration that cannot be used. -/
def check (c : Config) : Except Failure Unit := do
  checkDirectory "models_dir" c.modelsDir
  checkDirectory "actions_dir" c.actionsDir
  if trimSlashes c.modelsDir = trimSlashes c.actionsDir then throw .sameDirectories
  if Text.trim c.defaultImage = [] then throw .blankImage
  if Text.trim c.defaultDomain = [] || '/' ∈ c.defaultDomain then throw (.badDomain c.defaultDomain)

/-! ### Stored configurations -/

/-- The version of the rules that stored configurations follow. -/
def formatVersion : Nat := 1

/-- The word for a mode. -/
def modeWord : ParseMode → Text
  | .permissive => "permissive"
  | .strict => "strict"

/-- The mode that a word names. -/
def modeOfWord? (word : Text) : Option ParseMode :=
  [ParseMode.permissive, .strict].find? fun mode => modeWord mode = word

/-- The mode that a JSON value names: a word, or an object with the word as its only key and
nothing under it. -/
def mode? : Json → Option ParseMode
  | .string word => modeOfWord? word
  | .object [(word, .null)] => modeOfWord? word
  | _ => none

/-- The configuration as it is stored. -/
def toJson (c : Config) : Json :=
  .object
    [("schema_version", Json.ofNat formatVersion), ("models_dir", .string c.modelsDir),
      ("actions_dir", .string c.actionsDir), ("parse_mode", .string (modeWord c.mode)),
      ("default_image", .string c.defaultImage), ("default_domain", .string c.defaultDomain)]

/-- A stored configuration with the version of its rules. -/
def ofJson? (j : Json) : Option (Nat × Config) := do
  let fields ← Json.fields?
    ["schema_version", "models_dir", "actions_dir", "parse_mode", "default_image",
      "default_domain"] j
  match fields with
  | [version, models, actions, mode, image, domain] => do
    let initial : Config := {}
    let version ← Json.orElse? formatVersion Json.word? version
    let modelsDir ← Json.orElse? initial.modelsDir Json.text? models
    let actionsDir ← Json.orElse? initial.actionsDir Json.text? actions
    let mode ← Json.orElse? initial.mode mode? mode
    let defaultImage ← Json.orElse? initial.defaultImage Json.text? image
    let defaultDomain ← Json.orElse? initial.defaultDomain Json.text? domain
    return (version, { modelsDir, actionsDir, mode, defaultImage, defaultDomain })
  | _ => none

/-- The configuration of a document at `path`. -/
def read (path : Text) (bytes : Bytes) : Except Failure Config := do
  match (Json.read? bytes).bind ofJson? with
  | none => throw (.during (.parseConfig path) .badJson)
  | some (version, c) =>
    unless version = formatVersion do throw (.configVersion version)
    c.check
    return c

/-- The document of a configuration. -/
def render (c : Config) : Text := c.toJson.pretty

end Config

end ActionBundles
