import ActionBundles.Bundle.Basic
import ActionBundles.Manifest.Storage
import ActionBundles.Model.Parser
import ActionBundles.Transaction

/-!
# Generating actions

To generate the action of a model is to read the model, to render its bundle, to publish the bundle
as one transaction, and to put that on record in the manifest. An artifact belongs to the model that
it is on record for; another model may take it only if that model's file is gone.
-/

namespace ActionBundles

/-- A project: its layout and its configuration. -/
structure Project where
  layout : Layout
  config : Config
  deriving DecidableEq

/-- What a run takes from outside: the time, and the name of its transactions. -/
structure Occasion where
  time : Text
  transactionName : Text
  deriving DecidableEq

/-- What was generated. -/
structure Generated where
  /-- The model, from the root of the project. -/
  source : Text
  /-- The directory of the bundle, from the root of the project. -/
  artifact : Text
  identity : Identity
  /-- The checksum of the model's bytes. -/
  checksum : Text
  /-- The files of the bundle. -/
  files : List Text
  deriving DecidableEq

/-- The project at a path, with its stored configuration or the default one. -/
def Project.load (path : Text) (d : Disk) : Except Failure Project := do
  let root ← (d.canonical path).mapError (.refused (.resolveRoot path))
  let configPath := (Layout.ofConfig root {}).configPath
  if d.isFile configPath then
    let bytes ← (d.read configPath).mapError (.refused (.readConfig configPath))
    let config ← Config.read configPath bytes
    return ⟨.ofConfig root config, config⟩
  else return ⟨.ofConfig root {}, {}⟩

/-! ### Reading models -/

namespace Model

/-- The text of a model file. -/
def readText (path : Text) (d : Disk) : Except Failure Text :=
  match d.read path with
  | .error .notFound => .error (.modelNotFound path)
  | .error e => .error (.modelUnreadable path (.os e))
  | .ok bytes =>
    match Text.ofUtf8? bytes with
    | none => .error (.modelUnreadable path .notText)
    | some text => .ok text

/-- The model that a text from a file holds. -/
def ofText (path : Text) (mode : ParseMode) (text : Text) : Except Failure Model :=
  (parse mode text).mapError (.badModel path)

/-- The model in a file. -/
def readFile (path : Text) (mode : ParseMode) (d : Disk) : Except Failure Model :=
  (readText path d).bind (ofText path mode)

end Model

namespace Project

/-- The file that a model is given by: as it is if it is an absolute path or leads to something,
and from the root of the project otherwise. -/
def modelFile (l : Layout) (path : Text) (d : Disk) : Except Failure Text :=
  let candidate := if Path.isAbsolute path || d.isThere path then path else l.resolve path
  (d.canonical candidate).mapError fun _ => .modelNotFound candidate

/-! ### Generating one action -/

/-- What is generated for a model, before anything is written. -/
structure Plan where
  /-- The model, from the root of the project. -/
  source : Text
  /-- The directory of the bundle, from the root of the project. -/
  artifact : Text
  identity : Identity
  bundle : Bundle
  deriving DecidableEq

/-- The plan for the model that is given by a path. -/
def plan (p : Project) (occasion : Occasion) (path : Text) (d : Disk) : Except Failure Plan := do
  let file ← modelFile p.layout path d
  let source ← (p.layout.relative file).mapError fun _ => .modelOutside file
  let text ← Model.readText file d
  let model ← Model.ofText file p.config.mode text
  let identity := Identity.resolve model file p.config.defaultDomain
  return {
    source, identity
    artifact := p.layout.artifact identity.domain identity.slug
    bundle := Bundle.render model identity source text.utf8 occasion.time p.config.defaultImage }

/-- The manifest after a model has claimed an artifact. A model on record for it that is still
there keeps it; one that is gone is forgotten. -/
def claim (l : Layout) (m : Manifest) (source artifact : Text) (d : Disk) :
    Except Failure Manifest :=
  match m.recordOf? artifact with
  | none => .ok m
  | some record =>
    if record.source = source then .ok m
    else if d.isFile (l.resolve record.source) then
      .error (.collision artifact record.source source)
    else .ok (m.forget record.source)

/-- Publishes the bundle of a plan and returns its files. -/
def publish [Medium] (l : Layout) (occasion : Occasion) (plan : Plan) :
    Action Failure (List Text) :=
  Transaction.run l.transactionsDir occasion.transactionName fun t => do
    let place (name : Text) : Text := plan.artifact ++ '/' :: name
    t.stage (place Bundle.descriptorName) plan.bundle.descriptor.utf8
    t.stage (place Bundle.dockerfileName) plan.bundle.dockerfile.utf8
    t.stageExecutable (place Bundle.entrypointName) plan.bundle.entrypoint.utf8
    t.stageJson (place SyncRecord.fileName) plan.bundle.sync.toJson
    (t.publish l.root).during (.publishBundle plan.artifact)

/-- The record of a plan that has been carried out. -/
def Plan.record (plan : Plan) : GeneratedRecord where
  source := plan.source
  generatedAt := plan.bundle.sync.generated
  version := plan.bundle.sync.version

/-- Generates the action of a model. The manifest that is given is the one of the project as it is
stored; the one that is returned has been stored. -/
def generate [Medium] (p : Project) (occasion : Occasion) (m : Manifest) (path : Text) :
    Action Failure (Generated × Manifest) := do
  let plan ← Action.consult (p.plan occasion path)
  let m ← Action.consult (claim p.layout m plan.source plan.artifact)
  let files ← publish p.layout occasion plan
  let m := m.upsert plan.source plan.artifact plan.record
  m.save p.layout
  return ({
    source := plan.source
    artifact := plan.artifact
    identity := plan.identity
    checksum := plan.bundle.sync.checksum
    files }, m)

/-! ### Generating all actions -/

/-- The outcome for each model of a batch. -/
abbrev Batch := List (Text × Except Failure Generated)

/-- Generates the actions of models one after another. A model that fails does not stop the others,
but the manifest is read again after it. -/
def generateEach [Medium] (p : Project) (occasion : Occasion) (m : Manifest) :
    List Text → StateM Disk (Batch × Option Failure)
  | [] => return ([], none)
  | path :: rest => do
    match ← (p.generate occasion m path).run with
    | .ok (generated, m) =>
      let (batch, stop) ← p.generateEach occasion m rest
      return ((path, .ok generated) :: batch, stop)
    | .error e =>
      match Manifest.load p.layout (← get) with
      | .error stop => return ([], some stop)
      | .ok m =>
        let (batch, stop) ← p.generateEach occasion m rest
        return ((path, .error e) :: batch, stop)

end Project

end ActionBundles
