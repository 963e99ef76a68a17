import ActionBundles.Command.Args
import ActionBundles.Generation
import ActionBundles.Validation.Check

/-!
# Running commands

A command changes the disk and ends with an outcome: what it prints, and whether it succeeded. A
command that fails may have printed something before.
-/

namespace ActionBundles

/-- What comes of a command. -/
structure Outcome where
  /-- What it prints. -/
  output : Text
  /-- Why it failed, or whether all is well. -/
  result : Except Failure Bool

namespace Outcome

/-- The exit code. -/
def exitCode (o : Outcome) : Nat :=
  match o.result with
  | .ok true => 0
  | _ => 1

/-- The outcome of work that prints lines when it is done. -/
def ofWork (work : Action Failure (List Text × Bool)) : StateM Disk Outcome := do
  match ← work.run with
  | .ok (lines, ok) => return ⟨lines.flatMap (· ++ ['\n']), .ok ok⟩
  | .error e => return ⟨[], .error e⟩

end Outcome

namespace Config

/-- Stores a configuration. -/
def save [Medium] (l : Layout) (c : Config) : Action Failure Unit := do
  (Disk.makeDirectories l.bridgeDir).within .createBridgeDirectory
  (Disk.write l.configPath c.render.utf8).within (.write l.configPath)

end Config

namespace Command

/-- Sets up a project: its configuration and its directories. -/
def runInit [Medium] (root : Text) (force : Bool) : Action Failure (List Text × Bool) := do
  (Disk.makeDirectories root).within .createRoot
  let root ← (Action.consult (·.canonical root)).within (.resolveRoot root)
  let config : Config := {}
  let l := Layout.ofConfig root config
  if !force && (← Action.ask (·.isFile l.configPath)) then throw (.configExists l.configPath)
  config.save l
  (Disk.makeDirectories l.modelsDir).within (.create l.modelsDir)
  (Disk.makeDirectories l.actionsDir).within (.create l.actionsDir)
  return (["wrote " ++ l.configPath], true)

/-! ### Generating -/

/-- The line for a model that was generated. -/
def doneLine (label : Text) (g : Generated) : Text := "✓ " ++ label ++ " -> " ++ g.artifact

/-- The line for a model that failed. -/
def failedLine (label : Text) (e : Failure) : Text := "✗ " ++ label ++ ": " ++ e.message

/-- The name of a model in the lines of a batch. -/
def label (l : Layout) (model : Text) : Text := (l.relative model).toOption.getD model

/-- The line for a model of a batch. -/
def batchLine (l : Layout) : Text × Except Failure Generated → Text
  | (model, .ok g) => doneLine (label l model) g
  | (model, .error e) => failedLine (label l model) e

/-- The number of models that failed. -/
def failures (batch : Project.Batch) : Nat := batch.countP fun e => e.2 matches .error _

/-- The outcome of a batch of `total` models, which may have been stopped. -/
def batchOutcome (l : Layout) (total : Nat) (batch : Project.Batch) (stop : Option Failure) :
    Outcome :=
  let failed := failures batch
  let summary : Text :=
    "generated " ++ Text.ofNat (total - failed) ++ " of " ++ Text.ofNat total ++ " models"
  let lines := batch.map (batchLine l) ++ if stop.isNone then [summary] else []
  { output := lines.flatMap (· ++ ['\n'])
    result := match stop with
      | some e => .error e
      | none => if failed = 0 then .ok true else .error (.batch failed total) }

/-- The project at a path and its manifest, locked for changes. -/
def openProject [Medium] (root : Text) (strict : Bool) : Action Failure (Project × Manifest) := do
  let project ← Action.consult (Project.load root)
  let project := if strict then { project with config.mode := .strict } else project
  Manifest.lock project.layout
  let manifest ← Action.consult (Manifest.load project.layout)
  return (project, manifest)

/-- Generates the action of one model. -/
def runGenerate [Medium] (occasion : Occasion) (root model : Text) (strict : Bool) :
    Action Failure (List Text × Bool) := do
  let (project, manifest) ← openProject root strict
  let (generated, _) ← project.generate occasion manifest model
  return ([doneLine generated.source generated], true)

/-- Generates the actions of all models of a project. -/
def runGenerateAll [Medium] (occasion : Occasion) (root : Text) (strict : Bool) :
    StateM Disk Outcome := do
  let opened : Action Failure (Project × Manifest × List Text) := do
    let (project, manifest) ← openProject root strict
    return (project, manifest, ← Action.consult project.layout.discover)
  match ← opened.run with
  | .error e => return ⟨[], .error e⟩
  | .ok (project, manifest, models) =>
    if models = [] then
      return ⟨"no models found under " ++ project.layout.modelsDir ++ "\n", .ok true⟩
    else
      let (batch, stop) ← project.generateEach occasion manifest models
      return batchOutcome project.layout models.length batch stop

/-! ### Validating and inspecting -/

/-- Validates a project, stores the report and prints it. -/
def runValidate [Medium] (root : Text) (json : Bool) : StateM Disk Outcome := do
  let work : Action Failure Report := do
    let project ← Action.consult (Project.load root)
    let manifest ← Action.consult (Manifest.load project.layout)
    let report ← Action.consult (project.layout.validate manifest)
    report.save project.layout
    return report
  match ← work.run with
  | .error e => return ⟨[], .error e⟩
  | .ok report =>
    return ⟨if json then report.toJson.pretty ++ ['\n'] else report.render, .ok report.valid⟩

/-- Prints a model as JSON. -/
def runInspect (model : Text) (strict : Bool) : Action Failure (List Text × Bool) := do
  let m ← Action.consult (Model.readFile model (if strict then .strict else .permissive))
  return ([m.toJson.pretty], true)

/-- Runs a command. -/
def run [Medium] (occasion : Occasion) : Command → StateM Disk Outcome
  | .init root force => Outcome.ofWork (runInit root force)
  | .generate root (some model) strict =>
    Outcome.ofWork (runGenerate occasion root model strict)
  | .generate root none strict => runGenerateAll occasion root strict
  | .validate root json => runValidate root json
  | .inspect model strict => Outcome.ofWork (runInspect model strict)

end Command

end ActionBundles
