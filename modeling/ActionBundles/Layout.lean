import ActionBundles.Config
import ActionBundles.Disk.Walk

/-!
# The layout of a project

Where the parts of a project are: models and actions in the configured directories, everything
else in a directory of its own. `Layout.relative` gives a path as it is put on record, by its names
from the root of the project.
-/

namespace ActionBundles

/-- Where a project is and how it is laid out. -/
structure Layout where
  /-- The directory of the project. -/
  root : Text
  /-- The directory of the models, from the root. -/
  models : Text
  /-- The directory of the actions, from the root. -/
  actions : Text
  deriving DecidableEq

namespace Layout

/-- The layout of the project at `root` under a configuration. -/
def ofConfig (root : Text) (c : Config) : Layout := ⟨root, c.modelsDir, c.actionsDir⟩

variable (l : Layout)

/-- The path of something given from the root. -/
def resolve (rel : Text) : Text := Path.join l.root rel

/-- The directory of the models. -/
def modelsDir : Text := l.resolve l.models

/-- The directory of the actions. -/
def actionsDir : Text := l.resolve l.actions

/-- The directory of what is neither model nor action. -/
def bridgeDir : Text := l.resolve ".bridge"

/-- The configuration. -/
def configPath : Text := Path.join l.bridgeDir "config.json"

/-- The manifest. -/
def manifestPath : Text := Path.join l.bridgeDir "manifest.json"

/-- The file that is locked while the manifest is changed. -/
def lockPath : Text := Path.join l.bridgeDir "manifest.lock"

/-- The validation report as text. -/
def reportTextPath : Text := Path.join l.bridgeDir "validation-report.txt"

/-- The validation report as JSON. -/
def reportJsonPath : Text := Path.join l.bridgeDir "validation-report.json"

/-- The directory of the transactions. -/
def transactionsDir : Text := Path.join l.bridgeDir "txns"

/-- The directory of an action, from the root. -/
def artifact (domain slug : Text) : Text :=
  Config.trimSlashes l.actions ++ '/' :: (domain ++ '/' :: slug)

/-- The name in a component, or the component that has none. -/
def nameOf (path : Text) : Component → Except Failure Text
  | .name n => .ok n
  | other => .error (.badComponent other.describe path)

/-- A path below `root` by its names from there. -/
def relativeTo (root path : Text) : Except Failure Text :=
  match Path.after? root path with
  | none => .error (.notUnder path root)
  | some components => (components.mapM (nameOf path)).map (Text.join ['/'])

/-- A path in the project by its names from the root. -/
def relative (path : Text) : Except Failure Text := relativeTo l.root path

/-- The models of the project: the files below the directory of the models whose name ends in
`.fcm`, in order. -/
def discover (d : Disk) : Except Failure (List Text) :=
  match d.filesBelow l.modelsDir with
  | .ok files => .ok (files.filter fun path => Path.extension? path = some "fcm".toList)
  | .error e => .error (.refused (.read l.modelsDir) e)

end Layout

end ActionBundles
