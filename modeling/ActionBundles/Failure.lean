import ActionBundles.Disk.Action
import ActionBundles.Model.Irregularity

/-!
# Failures

A failure names its causes, from what was to be done down to what went wrong. `Failure.message`
puts them into one line.
-/

namespace ActionBundles

/-- What was being done when something failed. -/
inductive Work where
  | create (path : Text)
  | createRoot
  | createBridgeDirectory
  | createTransaction (dir : Text)
  | read (path : Text)
  | write (path : Text)
  | backUp (path : Text)
  | publish (path : Text)
  | publishBundle (artifact : Text)
  | resolveRoot (path : Text)
  | readConfig (path : Text)
  | parseConfig (path : Text)
  | openLock (path : Text)
  | readManifest (path : Text)
  | parseManifest (path : Text)
  | writeManifest (path : Text)
  | parseSyncRecord (path : Text)
  | runCheck (name : Text)
  deriving DecidableEq

/-- The words for a piece of work. -/
def Work.describe : Work → Text
  | .create path => "create " ++ path
  | .createRoot => "create project root"
  | .createBridgeDirectory => "create bridge dir"
  | .createTransaction dir => "create staging txn in " ++ dir
  | .read path => "read " ++ path
  | .write path => "write " ++ path
  | .backUp path => "backup " ++ path
  | .publish path => "publish " ++ path
  | .publishBundle artifact => "publish bundle " ++ artifact
  | .resolveRoot path => "resolve project root " ++ path
  | .readConfig path => "read config " ++ path
  | .parseConfig path => "parse bridge config " ++ path
  | .openLock path => "open lock " ++ path
  | .readManifest path => "read manifest " ++ path
  | .parseManifest path => "parse manifest " ++ path
  | .writeManifest path => "write manifest " ++ path
  | .parseSyncRecord path => "parse sync record " ++ path
  | .runCheck name => "run " ++ name ++ " check"

/-- Why a file cannot be read as text. -/
inductive TextError where
  | os (e : OsError)
  | notText
  deriving DecidableEq

/-- The words for a file that cannot be read as text. -/
def TextError.message : TextError → Text
  | .os e => e.message
  | .notText => "stream did not contain valid UTF-8"

/-- Why something failed. -/
inductive Failure where
  /-- Work failed because of something else. -/
  | during (work : Work) (cause : Failure)
  /-- The file system refused. -/
  | os (e : OsError)
  /-- A file is no text. -/
  | notText
  /-- A JSON document is malformed or does not hold what it should. -/
  | badJson
  /-- A manifest follows rules that are not known. -/
  | manifestVersion (version : Nat) (path : Text)
  /-- A configuration follows rules that are not known. -/
  | configVersion (version : Nat)
  /-- A configured directory is not in the project. -/
  | badDirectory (label value : Text)
  /-- Models and actions share a directory. -/
  | sameDirectories
  /-- The configured image is blank. -/
  | blankImage
  /-- The configured domain is blank or more than one name. -/
  | badDomain (value : Text)
  /-- There is a configuration already. -/
  | configExists (path : Text)
  /-- A path leads out of the directory it should be in. -/
  | notUnder (path root : Text)
  /-- A path has a component without a place in a relative path. -/
  | badComponent (component path : Text)
  /-- A model file is missing. -/
  | modelNotFound (path : Text)
  /-- A model file cannot be read. -/
  | modelUnreadable (path : Text) (cause : TextError)
  /-- A model file is not in the project. -/
  | modelOutside (path : Text)
  /-- Strict reading of a model failed. -/
  | badModel (path : Text) (cause : ParseError)
  /-- Two models have the same artifact. -/
  | collision (artifact owner source : Text)
  /-- Some models of a batch failed. -/
  | batch (failed total : Nat)
  deriving DecidableEq

namespace Failure

/-- Work that the file system refused. -/
def refused (work : Work) (e : OsError) : Failure := .during work (.os e)

/-- The failure in one line, outermost cause first. What is wrong in a model is said twice, once
with the path of the model and once alone. -/
def message : Failure → Text
  | .during work cause => work.describe ++ ": " ++ cause.message
  | .os e => e.message
  | .notText => TextError.notText.message
  | .badJson => "malformed JSON document"
  | .manifestVersion version path =>
    "unsupported manifest schema_version " ++ Text.ofNat version ++ " in " ++ path
  | .configVersion version => "unsupported bridge config schema_version " ++ Text.ofNat version
  | .badDirectory label value =>
    label ++ " must be a relative path without '..' (got " ++ value.quoted ++ ")"
  | .sameDirectories => "models_dir and actions_dir must differ"
  | .blankImage => "default_image must be non-empty"
  | .badDomain value =>
    "default_domain must be a non-empty single path segment (got " ++ value.quoted ++ ")"
  | .configExists path => "config already exists at " ++ path ++ " (use --force to overwrite)"
  | .notUnder path root => path ++ " is not under " ++ root
  | .badComponent component path => "unsupported path component " ++ component ++ " in " ++ path
  | .modelNotFound path => "model file not found: " ++ path
  | .modelUnreadable path cause =>
    "read model " ++ path ++ ": " ++ cause.message ++ ": " ++ cause.message
  | .modelOutside path => "model " ++ path ++ " is outside the project root"
  | .badModel path cause =>
    "parse model " ++ path ++ ": " ++ cause.message ++ ": " ++ cause.message
  | .collision artifact owner source =>
    artifact ++ " is already generated from " ++ owner ++ "; models " ++ owner ++ " and " ++
      source ++ " resolve to the same action"
  | .batch failed total =>
    Text.ofNat failed ++ " of " ++ Text.ofNat total ++ " models failed to generate"

end Failure

/-- An action of the file system as part of other work. -/
def Action.within {α : Type} (work : Work) (action : Action OsError α) : Action Failure α :=
  action.reporting (.refused work)

/-- Work as part of other work. -/
def Action.during {α : Type} (work : Work) (action : Action Failure α) : Action Failure α :=
  action.reporting (.during work)

end ActionBundles
