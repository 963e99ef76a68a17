import ActionBundles.Disk.Walk
import ActionBundles.Failure
import ActionBundles.Json.Printer

/-!
# Transactions

A transaction gathers files in a directory of its own and then publishes them together. A file
that is published takes the place of the file that was there, which is kept until all is done. If
publishing fails, what was published is removed and what was kept is put back.
-/

namespace ActionBundles

/-- A transaction, by its directory. -/
structure Transaction where
  dir : Text
  deriving DecidableEq

namespace Transaction

/-- Where the files are gathered. -/
def stagingDir (t : Transaction) : Text := Path.join t.dir "staging"

/-- Where replaced files are kept. -/
def backupDir (t : Transaction) : Text := Path.join t.dir "backup"

/-- Starts a transaction with a directory of the given name. -/
def start [Medium] (transactions name : Text) : Action Failure Transaction := do
  (Disk.makeDirectories transactions).within (.create transactions)
  let t : Transaction := ⟨Path.join transactions name⟩
  (Disk.makeDirectory t.dir).within (.createTransaction transactions)
  return t

/-- Creates the directory that a path lies in. -/
def makeParent [Medium] (path : Text) : Action Failure Unit :=
  match Path.parent? path with
  | none => return
  | some dir => (Disk.makeDirectories dir).within (.create dir)

/-! ### Gathering files -/

/-- Gathers a file. -/
def stage [Medium] (t : Transaction) (rel : Text) (content : Bytes) : Action Failure Unit := do
  let path := Path.join t.stagingDir rel
  makeParent path
  (Disk.write path content).within (.write path)

/-- Gathers a file that can be executed. -/
def stageExecutable [Medium] (t : Transaction) (rel : Text) (content : Bytes) :
    Action Failure Unit := do
  t.stage rel content
  let path := Path.join t.stagingDir rel
  (Disk.makeExecutable path).within (.write path)

/-- Gathers a JSON document. -/
def stageJson [Medium] (t : Transaction) (rel : Text) (j : Json) : Action Failure Unit :=
  t.stage rel (Text.utf8 (j.pretty ++ ['\n']))

/-! ### Publishing them -/

/-- What has been published so far. -/
structure Published where
  /-- The files in their new places. -/
  files : List Text := []
  /-- The places that held a file, and where that file is kept. -/
  backups : List (Text × Text) := []
  /-- The places that held no file. -/
  created : List Text := []
  deriving DecidableEq

/-- Moves a file, or copies it where it cannot be moved. -/
def moveOrCopy [Medium] (source target : Text) : Action OsError Unit := do
  match ← (Disk.move source target).attempt with
  | .ok () => return
  | .error _ => Disk.copy source target

/-- Keeps the file that is in a place, if there is one. -/
def keep [Medium] (place backup : Text) : Action Failure Bool := do
  if ← Action.ask (·.isFile place) then
    makeParent backup
    (moveOrCopy place backup).within (.backUp place)
    return true
  else return false

/-- Puts a file into a place: first beside it, then there. -/
def put [Medium] (source place : Text) : Action Failure Unit := do
  makeParent place
  let name := (Path.fileName? place).getD "staged"
  let draft := Path.join ((Path.parent? place).getD ".") ('.' :: name ++ ".tmp")
  (Disk.copy source draft).within (.publish place)
  (Disk.move draft place).within (.publish place)

/-- Removes what is in a place if it is a file. -/
def withdraw (place : Text) : Action Failure Unit := do
  if ← Action.ask (·.isFile place) then
    let _ ← (Disk.removeFile place).attempt

/-- Puts a file back into the place that it was kept from. -/
def restore [Medium] (place backup : Text) : Action Failure Unit := do
  let _ ← (makeParent place).attempt
  let _ ← (moveOrCopy backup place).attempt

/-- Undoes what has been published. -/
def rollBack [Medium] (p : Published) : Action Failure Unit := do
  (p.files ++ p.created).forM withdraw
  p.backups.forM fun kept => restore kept.1 kept.2

/-- Publishes files by their paths from the gathering place, and undoes all of it if one fails. -/
def publishEach [Medium] (t : Transaction) (root : Text) (p : Published) :
    List Text → Action Failure (List Text)
  | [] => return p.files
  | rel :: rest => do
    let place := Path.join root rel
    let backup := Path.join t.backupDir rel
    match ← (keep place backup).attempt with
    | .error e =>
      rollBack p
      throw e
    | .ok kept =>
      let p := if kept then { p with backups := p.backups ++ [(place, backup)] }
        else { p with created := p.created ++ [place] }
      match ← (put (Path.join t.stagingDir rel) place).attempt with
      | .error e =>
        rollBack p
        throw e
      | .ok () => t.publishEach root { p with files := p.files ++ [place] } rest

/-- The names that lead from a directory to a path below it. -/
def below (dir path : Text) : Text :=
  Text.join ['/'] (((Path.after? dir path).getD []).filterMap fun
    | .name n => some n
    | _ => none)

/-- Publishes the gathered files below `root`, in the order of their paths, and returns their new
places. -/
def publish [Medium] (t : Transaction) (root : Text) : Action Failure (List Text) := do
  if ← Action.ask (·.isThere t.stagingDir) then
    let files ← (Action.consult (·.filesBelow t.stagingDir)).within (.read t.stagingDir)
    (Disk.makeDirectories t.backupDir).within (.create t.backupDir)
    t.publishEach root {} (files.map (below t.stagingDir))
  else return []

/-! ### The whole of a transaction -/

/-- Removes the directory of a transaction. -/
def close (t : Transaction) : Action Failure Unit := do
  let _ ← (Disk.removeAll t.dir).attempt

/-- Does work in a transaction, and closes it whether the work fails or not. -/
def run [Medium] {α : Type} (transactions name : Text) (work : Transaction → Action Failure α) :
    Action Failure α := do
  let t ← start transactions name
  let outcome ← (work t).attempt
  t.close
  match outcome with
  | .ok a => return a
  | .error e => throw e

end Transaction

end ActionBundles
