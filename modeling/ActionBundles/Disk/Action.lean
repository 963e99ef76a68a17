import ActionBundles.Disk.Locate
import ActionBundles.Disk.Medium

/-!
# Changes on a disk

An action changes the disk and may fail; what it did before it failed stays done. The actions here
are those of the operating system. Each of them either does its whole work or leaves the disk as it
was, but for two: `makeDirectories` may stop between two directories, and a file that is written may
be left with a part of its content if the medium is full.

## What is left out

Permissions are not modelled, so that nothing is refused for want of them, and of the mode of a file
only whether it can be executed is kept. Reading never fails for what is there, and moving and
removing need no room. A file has one name: there are no hard links. Names have a greatest length,
paths have none. Nobody else changes the disk while an action runs.
-/

namespace ActionBundles

/-- A change of the disk that may fail. -/
abbrev Action (ε α : Type) := ExceptT ε (StateM Disk) α

namespace Action

variable {ε α : Type}

/-- A question to the disk as it is. -/
def ask (question : Disk → α) : Action ε α := return question (← get)

/-- A question to the disk that may have no answer. -/
def consult (question : Disk → Except ε α) : Action ε α := do
  match question (← get) with
  | .ok answer => return answer
  | .error e => throw e

/-- Runs an action and gives its outcome, failure or not. -/
def attempt {ε' : Type} (action : Action ε α) : Action ε' (Except ε α) :=
  ExceptT.mk (do return .ok (← action.run))

/-- Changes the tree. -/
def change (f : Tree → Tree) : Action ε Unit := modify fun d => { d with tree := f d.tree }

/-- Runs an action whose errors are reported as `report` says. -/
def reporting {ε' : Type} (report : ε → ε') (action : Action ε α) : Action ε' α :=
  ExceptT.mk (do
    match ← action.run with
    | .ok a => return .ok a
    | .error e => return .error (report e))

end Action

namespace Disk

/-! ### Directories -/

/-- Adds an entry where none is, if the medium takes it. -/
def add [Medium] (name : Text) (dir : Address) (node : Node) : Action OsError Unit := do
  if ← Action.ask fun d => Medium.adds d.tree (name :: dir) then
    Action.change (·.set name dir node)
  else throw .noSpace

/-- Creates a directory. Its directory has to be there. -/
def makeDirectory [Medium] (path : Text) : Action OsError Unit := do
  match ← Action.consult (·.place path) with
  | .entry _ _ => throw .alreadyExists
  | .vacant dir name => add name dir .directory

/-- Creates a directory and the directories that it lies in, as far as they are missing. The
number bounds how many directories are looked at. -/
def makeDirectoriesWithin [Medium] : Nat → Text → Action OsError Unit
  | 0, _ => throw .notFound
  | bound + 1, path => do
    if path = [] then return
    match ← (makeDirectory path).attempt with
    | .ok () => return
    | .error .notFound =>
      match Path.parent? path with
      | none => throw .notFound
      | some above =>
        makeDirectoriesWithin bound above
        match ← (makeDirectory path).attempt with
        | .ok () => return
        | .error e => unless ← Action.ask (·.isDirectory path) do throw e
    | .error e => unless ← Action.ask (·.isDirectory path) do throw e

/-- Creates a directory and the directories that it lies in, as far as they are missing. -/
def makeDirectories [Medium] (path : Text) : Action OsError Unit :=
  makeDirectoriesWithin (path.length + 1) path

/-! ### Files -/

/-- Where a file is written: the place that a path leads to through links, which is a file or
vacant. -/
def openForWriting (d : Disk) (path : Text) : Except OsError Spot :=
  if Path.wantsDirectory path then
    match d.place path with
    | .error e => .error e
    | .ok _ => .error .isDirectory
  else
    match d.follow true path (Path.steps path) with
    | .ok (.entry _ .directory) => .error .isDirectory
    | outcome => outcome

/-- Gives a file its content. If the medium does not take all of it, the file is left with the part
that it takes. -/
def fill [Medium] (name : Text) (dir : Address) (content : Bytes) (executable : Bool) :
    Action OsError Unit := do
  match ← Action.ask fun d => Medium.stops d.tree (name :: dir) content with
  | none => Action.change (·.set name dir (.file content executable))
  | some n =>
    Action.change (·.set name dir (.file (content.take n) executable))
    throw .noSpace

/-- Replaces the content of a file or creates it. The mode `executable` is given to a new file, and
to an old one if it is to be set. -/
def put [Medium] (path : Text) (content : Bytes) (executable : Option Bool) :
    Action OsError Unit := do
  match ← Action.consult (·.openForWriting path) with
  | .vacant dir name =>
    add name dir (.file [] (executable.getD false))
    fill name dir content (executable.getD false)
  | .entry (name :: dir) (.file _ old) => fill name dir content (executable.getD old)
  | .entry _ _ => throw .isDirectory

/-- Writes a file. A file that is there keeps its mode. -/
def write [Medium] (path : Text) (content : Bytes) : Action OsError Unit := put path content none

/-- Creates a file without content, unless a file is there. -/
def touch [Medium] (path : Text) : Action OsError Unit := do
  match ← Action.consult (·.openForWriting path) with
  | .vacant dir name => add name dir (.file [] false)
  | .entry _ _ => return

/-- Copies a file, its content and its mode. -/
def copy [Medium] (source target : Text) : Action OsError Unit := do
  match ← Action.consult (·.find source) with
  | (_, .file content executable) => put target content (some executable)
  | _ => throw .isDirectory

/-- Makes a file executable. -/
def makeExecutable (path : Text) : Action OsError Unit := do
  match ← Action.consult (·.find path) with
  | (name :: dir, .file content _) => Action.change (·.set name dir (.file content true))
  | _ => return

/-- Moves a file or a link, in place of the file or link that is at its new path. Directories are
never moved. -/
def move (source target : Text) : Action OsError Unit := do
  match ← Action.consult (·.place source) with
  | .vacant _ _ => throw .notFound
  | .entry _ .directory => throw .isDirectory
  | .entry old node =>
    match ← Action.consult (·.place target) with
    | .entry _ .directory => throw .isDirectory
    | .entry [] _ => throw .isDirectory
    | .entry (name :: dir) _ =>
      unless old = name :: dir do Action.change fun t => (t.prune old).set name dir node
    | .vacant dir name => Action.change fun t => (t.prune old).set name dir node

/-- Removes a file or a link. -/
def removeFile (path : Text) : Action OsError Unit := do
  match ← Action.consult (·.place path) with
  | .vacant _ _ => throw .notFound
  | .entry _ .directory => throw .isDirectory
  | .entry a _ => Action.change (·.prune a)

/-- Removes what a path leads to, with everything in it; a link itself, not what it leads to. -/
def removeAll (path : Text) : Action OsError Unit := do
  match ← Action.consult (·.place path) with
  | .vacant _ _ => throw .notFound
  | .entry a _ => Action.change (·.prune a)

end Disk

end ActionBundles
