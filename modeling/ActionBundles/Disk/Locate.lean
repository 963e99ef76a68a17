import ActionBundles.Disk.Error
import ActionBundles.Disk.Tree
import ActionBundles.Path

/-!
# Where a path leads

A path is followed name by name from the root or from the working directory. Two dots lead to the
directory above, and a symbolic link is replaced by the path that it holds, at most
`maxLinks` times. The last name may be missing: the path then leads to a vacant place in a
directory, where something can be created.
-/

namespace ActionBundles

/-- A file tree and the directory that relative paths start from. -/
structure Disk where
  tree : Tree
  workingDirectory : Address := []
  deriving DecidableEq

instance : Inhabited Disk := ⟨⟨default, []⟩⟩

/-- Where a path leads. -/
inductive Spot where
  /-- To something that is there. -/
  | entry (at_ : Address) (node : Node)
  /-- To a name that is missing in a directory. -/
  | vacant (dir : Address) (name : Text)
  deriving DecidableEq

/-- How far a path leads without passing a link. -/
inductive Leg where
  /-- To its end. -/
  | end_ (spot : Spot)
  /-- To a link in `dir`, with `rest` still to follow. -/
  | link (dir : Address) (target : Text) (rest : List Text)

/-- The most links that are passed on the way to an entry. -/
def maxLinks : Nat := 40

/-- The pieces of a path that say where to go. -/
def Path.steps (path : Text) : List Text := (path.splitOn '/').filter (· ≠ [])

/-- Whether a path ends with a slash after a name, and so asks for a directory. -/
def Path.wantsDirectory (path : Text) : Bool := path.getLast? = some '/' && steps path ≠ []

namespace Tree

/-- Follows names from a directory up to the next link. A link as the last name is passed only if
`follow` is set. -/
@[grind =]
def leg (t : Tree) (follow : Bool) (dir : Address) : List Text → Except OsError Leg
  | [] => .ok (.end_ (.entry dir .directory))
  | step :: rest =>
    if step = ['.'] then t.leg follow dir rest
    else if step = ['.', '.'] then t.leg follow dir.tail rest
    else if maxNameLength < step.byteLength then .error .nameTooLong
    else
      match t.get? (step :: dir) with
      | none => if rest = [] then .ok (.end_ (.vacant dir step)) else .error .notFound
      | some .directory => t.leg follow (step :: dir) rest
      | some (.file content executable) =>
        if rest = [] then .ok (.end_ (.entry (step :: dir) (.file content executable)))
        else .error .notDirectory
      | some (.link target) =>
        if rest = [] && !follow then .ok (.end_ (.entry (step :: dir) (.link target)))
        else .ok (.link dir target rest)

/-- The directory that a path starts from. -/
def startOf (path : Text) (dir : Address) : Address := if Path.isAbsolute path then [] else dir

/-- The steps of a path; a slash at the end asks for a directory. -/
def stepsOf (path : Text) : List Text :=
  if Path.wantsDirectory path then Path.steps path ++ [['.']] else Path.steps path

/-- Follows names from a directory, passing at most `budget` links. -/
@[grind =]
def walk (t : Tree) (follow : Bool) : Nat → Address → List Text → Except OsError Spot
  | budget, dir, steps =>
    match t.leg follow dir steps with
    | .error e => .error e
    | .ok (.end_ spot) => .ok spot
    | .ok (.link above target rest) =>
      match budget with
      | 0 => .error .tooManyLinks
      | left + 1 =>
        if target = [] then .error .notFound
        else t.walk follow left (startOf target above) (stepsOf target ++ rest)

end Tree

namespace Disk

/-- Follows a path, with `steps` as its steps. -/
def follow (d : Disk) (links : Bool) (path : Text) (steps : List Text) : Except OsError Spot :=
  if path = [] then .error .notFound
  else if '\x00' ∈ path then .error .nulInPath
  else d.tree.walk links maxLinks (Tree.startOf path d.workingDirectory) steps

/-- What a path leads to, through links. -/
def find (d : Disk) (path : Text) : Except OsError (Address × Node) :=
  match d.follow true path (Tree.stepsOf path) with
  | .error e => .error e
  | .ok (.vacant _ _) => .error .notFound
  | .ok (.entry a node) => .ok (a, node)

/-- The place of an entry itself, be it a link, or where it can be created. -/
def place (d : Disk) (path : Text) : Except OsError Spot :=
  d.follow false path (Path.steps path)

/-! ### Questions about a path -/

/-- Whether a path leads to something. -/
def isThere (d : Disk) (path : Text) : Bool := (d.find path).toOption.isSome

/-- Whether a path leads to a directory. -/
def isDirectory (d : Disk) (path : Text) : Bool :=
  match d.find path with
  | .ok (_, .directory) => true
  | _ => false

/-- Whether a path leads to a file. -/
def isFile (d : Disk) (path : Text) : Bool :=
  match d.find path with
  | .ok (_, .file _ _) => true
  | _ => false

/-- The absolute path of what a path leads to, without dots and links. -/
def canonical (d : Disk) (path : Text) : Except OsError Text :=
  (d.find path).map fun found => Path.ofNames found.1.reverse

/-- The bytes of the file that a path leads to. -/
def read (d : Disk) (path : Text) : Except OsError Bytes :=
  match d.find path with
  | .error e => .error e
  | .ok (_, .file content _) => .ok content
  | .ok _ => .error .isDirectory

/-- The names in the directory that a path leads to, in increasing order. -/
def names (d : Disk) (path : Text) : Except OsError (List Text) :=
  match d.find path with
  | .error e => .error e
  | .ok (a, .directory) => .ok (d.tree.names a)
  | .ok _ => .error .notDirectory

end Disk

end ActionBundles
