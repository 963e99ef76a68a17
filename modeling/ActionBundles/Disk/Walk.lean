import ActionBundles.Disk.Locate

/-!
# Files below a directory

Directories are gone through in the order of their names, so that the files come in the order of
their components and those of one directory stay together. Links are followed; a link that leads
back up is followed until no path may pass more links.
-/

namespace ActionBundles.Disk

/-- The files below a directory, at most `depth` directories deep. -/
def filesWithin (d : Disk) : Nat → Text → List Text
  | 0, _ => []
  | depth + 1, dir =>
    ((d.names dir).toOption.getD []).flatMap fun name =>
      let path := Path.join dir name
      if d.isDirectory path then d.filesWithin depth path
      else if d.isFile path then [path]
      else []

/-- A bound on the directories on a way through a tree: between two links a way goes through
different directories. -/
def depthBound (d : Disk) : Nat := (maxLinks + 1) * (d.tree.size + 1)

/-- The files below `root`, at any depth. There are none if nothing is at `root`. -/
def filesBelow (d : Disk) (root : Text) : Except OsError (List Text) :=
  if d.isThere root then (d.names root).map fun _ => d.filesWithin d.depthBound root
  else .ok []

/-- The directories directly in a directory. There are none if it is missing. -/
def subdirectories (d : Disk) (dir : Text) : List Text :=
  (((d.names dir).toOption.getD []).map (Path.join dir)).filter d.isDirectory

end ActionBundles.Disk
