import ActionBundles.Text.Basic

/-!
# Paths

A path is a text with slashes. It is kept as it was written, because messages show it so, and read
through its components: repeated slashes, slashes at the end and single dots between slashes mean
nothing; a single dot at the start of a relative path is a component.

Nothing here looks at a file system; what a path leads to is in `Disk.Locate`.
-/

namespace ActionBundles

/-- A part of a path. -/
inductive Component where
  /-- The slash at the start of an absolute path. -/
  | root
  /-- The dot at the start of a relative path. -/
  | here
  /-- Two dots. -/
  | up
  /-- A name. -/
  | name (n : Text)
  deriving DecidableEq

/-- The name of a component in messages. -/
def Component.describe : Component → Text
  | .root => "RootDir"
  | .here => "CurDir"
  | .up => "ParentDir"
  | .name n => "Normal(" ++ n ++ ")"

namespace Path

/-- Whether a path starts at the root. -/
def isAbsolute (path : Text) : Bool := path.head? = some '/'

/-- What a piece between slashes means within a path. -/
def ofPiece? (piece : Text) : Option Component :=
  if piece = [] then none
  else if piece = ['.'] then none
  else if piece = ['.', '.'] then some .up
  else some (.name piece)

/-- The components of a path. -/
def components (path : Text) : List Component :=
  let pieces := path.splitOn '/'
  let body := pieces.filterMap ofPiece?
  if isAbsolute path then .root :: body
  else if pieces.head? = some ['.'] then .here :: body
  else body

/-- The path `other` as seen from `base`: an absolute path stands for itself. -/
def join (base other : Text) : Text :=
  if isAbsolute other then other
  else if base = [] || base.getLast? = some '/' then base ++ other
  else base ++ '/' :: other

/-- The absolute path of names from the root. -/
def ofNames (names : List Text) : Text := '/' :: Text.join ['/'] names

/-- The pieces of a path, given last first, without the meaningless ones at the end. -/
@[grind =]
def dropMeaningless : List Text → List Text
  | [] => []
  | piece :: before => if (ofPiece? piece).isSome then piece :: before else dropMeaningless before

/-- The path without its last component, as it was written; none for the root and for a path
without components. -/
def parent? (path : Text) : Option Text :=
  let pieces := path.splitOn '/'
  match (components path).getLast? with
  | none => none
  | some .root => none
  | some .here => some []
  | some _ =>
    match dropMeaningless (dropMeaningless pieces.reverse).tail with
    | [] => some <|
      if isAbsolute path then ['/'] else if pieces.head? = some ['.'] then ['.'] else []
    | before => some (Text.join ['/'] before.reverse)

/-- The last component, if it is a name. -/
def fileName? (path : Text) : Option Text :=
  match (components path).getLast? with
  | some (.name n) => some n
  | _ => none

/-- A file name cut at its last dot: what stands before it and after it. A dot at the start does
not cut. -/
def cutName (name : Text) : Text × Option Text :=
  if '.' ∈ name.tail then
    let cut := name.reverse.dropWhile (· ≠ '.')
    (cut.tail.reverse, some (name.reverse.takeWhile (· ≠ '.')).reverse)
  else (name, none)

/-- The file name without its extension. -/
def stem? (path : Text) : Option Text := (fileName? path).map fun n => (cutName n).1

/-- The extension of the file name. -/
def extension? (path : Text) : Option Text := (fileName? path).bind fun n => (cutName n).2

/-- The components of `path` after those of `base`, if it starts with them. -/
def after? (base path : Text) : Option (List Component) :=
  (components base).isPrefixOf? (components path)

end Path

end ActionBundles
