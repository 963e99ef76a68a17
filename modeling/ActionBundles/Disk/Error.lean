import ActionBundles.Text.Basic

/-!
# Errors of the file system

The reasons for which an operation on files is refused, with the words in which the operating
system reports them. They are those that lie in the path, in what is on the disk, and in a medium
that is full; refused permissions, paths that are too long, and media that cannot be read or removed
from are left out.
-/

namespace ActionBundles

/-- Why an operation on files is refused. -/
inductive OsError where
  | notFound
  | alreadyExists
  | notDirectory
  | isDirectory
  /-- The medium is full. -/
  | noSpace
  | nameTooLong
  | tooManyLinks
  /-- A path with the character of code zero. -/
  | nulInPath
  deriving DecidableEq

/-- The report of the operating system. -/
def OsError.message : OsError → Text
  | .notFound => "No such file or directory (os error 2)"
  | .alreadyExists => "File exists (os error 17)"
  | .notDirectory => "Not a directory (os error 20)"
  | .isDirectory => "Is a directory (os error 21)"
  | .noSpace => "No space left on device (os error 28)"
  | .nameTooLong => "File name too long (os error 36)"
  | .tooManyLinks => "Too many levels of symbolic links (os error 40)"
  | .nulInPath => "file name contained an unexpected NUL byte"

end ActionBundles
