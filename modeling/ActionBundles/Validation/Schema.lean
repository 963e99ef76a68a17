import ActionBundles.Bundle.Basic
import ActionBundles.Yaml.Reader

/-!
# The schema of descriptors

A descriptor, without the lines that hold only a comment, is a YAML mapping that has a name and says
what it runs with.
-/

namespace ActionBundles

/-- What may be wrong with a descriptor. -/
inductive SchemaProblem where
  | malformed
  | notMapping
  | noName
  | noRunner
  deriving DecidableEq

/-- The words for a problem. -/
def SchemaProblem.message : SchemaProblem → Text
  | .malformed => "does not parse: malformed YAML document"
  | .notMapping => "is not a mapping"
  | .noName => "has no name"
  | .noRunner => "has no runs.using"

namespace Descriptor

/-- Whether a line holds nothing but a comment. -/
def isComment (line : Text) : Bool := (Text.trimStart line).head? = some '#'

/-- The text of a descriptor without its comment lines. -/
def withoutComments (text : Text) : Text :=
  Text.join ['\n'] ((Text.lines text).filter (!isComment ·))

/-- Whether there is a value that is not nothing. -/
def isPresent (value : Option Yaml) : Bool := value.any (!·.isNull)

/-- What is wrong with the value of a descriptor, if anything is. -/
def valueProblem? (value : Option Yaml) : Option SchemaProblem :=
  match value with
  | none => some .malformed
  | some y =>
    if !y.isMapping then some .notMapping
    else if !isPresent (y.get? "name") then some .noName
    else if !isPresent ((y.get? "runs").bind (·.get? "using")) then some .noRunner
    else none

/-- What is wrong with a descriptor, if anything is. -/
def problem? (text : Text) : Option SchemaProblem :=
  valueProblem? (Yaml.read? (withoutComments text))

end Descriptor

end ActionBundles
