import ActionBundles.Model.Basic
import ActionBundles.Path
import ActionBundles.Text.Capital

/-!
# The identity of an action

An action is known by its slug, its title and its domain. The slug and a declared domain are
segments: runs of small letters and digits of ASCII with single dashes between them, which are safe
in paths and in the shell.
-/

namespace ActionBundles

/-- How an action is known. -/
structure Identity where
  slug : Text
  title : Text
  domain : Text
  deriving DecidableEq

namespace Identity

/-- A character of a segment: small letters and digits stand for themselves, anything else for a
dash. -/
def segmentChar (c : Char) : Char := if c.isAlphanum then c else '-'

/-- The runs of letters and digits of a text, with capitals made small. -/
def runs (raw : Text) : List Text :=
  (((Text.asciiLower (Text.trim raw)).map segmentChar).splitOn '-').filter (· ≠ [])

/-- The segment of a text: its runs of letters and digits with dashes between them. -/
def segment (raw : Text) : Text := Text.join ['-'] (runs raw)

/-- The slug of a model id: the segment after its last dot, unless that is empty. -/
def slugOf? (modelId : Text) : Option Text :=
  match segment (Text.afterLast '.' (Text.trim modelId)) with
  | [] => none
  | slug => some slug

/-- The slug of actions that have no other. -/
def fallbackSlug : Text := "action"

/-- Words of a slug and the domains that they point to. The first word of the table that a slug
holds decides. -/
def domainWords : List (Text × Text) :=
  [("changelog", "release"), ("release", "release"), ("version", "version"), ("semver", "version"),
    ("git", "git"), ("branch", "git"), ("commit", "git"), ("tag", "git"), ("merge", "git"),
    ("docker", "container"), ("container", "container"), ("image", "container"), ("test", "test")]

/-- The domain that the words of a slug point to. -/
def classify? (slug : Text) : Option Text :=
  (domainWords.find? fun entry => entry.1 ∈ slug.splitOn '-').map (·.2)

/-- The domain of an action: the declared one, else the one that its slug points to, else the
default. -/
def domainOf (declared slug default : Text) : Text :=
  match segment declared with
  | [] => (classify? slug).getD default
  | domain => domain

/-- The title of a slug: its words with capitals. -/
def titleOf (slug : Text) : Text :=
  Text.join [' '] (((slug.splitOn '-').filter (· ≠ [])).map Text.capitalized)

/-- The identity of a model in the file at `source`. -/
def resolve (m : Model) (source default : Text) : Identity :=
  let slug := ((slugOf? m.metadata.modelId).or ((Path.stem? source).bind slugOf?)).getD fallbackSlug
  { slug, title := titleOf slug, domain := domainOf m.metadata.domain slug default }

end Identity

/-- A name as it is shown to people: spaces for dashes and underscores, and a capital. -/
def humanize (name : Text) : Text :=
  Text.capitalized (Text.trim (name.map fun c => if c = '_' || c = '-' then ' ' else c))

end ActionBundles
