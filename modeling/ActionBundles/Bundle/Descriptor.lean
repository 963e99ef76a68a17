import ActionBundles.Bundle.Identity
import ActionBundles.Yaml.Printer

/-!
# Descriptors of actions

The descriptor of an action names its inputs and outputs and says how it runs. It is written as
YAML below a header of comments, which tells where it was generated from and that it is not to be
edited.
-/

namespace ActionBundles

/-- The start of the header line that names the model. -/
def sourceMark : Text := "# Generated from "

/-- The start of the header line that forbids editing. -/
def lockMark : Text := "# DO NOT EDIT"

/-- An input of an action. -/
structure Input where
  description : Text
  required : Bool
  deriving DecidableEq

/-- The descriptor of an action. Inputs and outputs have different names each. -/
structure Descriptor where
  name : Text
  description : Text
  inputs : List (Text × Input)
  outputs : List (Text × Text)
  deriving DecidableEq

namespace Descriptor

/-- Puts a value under a name: in the place of the value that was there, or at the end. -/
def assign {α : Type} (entries : List (Text × α)) (name : Text) (value : α) : List (Text × α) :=
  if entries.any (·.1 = name) then
    entries.map fun e => if e.1 = name then (name, value) else e
  else entries ++ [(name, value)]

/-- The entries of a list of items, each assigned in turn. -/
def assignAll {α : Type} (items : List (Text × α)) : List (Text × α) :=
  items.foldl (fun entries item => assign entries item.1 item.2) []

/-- What an input is described as. -/
def describeInput (p : Parameter) : Text :=
  let base := humanize p.name
  match p.kind with
  | .string => base
  | .choice values => base ++ ". Allowed values: " ++ Text.join ", " values
  | .boolean => base ++ " (true or false)"
  | .number => base ++ " (number)"

/-- The input of a parameter. -/
def inputOf (p : Parameter) : Text × Input := (p.name, ⟨describeInput p, p.required⟩)

/-- The name and description of an output. -/
def outputOf (o : Output) : Text × Text := (o.name, o.description.getD (humanize o.name))

/-- The descriptor of a model's action. -/
def ofModel (m : Model) (identity : Identity) : Descriptor where
  name := identity.title
  description := Text.trim m.capability
  inputs := assignAll (m.parameters.map inputOf)
  outputs := assignAll (m.outputs.map outputOf)

/-! ### Writing -/

/-- An input in the document. An input that may be missing is empty then. -/
def inputOutline (input : Input) : Yaml.Outline :=
  .mapping
    (("description", .text input.description) :: ("required", .bool input.required) ::
      if input.required then [] else [("default", .text [])])

/-- An output in the document. -/
def outputOutline (description : Text) : Yaml.Outline :=
  .mapping [("description", .text description)]

/-- The entries of the document. -/
def outline (d : Descriptor) : List (Text × Yaml.Outline) :=
  [("name", .text d.name), ("description", .text d.description),
    ("inputs", .mapping (d.inputs.map fun e => (e.1, inputOutline e.2))),
    ("outputs", .mapping (d.outputs.map fun e => (e.1, outputOutline e.2))),
    ("runs", .mapping [("using", .text "docker"), ("image", .text "Dockerfile")])]

/-- The line that names the model and its version. -/
def modelLine (m : Model) (identity : Identity) : Text :=
  let id := match Text.trim m.metadata.modelId with
    | [] => identity.slug
    | id => id
  match Text.trim m.metadata.version with
  | [] => "# Model: " ++ id
  | version => "# Model: " ++ id ++ " v" ++ version

/-- The lines above the document. -/
def header (m : Model) (identity : Identity) (source : Text) : List Text :=
  [sourceMark ++ source, modelLine m identity,
    lockMark ++ " - regenerate with \x60fcm-bridge generate\x60 instead"]

/-- The document without its header. -/
def body (m : Model) (identity : Identity) : Text :=
  Yaml.render (ofModel m identity).outline

/-- The text of the descriptor of a model's action. -/
def render (m : Model) (identity : Identity) (source : Text) : Text :=
  (header m identity source).flatMap (· ++ ['\n']) ++ '\n' :: body m identity

/-! ### Header lines -/

/-- Whether some line of a text starts, after blanks, with a mark. -/
def hasLine (mark text : Text) : Bool :=
  (Text.lines text).any fun line => mark.isPrefixOf (Text.trimStart line)

/-- Whether a text has both marks of a header. -/
def hasProvenance (text : Text) : Bool := hasLine sourceMark text && hasLine lockMark text

end Descriptor

end ActionBundles
