import ActionBundles.Dict
import ActionBundles.Text.Basic

/-!
# Models

A model describes one action: its identity, what it can do, its parameters and outputs, a small
free-form interface, what it depends on and the patterns it follows. This module holds the types
and the questions asked of a finished model; reading one from text is in `Model.Parser`.
-/

namespace ActionBundles

/-- What a parameter takes. -/
inductive Kind where
  /-- Any text. -/
  | string
  /-- One of the listed values, in the order of the model. -/
  | choice (values : List Text)
  /-- True or false. -/
  | boolean
  /-- A number. -/
  | number
  deriving DecidableEq

/-- The words that name a kind without values. -/
def Kind.words : List (Text × Kind) :=
  [("string", .string), ("str", .string), ("text", .string), ("boolean", .boolean),
    ("bool", .boolean), ("number", .number), ("int", .number), ("integer", .number),
    ("float", .number)]

/-- The kind that a word names, in any case of its ASCII letters. -/
def Kind.ofWord? (word : Text) : Option Kind := Kind.words.lookup (Text.asciiLower word)

/-- A declared parameter. -/
structure Parameter where
  name : Text
  kind : Kind
  required : Bool
  deriving DecidableEq

/-- A declared output. -/
structure Output where
  name : Text
  description : Option Text
  deriving DecidableEq

/-- The value of an interface key: one text, or a list of texts. -/
inductive InterfaceValue where
  | text (value : Text)
  | list (items : List Text)
  deriving DecidableEq

/-- The single items of a value. A text is a list written with commas. -/
def InterfaceValue.items : InterfaceValue → List Text
  | .text value => ((value.splitOn ',').map Text.trim).filter (· ≠ [])
  | .list items => items

/-- The value as one text; a list has none. -/
def InterfaceValue.asText? : InterfaceValue → Option Text
  | .text value => some value
  | .list _ => none

/-- The fields at the top of a model. -/
inductive MetadataField where
  | modelId
  | version
  | layer
  | domain
  deriving DecidableEq

/-- The identity that a model declares. -/
structure Metadata where
  modelId : Text := []
  version : Text := []
  layer : Text := []
  domain : Text := []
  deriving DecidableEq

/-- The value of a field. -/
def Metadata.get (m : Metadata) : MetadataField → Text
  | .modelId => m.modelId
  | .version => m.version
  | .layer => m.layer
  | .domain => m.domain

/-- The identity with one field replaced. -/
def Metadata.set (m : Metadata) (field : MetadataField) (value : Text) : Metadata :=
  match field with
  | .modelId => { m with modelId := value }
  | .version => { m with version := value }
  | .layer => { m with layer := value }
  | .domain => { m with domain := value }

@[simp] theorem Metadata.get_set (m : Metadata) (field other : MetadataField) (value : Text) :
    (m.set field value).get other = if other = field then value else m.get other := by
  cases field <;> cases other <;> rfl

/-- A model of one action. -/
structure Model where
  metadata : Metadata := {}
  capability : Text := []
  parameters : List Parameter := []
  outputs : List Output := []
  interface : Dict Text InterfaceValue := .empty
  dependencies : List Text := []
  patterns : List Text := []
  deriving DecidableEq

namespace Model

/-- The text under an interface key, unless it is blank. -/
def interfaceText? (m : Model) (key : Text) : Option Text :=
  (((m.interface.get? key).bind InterfaceValue.asText?).map Text.trim).filter (· ≠ [])

end Model

end ActionBundles
