import ActionBundles.Json.Printer
import ActionBundles.Model.Basic

/-!
# Models as JSON

The form in which a model is shown to people and programs.
-/

namespace ActionBundles

/-- A list of texts as JSON. -/
def Json.texts (items : List Text) : Json := .array (items.map .string)

/-- The entries that tell the kind of a parameter. -/
def Kind.entries : Kind → List (Text × Json)
  | .string => [("kind", .string "string")]
  | .choice values => [("kind", .string "choice"), ("constraints", Json.texts values)]
  | .boolean => [("kind", .string "boolean")]
  | .number => [("kind", .string "number")]

/-- A parameter as JSON. -/
def Parameter.toJson (p : Parameter) : Json :=
  .object (("name", .string p.name) :: p.kind.entries.append [("required", .bool p.required)])

/-- An output as JSON; a missing description is left out. -/
def Output.toJson (o : Output) : Json :=
  .object (("name", .string o.name) :: o.description.toList.map fun d => ("description", .string d))

/-- The value of an interface key as JSON. -/
def InterfaceValue.toJson : InterfaceValue → Json
  | .text value => .string value
  | .list items => Json.texts items

/-- The declared identity as JSON. -/
def Metadata.toJson (m : Metadata) : Json :=
  .object
    [("model_id", .string m.modelId), ("version", .string m.version), ("layer", .string m.layer),
      ("domain", .string m.domain)]

/-- A model as JSON. -/
def Model.toJson (m : Model) : Json :=
  .object
    [("metadata", m.metadata.toJson), ("capability", .string m.capability),
      ("parameters", .array (m.parameters.map Parameter.toJson)),
      ("outputs", .array (m.outputs.map Output.toJson)),
      ("interface", .object (m.interface.toList.map fun e => (e.1, e.2.toJson))),
      ("dependencies", Json.texts m.dependencies), ("patterns", Json.texts m.patterns)]

end ActionBundles
