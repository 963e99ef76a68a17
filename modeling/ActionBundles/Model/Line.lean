import ActionBundles.Model.Basic

/-!
# Lines of a model

A model is read line by line. Each line has one class, which depends on the line alone:
`Line.classify` finds it. A line is blank or a comment, names a metadata field, starts the
capability, opens a section, is an item of a list, gives a value to a key, or is prose.
-/

namespace ActionBundles

/-- The sections that a heading opens. -/
inductive Section where
  | parameters
  | outputs
  | interface
  | dependencies
  | patterns
  deriving DecidableEq

/-- The words that open a section. -/
def Section.words : List (Text × Section) :=
  [("Parameters", .parameters), ("Outputs", .outputs), ("Interface", .interface),
    ("Dependencies", .dependencies), ("Patterns", .patterns)]

/-- The section that a key opens. -/
def Section.ofKey? (key : Text) : Option Section := Section.words.lookup key

/-- The keys of the metadata fields. -/
def MetadataField.words : List (Text × MetadataField) :=
  [("Model", .modelId), ("Version", .version), ("Layer", .layer), ("Domain", .domain)]

/-- The metadata field that a key names. -/
def MetadataField.ofKey? (key : Text) : Option MetadataField := MetadataField.words.lookup key

/-- The classes of lines. -/
inductive Line where
  /-- A blank line or a comment. -/
  | skip
  /-- A metadata field and its value. -/
  | metadata (field : MetadataField) (value : Text)
  /-- The start of the capability. -/
  | capability (value : Text)
  /-- The heading of a section. -/
  | heading (of : Section)
  /-- An item of a list, without its dash. -/
  | item (text : Text)
  /-- A key with a value, which may be empty; `text` is the whole line. -/
  | entry (key value text : Text) (indented : Bool)
  /-- Anything else. -/
  | prose (text : Text) (indented : Bool)
  deriving DecidableEq

namespace Line

/-- A character that a key may start with. -/
def isKeyStart (c : Char) : Bool := c.isAlpha || c = '_'

/-- A character that a key may go on with. -/
def isKeyPart (c : Char) : Bool := c.isAlphanum || c = '_' || c = '.' || c = '-'

/-- The key and the value of a line `key: value`. Blanks may stand around the colon. -/
def keyValue? : Text → Option (Text × Text)
  | [] => none
  | c :: rest =>
    if isKeyStart c then
      match Text.trimStart (rest.dropWhile isKeyPart) with
      | ':' :: value => some (c :: rest.takeWhile isKeyPart, Text.trim value)
      | _ => none
    else none

/-- The class of a line `key: value`. A heading is a section key without a value, however far it
is indented; the capability and the metadata fields stand at the margin. -/
def ofKeyValue (key value text : Text) (indented : Bool) : Line :=
  match if value = [] then Section.ofKey? key else none with
  | some s => .heading s
  | none =>
    if indented then .entry key value text indented
    else if key = ("Capability" : Text) then .capability value
    else
      match MetadataField.ofKey? key with
      | some field => .metadata field value
      | none => .entry key value text indented

/-- The class of a trimmed line that is neither blank nor a comment. -/
def ofContent (text : Text) (indented : Bool) : Line :=
  if text = ['-'] then .item []
  else
    match Text.stripStart? "- " text with
    | some rest => .item (Text.trim rest)
    | none =>
      match keyValue? text with
      | some (key, value) => ofKeyValue key value text indented
      | none => .prose text indented

/-- The class of a line. -/
def classify (raw : Text) : Line :=
  match Text.trim raw with
  | [] => .skip
  | '#' :: _ => .skip
  | text => ofContent text ((raw.head?.map Text.isBlank).getD false)

end Line

end ActionBundles
