import ActionBundles.Model.Basic
import ActionBundles.Model.Irregularity

/-!
# Items of the parameter and output lists

A parameter is written `name: type`, an output `name: description`; the part after the colon may
be missing. A type is a word for a kind, or the values of a choice between vertical bars, alone or
in parentheses. The text `(optional)` anywhere in a parameter makes it optional.

Each reader goes on at an irregularity as the mode says, with what it made of the item.
-/

namespace ActionBundles

/-- The text that makes a parameter optional. -/
def optionalMarker : Text := "(optional)"

/-- The name of an item. An empty name is none; one with a blank is kept as it is. -/
def readName (mode : ParseMode) (name : Text) : Except Irregularity (Option Text) :=
  if name = [] then mode.meet .emptyName none
  else if name.any Text.isBlank then mode.meet (.blankInName name) (some name)
  else .ok (some name)

namespace Kind

/-- The text between the first opening parenthesis and the first closing one after it. -/
def grouped? (type : Text) : Option Text :=
  (Text.splitOnce '(' type).bind fun halves =>
    (Text.splitOnce ')' halves.2).map fun inner => inner.1

/-- The text of a choice without parentheses: a note in parentheses after it is cut off, and so is
the word `choice` before it. -/
def ungrouped (type : Text) : Text :=
  Text.trim (Text.stripAllStart "choice" (Text.trim (type.takeWhile (· ≠ '('))))

/-- The values of a choice. A group in parentheses that holds a bar gives the values; otherwise
they stand before the first parenthesis. -/
def choiceValues (type : Text) : List Text :=
  let inner := ((grouped? type).filter fun group => '|' ∈ group).getD (ungrouped type)
  ((inner.splitOn '|').map Text.trim).filter (· ≠ [])

/-- The kind that a type describes; a string where the type says nothing. -/
def read (mode : ParseMode) (type : Text) : Except Irregularity Kind :=
  if '|' ∈ type then
    match choiceValues type with
    | [] => mode.meet (.emptyChoice type) .string
    | values => .ok (.choice values)
  else
    match Text.words type with
    | [] => mode.meet .missingType .string
    | word :: _ =>
      match Kind.ofWord? word with
      | some kind => .ok kind
      | none => mode.meet (.unknownType word) .string

end Kind

/-- The text of a parameter without the marker. -/
def Parameter.plainText (text : Text) : Text := Text.trim (Text.remove optionalMarker text)

/-- A parameter from the text of its item, unless it has no name. -/
def Parameter.read (mode : ParseMode) (text : Text) : Except Irregularity (Option Parameter) := do
  let required := !Text.includes optionalMarker text
  match Text.splitOnce ':' (plainText text) with
  | none => return (← readName mode (plainText text)).map fun n => ⟨n, .string, required⟩
  | some (before, type) =>
    match ← readName mode (Text.trim before) with
    | none => return none
    | some n => return some ⟨n, ← Kind.read mode (Text.trim type), required⟩

/-- An output from the text of its item, unless it has no name. -/
def Output.read (mode : ParseMode) (text : Text) : Except Irregularity (Option Output) := do
  match Text.splitOnce ':' text with
  | none => return (← readName mode (Text.trim text)).map fun n => ⟨n, none⟩
  | some (before, after) =>
    let description := Text.trim after
    return (← readName mode (Text.trim before)).map fun n =>
      ⟨n, if description = [] then none else some description⟩

end ActionBundles
