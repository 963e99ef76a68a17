import ActionBundles.Dict
import ActionBundles.Json.Basic

/-!
# Records and dictionaries in JSON

A record is written as an object, in which each of its fields comes at most once and other keys
mean nothing, or as an array of the values of its fields in their order, which may stop early.
A dictionary is written as an object; of two values under one key the later counts.
-/

namespace ActionBundles.Json

/-- The value under a key that comes at most once: `none` if it comes more often, `some none` if it
does not come. -/
def single? (entries : List (Text × Json)) (key : Text) : Option (Option Json) :=
  match entries.filter (·.1 = key) with
  | [] => some none
  | [entry] => some (some entry.2)
  | _ => none

/-- The values of the fields of a record, each of which may be missing. -/
def fields? (names : List Text) : Json → Option (List (Option Json))
  | .object entries => names.mapM (single? entries)
  | .array items =>
    if items.length ≤ names.length then
      some (items.map some ++ List.replicate (names.length - items.length) none)
    else none
  | _ => none

/-- The value of a field that has to be there. -/
def required? {α : Type} (decode : Json → Option α) (field : Option Json) : Option α :=
  field.bind decode

/-- The value of a field that may be missing. -/
def orElse? {α : Type} (default : α) (decode : Json → Option α) : Option Json → Option α
  | none => some default
  | some j => decode j

/-- A dictionary of values. -/
def dict? {α : Type} (decode : Json → Option α) : Json → Option (Dict Text α)
  | .object entries => (entries.mapM fun e => (decode e.2).map (e.1, ·)).map Dict.ofList
  | _ => none

/-- A whole number of at most thirty-two bits, written with digits alone. -/
def word? : Json → Option Nat
  | .number literal =>
    if literal ≠ [] && literal.all Char.isDigit then
      let n := literal.foldl (fun n c => 10 * n + (c.toNat - '0'.toNat)) 0
      if n.log2 < 32 then some n else none
    else none
  | _ => none

end ActionBundles.Json
