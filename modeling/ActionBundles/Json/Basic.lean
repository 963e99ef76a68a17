import ActionBundles.Text.Basic

/-!
# JSON values

Objects keep their entries in the order in which they are written. Numbers are kept as they are
written, since all that is asked of one is whether it is a small whole number.
-/

namespace ActionBundles

/-- A JSON value. -/
inductive Json where
  | null
  | bool (value : Bool)
  /-- A number, as it is written. -/
  | number (literal : Text)
  | string (text : Text)
  /-- A string that is no text, or an object with such a key: it may be passed over but has no
  use. -/
  | garbled
  | array (items : List Json)
  /-- An object; a key may come more than once. -/
  | object (entries : List (Text × Json))

namespace Json

/-- The number `n`. -/
def ofNat (n : Nat) : Json := .number (Text.ofNat n)

/-- The text of a string. -/
def text? : Json → Option Text
  | .string text => some text
  | _ => none

end Json

end ActionBundles
