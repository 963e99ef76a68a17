import ActionBundles.Json.Basic
import ActionBundles.Json.Token

/-!
# Reading JSON

Tokens are gone through once. The arrays and objects that are still open are kept on a stack, so a
document may be nested as deep as it likes.
-/

namespace ActionBundles.Json

/-- An array or object that is still open, with what it holds so far, last first. -/
inductive Frame where
  | array (items : List Json)
  /-- The key belongs to the value that is being read; a key is none if it is no text. -/
  | object (entries : List (Option Text × Json)) (key : Option Text)

/-- What may come next. -/
inductive Want where
  /-- A value. -/
  | value
  /-- A value, or the end of the array that has just been opened. -/
  | firstItem
  /-- A key. -/
  | key
  /-- A key, or the end of the object that has just been opened. -/
  | firstKey
  /-- The colon after a key. -/
  | colon
  /-- A comma, or the end of what is open. -/
  | more
  deriving DecidableEq

/-- A document that is being read, or has been read. -/
inductive Reading where
  | busy (open_ : List Frame) (want : Want)
  | done (value : Json)

/-- A value has been read: it goes into what is open, or is the document. -/
def Reading.put (value : Json) : List Frame → Reading
  | [] => .done value
  | .array items :: below => .busy (.array (value :: items) :: below) .more
  | .object entries key :: below => .busy (.object ((key, value) :: entries) key :: below) .more

/-- An object from its entries. A key that is no text spoils the object. -/
def ofEntries (entries : List (Option Text × Json)) : Json :=
  match entries.mapM fun e => e.1.map (·, e.2) with
  | some entries => .object entries
  | none => .garbled

/-- The start of a value. -/
def Reading.begin? (open_ : List Frame) : Token → Option Reading
  | .null => some (put .null open_)
  | .bool value => some (put (.bool value) open_)
  | .number literal => some (put (.number literal) open_)
  | .string (some text) => some (put (.string text) open_)
  | .string none => some (put .garbled open_)
  | .openArray => some (.busy (.array [] :: open_) .firstItem)
  | .openObject => some (.busy (.object [] none :: open_) .firstKey)
  | _ => none

/-- Takes a token. -/
def Reading.step? : Reading → Token → Option Reading
  | .busy open_ .value, token => begin? open_ token
  | .busy (.array _ :: below) .firstItem, .closeArray => some (put (.array []) below)
  | .busy open_ .firstItem, token => begin? open_ token
  | .busy (.object _ _ :: below) .firstKey, .closeObject => some (put (.object []) below)
  | .busy (.object entries _ :: below) .firstKey, .string key =>
    some (.busy (.object entries key :: below) .colon)
  | .busy (.object entries _ :: below) .key, .string key =>
    some (.busy (.object entries key :: below) .colon)
  | .busy open_ .colon, .colon => some (.busy open_ .value)
  | .busy (.array items :: below) .more, .comma => some (.busy (.array items :: below) .value)
  | .busy (.array items :: below) .more, .closeArray => some (put (.array items.reverse) below)
  | .busy (.object entries key :: below) .more, .comma =>
    some (.busy (.object entries key :: below) .key)
  | .busy (.object entries _ :: below) .more, .closeObject =>
    some (put (ofEntries entries.reverse) below)
  | _, _ => none

/-- The value that tokens stand for. -/
def ofTokens? (tokens : List Token) : Option Json :=
  match tokens.foldlM Reading.step? (.busy [] .value) with
  | some (.done value) => some value
  | _ => none

/-- The value of a document. -/
def read? (bytes : Bytes) : Option Json := (tokens? bytes).bind ofTokens?

end ActionBundles.Json
