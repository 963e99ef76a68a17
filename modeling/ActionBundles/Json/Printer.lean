import ActionBundles.Json.Basic

/-!
# Writing JSON

`Json.pretty` writes a value over several lines, two spaces deeper at each level, with an empty
array or object on one line. `Json.compact` writes it on one line without blanks.
-/

namespace ActionBundles.Json

/-- The two digits of a byte in base sixteen. -/
def hexByte (n : Nat) : Text := [Nat.digitChar (n / 16 % 16), Nat.digitChar (n % 16)]

/-- A character as it stands in a string: quotes, backslashes and control characters are
escaped. -/
def escapeChar (c : Char) : Text :=
  if c = '\"' then ['\\', '\"']
  else if c = '\\' then ['\\', '\\']
  else if c = '\x08' then ['\\', 'b']
  else if c = '\x0c' then ['\\', 'f']
  else if c = '\n' then ['\\', 'n']
  else if c = '\r' then ['\\', 'r']
  else if c = '\t' then ['\\', 't']
  else if c.toNat < 0x20 then '\\' :: 'u' :: '0' :: '0' :: hexByte c.toNat
  else [c]

/-- A text as a JSON string. -/
def quote (text : Text) : Text := '\"' :: (text.flatMap escapeChar ++ ['\"'])

/-- A line end and the blanks before a line at some depth. -/
def newline (depth : Nat) : Text := '\n' :: List.replicate (2 * depth) ' '

mutual

/-- The value, whose first line starts at some depth. -/
@[grind =]
def prettyAt (depth : Nat) : Json → Text
  | .null => "null"
  | .bool value => if value then "true" else "false"
  | .number literal => literal
  | .string text => quote text
  | .garbled => "null"
  | .array [] => "[]"
  | .array (item :: rest) =>
    '[' :: (newline (depth + 1) ++ prettyAt (depth + 1) item ++
      prettyItems (depth + 1) rest ++ newline depth ++ [']'])
  | .object [] => "\x7b\x7d"
  | .object (entry :: rest) =>
    '\x7b' :: (newline (depth + 1) ++ prettyEntry (depth + 1) entry ++
      prettyEntries (depth + 1) rest ++ newline depth ++ ['\x7d'])

/-- Further items of an array, each after a comma. -/
def prettyItems (depth : Nat) : List Json → Text
  | [] => []
  | item :: rest => ',' :: (newline depth ++ prettyAt depth item ++ prettyItems depth rest)

/-- An entry of an object. -/
def prettyEntry (depth : Nat) : Text × Json → Text
  | (key, value) => quote key ++ ':' :: ' ' :: prettyAt depth value

/-- Further entries of an object, each after a comma. -/
def prettyEntries (depth : Nat) : List (Text × Json) → Text
  | [] => []
  | entry :: rest => ',' :: (newline depth ++ prettyEntry depth entry ++ prettyEntries depth rest)

end

/-- The value written over several lines, without a line end after it. -/
def pretty (j : Json) : Text := prettyAt 0 j

mutual

/-- The value on one line. -/
def compact : Json → Text
  | .null => "null"
  | .bool value => if value then "true" else "false"
  | .number literal => literal
  | .string text => quote text
  | .garbled => "null"
  | .array items => '[' :: (Text.join [','] (compactItems items) ++ [']'])
  | .object entries => '\x7b' :: (Text.join [','] (compactEntries entries) ++ ['\x7d'])

/-- The items of an array, each on one line. -/
def compactItems : List Json → List Text
  | [] => []
  | item :: rest => compact item :: compactItems rest

/-- The entries of an object, each on one line. -/
def compactEntries : List (Text × Json) → List Text
  | [] => []
  | (key, value) :: rest => (quote key ++ ':' :: compact value) :: compactEntries rest

end

end ActionBundles.Json
