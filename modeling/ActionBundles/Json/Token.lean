import ActionBundles.Text.Utf8

/-!
# Tokens of JSON

The bytes of a document are gone through once and cut into tokens. White space separates tokens
and is dropped. Numbers and strings are checked here, so that what follows deals with whole
tokens only.
-/

namespace ActionBundles.Json

/-- A token of JSON. -/
inductive Token where
  | openArray
  | closeArray
  | openObject
  | closeObject
  | comma
  | colon
  | null
  | bool (value : Bool)
  | number (literal : Text)
  /-- A string; none if its bytes or escapes are no text. -/
  | string (text : Option Text)
  deriving DecidableEq

/-! ### Numbers and words -/

/-- The rest after digits; none if there is no digit. -/
def dropDigits? (t : Text) : Option Text :=
  match t with
  | c :: rest => if c.isDigit then some (rest.dropWhile Char.isDigit) else none
  | [] => none

/-- Whether the rest of a number is an exponent or nothing. -/
def endsNumber : Text → Bool
  | [] => true
  | c :: rest =>
    (c = 'e' || c = 'E') &&
      (match rest with
      | '+' :: digits => dropDigits? digits = some []
      | '-' :: digits => dropDigits? digits = some []
      | digits => dropDigits? digits = some [])

/-- Whether the rest of a number is a fraction, an exponent, both or neither. -/
def endsWhole : Text → Bool
  | '.' :: rest => ((dropDigits? rest).map endsNumber).getD false
  | rest => endsNumber rest

/-- Whether a text is a number without sign: no zero stands before other digits. -/
def isUnsignedNumber : Text → Bool
  | '0' :: rest => endsWhole rest
  | rest => ((dropDigits? rest).map endsWhole).getD false

/-- Whether a text is a number. -/
def isNumber : Text → Bool
  | '-' :: rest => isUnsignedNumber rest
  | rest => isUnsignedNumber rest

/-- The token of a run of letters. -/
def wordToken? (word : Text) : Option Token :=
  if word = ("null" : Text) then some .null
  else if word = ("true" : Text) then some (.bool true)
  else if word = ("false" : Text) then some (.bool false)
  else none

/-! ### Strings -/

/-- A piece of a string: a byte, or the number of an escape `\u`. -/
inductive Piece where
  | byte (b : UInt8)
  | unit (code : Nat)
  deriving DecidableEq

/-- The bytes of the pieces of a string. An escape for the first half of a surrogate pair has to be
followed by one for the second half. -/
def bytesOfPieces? : List Piece → Option Bytes
  | [] => some []
  | .byte b :: rest => (bytesOfPieces? rest).map (b :: ·)
  | .unit high :: .unit low :: rest =>
    if 0xD800 ≤ high && high < 0xDC00 then
      if 0xDC00 ≤ low && low < 0xE000 then
        (bytesOfPieces? rest).map
          (String.utf8EncodeChar
            (Char.ofNat (0x10000 + (high - 0xD800) * 0x400 + (low - 0xDC00))) ++ ·)
      else none
    else if 0xDC00 ≤ high && high < 0xE000 then none
    else (bytesOfPieces? (.unit low :: rest)).map (String.utf8EncodeChar (Char.ofNat high) ++ ·)
  | .unit code :: rest =>
    if 0xD800 ≤ code && code < 0xE000 then none
    else (bytesOfPieces? rest).map (String.utf8EncodeChar (Char.ofNat code) ++ ·)

/-- The text of the pieces of a string, unless they are no text. -/
def textOfPieces? (pieces : List Piece) : Option Text := (bytesOfPieces? pieces).bind Text.ofUtf8?

/-- The byte that a short escape stands for. -/
def shortEscape? (b : UInt8) : Option UInt8 :=
  match Char.ofNat b.toNat with
  | '\"' => some 0x22
  | '\\' => some 0x5C
  | '/' => some 0x2F
  | 'b' => some 0x08
  | 'f' => some 0x0C
  | 'n' => some 0x0A
  | 'r' => some 0x0D
  | 't' => some 0x09
  | _ => none

/-- The value of a digit in base sixteen. -/
def hexDigit? (c : Char) : Option Nat :=
  if c.isDigit then some (c.toNat - '0'.toNat)
  else if 'a' ≤ c && c ≤ 'f' then some (c.toNat - 'a'.toNat + 10)
  else if 'A' ≤ c && c ≤ 'F' then some (c.toNat - 'A'.toNat + 10)
  else none

/-! ### Cutting into tokens -/

/-- What the bytes just read belong to. Texts and pieces are kept last first. -/
inductive Scan where
  /-- Between tokens. -/
  | between
  /-- Within a number. -/
  | number (read : Text)
  /-- Within a word. -/
  | word (read : Text)
  /-- Within a string. -/
  | string (pieces : List Piece)
  /-- After the backslash in a string. -/
  | escape (pieces : List Piece)
  /-- Within the four digits of an escape; `left` of them are still to come. -/
  | digits (pieces : List Piece) (left code : Nat)

/-- White space between tokens. -/
def isSpace (b : UInt8) : Bool := b = 0x20 || b = 0x0A || b = 0x0D || b = 0x09

/-- A character that numbers are made of. -/
def isNumberPart (c : Char) : Bool :=
  c.isDigit || c = '-' || c = '+' || c = '.' || c = 'e' || c = 'E'

/-- A byte as a character; bytes beyond ASCII are no part of a token outside strings. -/
def asciiChar (b : UInt8) : Char := Char.ofNat b.toNat

/-- What follows a byte between tokens: the token that the byte is, if it is one, and the state
after it. -/
def start? (b : UInt8) : Option (Option Token × Scan) :=
  if isSpace b then some (none, .between)
  else
    match asciiChar b with
    | '[' => some (some .openArray, .between)
    | ']' => some (some .closeArray, .between)
    | '\x7b' => some (some .openObject, .between)
    | '\x7d' => some (some .closeObject, .between)
    | ',' => some (some .comma, .between)
    | ':' => some (some .colon, .between)
    | '\"' => some (none, .string [])
    | c =>
      if c = '-' || c.isDigit then some (none, .number [c])
      else if 'a' ≤ c && c ≤ 'z' then some (none, .word [c])
      else none

/-- The token of a run of number characters, given last first. -/
def numberToken? (read : Text) : Option Token :=
  if isNumber read.reverse then some (.number read.reverse) else none

/-- Cuts bytes into tokens. -/
@[grind =]
def scan? : Scan → Bytes → Option (List Token)
  | .between, [] => some []
  | .between, b :: rest => do
    let (token, state) ← start? b
    return token.toList ++ (← scan? state rest)
  | .number read, [] => (numberToken? read).map ([·])
  | .number read, b :: rest =>
    if isNumberPart (asciiChar b) then scan? (.number (asciiChar b :: read)) rest
    else do
      let number ← numberToken? read
      let (token, state) ← start? b
      return number :: token.toList ++ (← scan? state rest)
  | .word read, [] => (wordToken? read.reverse).map ([·])
  | .word read, b :: rest =>
    if (asciiChar b).isAlphanum then scan? (.word (asciiChar b :: read)) rest
    else do
      let word ← wordToken? read.reverse
      let (token, state) ← start? b
      return word :: token.toList ++ (← scan? state rest)
  | .string pieces, b :: rest =>
    if b = 0x22 then (scan? .between rest).map (.string (textOfPieces? pieces.reverse) :: ·)
    else if b = 0x5C then scan? (.escape pieces) rest
    else if b < 0x20 then none
    else scan? (.string (.byte b :: pieces)) rest
  | .escape pieces, b :: rest =>
    if b = 0x75 then scan? (.digits pieces 4 0) rest
    else
      match shortEscape? b with
      | some byte => scan? (.string (.byte byte :: pieces)) rest
      | none => none
  | .digits pieces left code, b :: rest =>
    match hexDigit? (asciiChar b) with
    | none => none
    | some d =>
      if left ≤ 1 then scan? (.string (.unit (code * 16 + d) :: pieces)) rest
      else scan? (.digits pieces (left - 1) (code * 16 + d)) rest
  | .string _, [] => none
  | .escape _, [] => none
  | .digits _ _ _, [] => none

/-- The tokens of a document. -/
def tokens? (bytes : Bytes) : Option (List Token) := scan? .between bytes

end ActionBundles.Json
