import ActionBundles.Yaml.Character
import ActionBundles.Yaml.Scalar

/-!
# Writing YAML

A document of nested mappings is written in block style, two spaces deeper at each level. A text
with line feeds is written literally, line by line. Any other text is written plainly where that is
possible and means the text, and between single quotes otherwise. Double quotes hold what neither
of these can. Lines are never folded.
-/

namespace ActionBundles.Yaml

/-- What a written document holds. -/
inductive Outline where
  | bool (value : Bool)
  | text (t : Text)
  /-- A mapping, in the order in which it is written. -/
  | mapping (entries : List (Text × Outline))

/-! ### Characters -/

/-- A character that may be written as it is. -/
def isPrintable (c : Char) : Bool :=
  c = '\n' || (' ' ≤ c && c ≤ '~') ||
    ('\u00a0' ≤ c && c ≠ '\ufeff' && c.toNat ≠ 0xFFFE && c.toNat ≠ 0xFFFF)

/-! ### How a text can be written -/

/-- The ways to write a text. -/
inductive Style where
  | plain
  | literal
  | singleQuoted
  | doubleQuoted
  deriving DecidableEq

/-- Characters that mean something at the start of a plain text. -/
def leadIndicators : List Char :=
  ['#', ',', '[', ']', '\x7b', '\x7d', '&', '*', '!', '|', '>', '\'', '\"', '%', '@', '\x60']

/-- Whether the start of a text would not be read as plain text. -/
def startsWithIndicator : Text → Bool
  | [] => false
  | c :: rest =>
    c ∈ leadIndicators || ((c = '?' || c = ':' || c = '-') && endsWord rest.head?) ||
      Text.stripStart? "---" (c :: rest) ≠ none || Text.stripStart? "..." (c :: rest) ≠ none

/-- Whether a colon that ends a word, or a number sign that starts one, stands after the character
`before`. -/
def holdsIndicatorAfter (before : Char) : Text → Bool
  | [] => false
  | c :: rest =>
    (c = ':' && endsWord rest.head?) || (c = '#' && endsWord (some before)) ||
      holdsIndicatorAfter c rest

/-- Whether plain text could not be told from other parts of a document. -/
def holdsIndicator (t : Text) : Bool :=
  startsWithIndicator t ||
    match t with
    | [] => false
    | c :: rest => holdsIndicatorAfter c rest

/-- Whether a character satisfying `p` stands right before one satisfying `q`. -/
def holdsPair (p q : Char → Bool) : Text → Bool
  | c :: d :: rest => (p c && q d) || holdsPair p q (d :: rest)
  | _ => false

/-- A space. -/
def isSpace (c : Char) : Bool := c = ' '

/-- Whether either end of a text is a space or a line break. -/
def hasLooseEnd (t : Text) : Bool :=
  let isLoose (c : Char) : Bool := isSpace c || isBreak c
  (t.head?.map isLoose).getD false || (t.getLast?.map isLoose).getD false

/-- Whether a text would be read as something else than itself if it stood without quotes. -/
def isAmbiguous (t : Text) : Bool :=
  Scalar.isZeroPadded t ||
    match Scalar.ofPlain t with
    | .string _ => false
    | _ => true

/-- The way in which a text is written. -/
def styleOf (t : Text) : Style :=
  if t.any (!isPrintable ·) || holdsPair isSpace isBreak t then .doubleQuoted
  else if '\n' ∈ t then if t.getLast?.any isSpace then .doubleQuoted else .literal
  else if holdsPair isBreak isSpace t then .doubleQuoted
  else if t.any isBreak || hasLooseEnd t || holdsIndicator t || isAmbiguous t then .singleQuoted
  else .plain

/-! ### Texts -/

/-- The blanks before a line at some depth. -/
def margin (indent : Nat) : Text := List.replicate indent ' '

/-- What stands between single quotes. A line that follows a break starts at `indent`. -/
def singleQuotedFrom (indent : Nat) (afterBreak : Bool) : Text → Text
  | [] => if afterBreak then margin indent else []
  | c :: rest =>
    if isBreak c then c :: singleQuotedFrom indent true rest
    else
      (if afterBreak then margin indent else []) ++ (if c = '\'' then ['\'', '\''] else [c]) ++
        singleQuotedFrom indent false rest

/-- The lines of a literal text, each at `indent` unless it is empty. -/
def literalFrom (indent : Nat) (afterBreak : Bool) : Text → Text
  | [] => []
  | c :: rest =>
    if isBreak c then c :: literalFrom indent true rest
    else (if afterBreak then margin indent else []) ++ c :: literalFrom indent false rest

/-- Whether a text ends with a line break. -/
def endsLine (t : Text) : Bool := t.getLast?.any isBreak

/-- The marks of a literal text: the depth of its lines, if the first one does not show it, and how
many line breaks end it, if not exactly one. -/
def literalMarks (t : Text) : Text :=
  (if t.head?.any fun c => isSpace c || isBreak c then ['2'] else []) ++
    if !endsLine t then ['-']
    else if t.length = 1 || endsLine t.dropLast then ['+']
    else []

/-- The digits of a number in base sixteen, at least `width` of them. -/
def hex (width n : Nat) : Text :=
  let digits := (Nat.toDigits 16 n).map Char.toUpper
  List.replicate (width - digits.length) '0' ++ digits

/-- The short escapes. -/
def shortEscapes : List (Char × Char) :=
  [('\x00', '0'), ('\x07', 'a'), ('\x08', 'b'), ('\t', 't'), ('\n', 'n'), ('\x0b', 'v'),
    ('\x0c', 'f'), ('\r', 'r'), ('\x1b', 'e'), ('\"', '\"'), ('\\', '\\'), ('\u0085', 'N'),
    ('\u00a0', '_'), ('\u2028', 'L'), ('\u2029', 'P')]

/-- A character between double quotes. -/
def doubleQuotedChar (c : Char) : Text :=
  if isPrintable c && !isBreak c && c ≠ '\"' && c ≠ '\\' then [c]
  else
    '\\' :: match shortEscapes.lookup c with
      | some letter => [letter]
      | none =>
        if c.toNat ≤ 0xFF then 'x' :: hex 2 c.toNat
        else if c.toNat ≤ 0xFFFF then 'u' :: hex 4 c.toNat
        else 'U' :: hex 8 c.toNat

/-- A text in a document up to the end of its line; lines that it needs start at `indent`. -/
def writeText (indent : Nat) (t : Text) : Text :=
  match styleOf t with
  | .plain => t ++ ['\n']
  | .literal =>
    '|' :: (literalMarks t ++ '\n' :: literalFrom indent true t ++
      if endsLine t then [] else ['\n'])
  | .singleQuoted => '\'' :: (singleQuotedFrom indent false t ++ ['\'', '\n'])
  | .doubleQuoted => '\"' :: (t.flatMap doubleQuotedChar ++ ['\"', '\n'])

/-! ### Documents -/

/-- The most bytes of a key that stands on the line of its value. -/
def maxKeyLength : Nat := 128

/-- Whether a key stands on the line of its value. -/
def isLineKey (key : Text) : Bool := !key.any isBreak && key.byteLength ≤ maxKeyLength

/-- A key with its mark, up to where the value follows. -/
def writeKey (indent : Nat) (key : Text) : Text :=
  if isLineKey key then (writeText (indent + 2) key).dropLast ++ [':']
  else '?' :: ' ' :: (writeText (indent + 2) key ++ margin indent ++ [':'])

mutual

/-- The entries of a mapping at some depth, each up to the end of its last line and without the
blanks before its first. -/
def writeEntries (indent : Nat) : List (Text × Outline) → List Text
  | [] => []
  | (key, value) :: rest =>
    (writeKey indent key ++ writeValue indent (isLineKey key) value) :: writeEntries indent rest

/-- A value after its key, which stands at `indent`. A mapping starts on a line of its own if the
key and its mark share a line. -/
def writeValue (indent : Nat) (inLine : Bool) : Outline → Text
  | .bool value => if value then " true\n" else " false\n"
  | .text t => ' ' :: writeText (indent + 2) t
  | .mapping [] => " \x7b\x7d\n"
  | .mapping entries =>
    (if inLine then '\n' :: margin (indent + 2) else [' ']) ++
      Text.join (margin (indent + 2)) (writeEntries (indent + 2) entries)

end

/-- The text of a document that is a mapping. -/
def render (entries : List (Text × Outline)) : Text := (writeEntries 0 entries).flatten

end ActionBundles.Yaml
