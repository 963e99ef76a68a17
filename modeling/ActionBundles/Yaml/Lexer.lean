import ActionBundles.Yaml.Token

/-!
# Cutting a document into tokens

Indentation and line ends structure a document, so the tokens depend on where they stand. A lexer
keeps the columns of the blocks that are open and, for each pair of brackets that is open, whether
what was read last may be a key. That is settled by the colon after it: the marks of the key, and
of the mapping that it starts, are then put in before it.
-/

namespace ActionBundles.Yaml

/-- Something that is a key if a colon follows it. -/
structure PossibleKey where
  /-- Nothing but a key may stand here. -/
  isRequired : Bool
  /-- The number of tokens before it. -/
  number : Nat
  /-- Where it starts. -/
  index : Nat
  line : Nat
  column : Nat
  deriving DecidableEq

/-- A document that is being cut into tokens. -/
structure Lexer where
  cursor : Cursor
  /-- The columns of the open blocks, innermost first. -/
  indents : List Nat := []
  /-- Whether a key may start here without a mark. -/
  keyAllowed : Bool := true
  /-- The possible key outside of brackets, or within the innermost ones. -/
  possible : Option PossibleKey := none
  /-- The possible keys further out, innermost first, one for each pair of open brackets. -/
  outer : List (Option PossibleKey) := []
  /-- The tokens so far, last first. -/
  tokens : List Token := []
  deriving DecidableEq

namespace Lexer

/-- The most characters from the start of a key to its colon. -/
def maxKeyLength : Nat := 1024

/-- Whether brackets are open. -/
def inFlow (l : Lexer) : Bool := !l.outer.isEmpty

/-- The lexer with a further token. -/
def push (l : Lexer) (t : Token) : Lexer := { l with tokens := t :: l.tokens }

/-- The lexer with a further token of `n` characters. -/
def pushMark (l : Lexer) (n : Nat) (t : Token) : Lexer :=
  { l with tokens := t :: l.tokens, cursor := l.cursor.skip n }

/-- The lexer with tokens put in after the first `number`. -/
def putIn (l : Lexer) (number : Nat) (ts : List Token) : Lexer :=
  let after := l.tokens.length - number
  { l with tokens := l.tokens.take after ++ ts.reverse ++ l.tokens.drop after }

/-! ### Blocks -/

/-- Opens a block at a column if it is deeper than the blocks around, with its first token after
the first `number`. -/
def openBlock (l : Lexer) (column number : Nat) (t : Token) : Lexer :=
  if !l.inFlow && l.indents.head?.all (· < column) then
    { l.putIn number [t] with indents := column :: l.indents }
  else l

/-- Closes the blocks for which `p` holds of their column. -/
def closeBlocks (p : Nat → Bool) (l : Lexer) : Lexer :=
  if l.inFlow then l
  else
    { l with
      indents := l.indents.dropWhile p
      tokens := List.replicate (l.indents.takeWhile p).length .closeBlock ++ l.tokens }

/-! ### Keys -/

/-- Gives up a possible key, unless it has to be one. -/
def dropKey? (l : Lexer) : Option Lexer :=
  if l.possible.any (·.isRequired) then none else some { l with possible := none }

/-- Takes what starts here as a possible key. -/
def noteKey? (l : Lexer) : Option Lexer :=
  if l.keyAllowed then
    l.dropKey?.map fun l =>
      { l with
        possible := some
          { isRequired := !l.inFlow && l.indents.head? = some l.cursor.column
            number := l.tokens.length
            index := l.cursor.index
            line := l.cursor.line
            column := l.cursor.column } }
  else some l

/-- Whether a possible key is too far away. -/
def isStale (c : Cursor) (key : PossibleKey) : Bool :=
  key.line < c.line || key.index + maxKeyLength < c.index

/-- Gives up a possible key that is too far away, unless it has to be one. -/
def refresh? (c : Cursor) : Option PossibleKey → Option (Option PossibleKey)
  | none => some none
  | some key =>
    if isStale c key then if key.isRequired then none else some none
    else some (some key)

/-- Gives up the possible keys that are too far away. -/
def dropStale? (l : Lexer) : Option Lexer := do
  return { l with
    possible := ← refresh? l.cursor l.possible
    outer := ← l.outer.mapM (refresh? l.cursor) }

/-! ### Single tokens -/

/-- The mark of the start or the end of a document, or a directive: it ends all blocks. -/
def topLevel? (l : Lexer) (read : Cursor → Option (Token × Cursor)) : Option Lexer := do
  let l ← (l.closeBlocks fun _ => true).dropKey?
  let (token, cursor) ← read l.cursor
  return { l.push token with cursor, keyAllowed := false }

/-- An opening bracket. -/
def openFlow? (l : Lexer) (t : Token) : Option Lexer :=
  l.noteKey?.map fun l =>
    { l.pushMark 1 t with possible := none, outer := l.possible :: l.outer, keyAllowed := true }

/-- A closing bracket. -/
def closeFlow? (l : Lexer) (t : Token) : Option Lexer :=
  l.dropKey?.map fun l =>
    let l := { l.pushMark 1 t with keyAllowed := false }
    match l.outer with
    | [] => l
    | possible :: outer => { l with possible, outer }

/-- A comma. -/
def separator? (l : Lexer) : Option Lexer :=
  l.dropKey?.map fun l => { l.pushMark 1 .separator with keyAllowed := true }

/-- A dash. -/
def entry? (l : Lexer) : Option Lexer :=
  if !l.inFlow && !l.keyAllowed then none
  else
    (l.openBlock l.cursor.column l.tokens.length .openBlockSequence).dropKey?.map fun l =>
      { l.pushMark 1 .entry with keyAllowed := true }

/-- A question mark. -/
def key? (l : Lexer) : Option Lexer :=
  if !l.inFlow && !l.keyAllowed then none
  else
    (l.openBlock l.cursor.column l.tokens.length .openBlockMapping).dropKey?.map fun l =>
      { l.pushMark 1 .key with keyAllowed := !l.inFlow }

/-- A colon. -/
def value? (l : Lexer) : Option Lexer :=
  match l.possible with
  | some key =>
    let l := (l.putIn key.number [.key]).openBlock key.column key.number .openBlockMapping
    some { l.pushMark 1 .value with possible := none, keyAllowed := false }
  | none =>
    if !l.inFlow && !l.keyAllowed then none
    else
      let l := l.openBlock l.cursor.column l.tokens.length .openBlockMapping
      some { l.pushMark 1 .value with keyAllowed := !l.inFlow }

/-- Something that may be a key or belong to one. -/
def content? (l : Lexer) (read : Cursor → Option (Token × Cursor)) : Option Lexer := do
  let l ← l.noteKey?
  let (token, cursor) ← read l.cursor
  return { l.push token with cursor, keyAllowed := false }

/-- A plain scalar. A key may stand on the line after it. -/
def plain? (l : Lexer) : Option Lexer := do
  let l ← l.noteKey?
  let indent := (l.indents.head?.map (· + 1)).getD 0
  let (token, broken, cursor) ← Token.plain? l.inFlow indent l.cursor
  return { l.push token with cursor, keyAllowed := broken }

/-- A scalar in a block of lines. -/
def block? (l : Lexer) (isLiteral : Bool) : Option Lexer := do
  let l ← l.dropKey?
  let (token, cursor) ← Token.block? isLiteral l.indents l.cursor
  return { l.push token with cursor, keyAllowed := true }

/-! ### The next token -/

/-- Skips blanks, comments and line ends before the next token. A tab may not stand where a key may
start. The number bounds the lines that are skipped. -/
def skipToToken : Nat → Lexer → Lexer
  | 0, l => l
  | bound + 1, l =>
    let c := l.cursor
    let c := if c.index = 0 && c.peek = some '\ufeff' then c.skip 1 else c
    let tabs := l.inFlow || !l.keyAllowed
    let c := c.skipWhile fun b => b = ' ' || (tabs && b = '\t')
    let c := if c.peek = some '#' then c.skipWhile (!isBreak ·) else c
    match c.lineBreak? with
    | none => { l with cursor := c }
    | some (_, next) =>
      skipToToken bound { l with cursor := next, keyAllowed := l.keyAllowed || !l.inFlow }

/-- The marks that are tokens of their own, with a reader for each. -/
def marks : List (Char × (Lexer → Option Lexer)) :=
  [('[', (openFlow? · .openFlowSequence)), ('\x7b', (openFlow? · .openFlowMapping)),
    (']', (closeFlow? · .closeFlowSequence)), ('\x7d', (closeFlow? · .closeFlowMapping)),
    (',', separator?),
    ('*', (content? · fun c => (Token.anchorName? (c.skip 1)).map fun a => (.alias a.1, a.2))),
    ('&', (content? · fun c => (Token.anchorName? (c.skip 1)).map fun a => (.anchor a.1, a.2))),
    ('!', fun l => l.content? (Token.tag? l.inFlow)),
    ('\'', (content? · (Token.quoted? false))), ('\"', (content? · (Token.quoted? true)))]

/-- Characters that no plain scalar starts with, though they start nothing else. -/
def reserved : List Char := ['#', '|', '>', '%', '@', '\x60']

/-- The lexer after the token that starts with `c`, before `next`. -/
def token? (l : Lexer) (c : Char) (next : Option Char) : Option Lexer :=
  if l.cursor.column = 0 && c = '%' then l.topLevel? Token.directive?
  else if l.cursor.isAtMarker then
    l.topLevel? fun cursor =>
      some (if c = '-' then .documentStart else .documentEnd, cursor.skip 3)
  else
    match marks.lookup c with
    | some read => read l
    | none =>
      if c = '-' && endsWord next then l.entry?
      else if c = '?' && (l.inFlow || endsWord next) then l.key?
      else if c = ':' && (l.inFlow || endsWord next) then l.value?
      else if c = '|' && !l.inFlow then l.block? true
      else if c = '>' && !l.inFlow then l.block? false
      else if c ∈ reserved || isBlank c then none
      else l.plain?

/-- The tokens of the rest of a document. The number bounds the tokens that are read. -/
def run? : Nat → Lexer → Option (List Token)
  | 0, _ => none
  | bound + 1, l => do
    let l ← (l.skipToToken (l.cursor.rest.length + 1)).dropStale?
    let l := l.closeBlocks fun indent => l.cursor.column < indent
    match l.cursor.rest with
    | [] => (l.closeBlocks fun _ => true).dropKey?.map (·.tokens.reverse)
    | c :: rest => (← l.token? c rest.head?).run? bound

end Lexer

/-- The tokens of a document. -/
def tokens? (t : Text) : Option (List Token) :=
  if t.all isAllowed then Lexer.run? (t.length + 1) { cursor := { rest := t } } else none

end ActionBundles.Yaml
