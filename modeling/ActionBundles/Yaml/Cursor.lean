import ActionBundles.Yaml.Character

/-!
# Places in a document

A cursor is a place in a document: what follows it, and how far it is from the start of the
document and of its line. Blanks and line breaks between the words of a scalar are read as a `Gap`,
which folds into the text that they stand for.
-/

namespace ActionBundles.Yaml

/-- A place in a document. -/
structure Cursor where
  /-- What follows. -/
  rest : Text
  /-- The characters before. -/
  index : Nat := 0
  /-- The lines before. -/
  line : Nat := 0
  /-- The characters before in this line. -/
  column : Nat := 0
  deriving DecidableEq

namespace Cursor

/-- The next character. -/
def peek (c : Cursor) : Option Char := c.rest.head?

/-- The character after the next `n`. -/
def peekAt (c : Cursor) (n : Nat) : Option Char := c.rest[n]?

/-- The place after the next `n` characters, none of which is a line break. -/
def skip (n : Nat) (c : Cursor) : Cursor :=
  { c with rest := c.rest.drop n, index := c.index + n, column := c.column + n }

/-- The next characters, as long as they satisfy `p`. -/
def ahead (p : Char → Bool) (c : Cursor) : Text := c.rest.takeWhile p

/-- The place after the next characters that satisfy `p`. -/
def skipWhile (p : Char → Bool) (c : Cursor) : Cursor := c.skip (c.ahead p).length

/-- The place after a line break of `n` characters. -/
def nextLine (n : Nat) (c : Cursor) : Cursor :=
  { rest := c.rest.drop n, index := c.index + n, line := c.line + 1, column := 0 }

/-- The line break that follows: what it stands for, and the place after it. -/
def lineBreak? (c : Cursor) : Option (Text × Cursor) :=
  match c.rest with
  | '\r' :: '\n' :: _ => some (['\n'], c.nextLine 2)
  | '\u2028' :: _ => some (['\u2028'], c.nextLine 1)
  | '\u2029' :: _ => some (['\u2029'], c.nextLine 1)
  | b :: _ => if isBreak b then some (['\n'], c.nextLine 1) else none
  | [] => none

/-- The place after the line break that follows, if one does. -/
def skipBreak (c : Cursor) : Cursor := (c.lineBreak?.map (·.2)).getD c

/-- Whether the mark of the start or the end of a document follows. -/
def isAtMarker (c : Cursor) : Bool :=
  c.column = 0 && endsWord (c.peekAt 3) &&
    (c.rest.take 3 = "---".toList || c.rest.take 3 = "...".toList)

/-- The place after blanks and a comment. -/
def skipComment (c : Cursor) : Cursor :=
  let c := c.skipWhile isBlank
  if c.peek = some '#' then c.skipWhile (!isBreak ·) else c

/-- The place after the rest of a line that holds nothing but blanks and a comment. -/
def endLine? (c : Cursor) : Option Cursor :=
  let c := c.skipComment
  if c.peek.all isBreak then some c.skipBreak else none

end Cursor

/-! ### Gaps -/

/-- Blanks and line breaks between two words. -/
structure Gap where
  /-- The blanks before the first line break. -/
  blanks : Text := []
  /-- What the first line break stands for. -/
  first : Option Text := none
  /-- What the other line breaks stand for. -/
  further : Text := []
  deriving DecidableEq

namespace Gap

/-- Whether there is a line break. -/
def isBroken (g : Gap) : Bool := g.first.isSome

/-- The gap with a further line break. -/
def addBreak (g : Gap) (text : Text) : Gap :=
  match g.first with
  | none => { g with first := some text }
  | some _ => { g with further := g.further ++ text }

/-- What a gap stands for: a single line feed for a space, further ones for themselves. -/
def fold (g : Gap) : Text :=
  match g.first with
  | none => g.blanks
  | some ['\n'] => if g.further = [] then [' '] else g.further
  | some text => text ++ g.further

/-- Reads on in a gap. After a line break, no tab may stand before the column `indent`. The number
bounds the characters that are read. -/
def read? (indent : Nat) : Nat → Gap → Cursor → Option (Gap × Cursor)
  | 0, g, c => some (g, c)
  | bound + 1, g, c =>
    match c.lineBreak? with
    | some (text, next) => read? indent bound (g.addBreak text) next
    | none =>
      match c.peek with
      | some b =>
        if isBlank b then
          if g.isBroken then
            if b = '\t' && c.column < indent then none else read? indent bound g (c.skip 1)
          else read? indent bound { g with blanks := g.blanks ++ [b] } (c.skip 1)
        else some (g, c)
      | none => some (g, c)

end Gap

/-- The gap that follows, and the place after it. -/
def Cursor.gap? (indent : Nat) (start : Gap) (c : Cursor) : Option (Gap × Cursor) :=
  start.read? indent c.rest.length c

end ActionBundles.Yaml
