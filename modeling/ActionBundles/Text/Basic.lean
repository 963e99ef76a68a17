/-!
# Text

A text is the list of its characters, so every function on texts is a function on lists and
comes with the lemmas of lists. A string literal stands for the list of its characters wherever
a text is expected.

What is here:

* blanks (`Text.isBlank`, the white space of Unicode) and trimming;
* lines, with either line ending;
* cutting a text at a character, once or everywhere;
* finding and removing a piece of text.
-/

namespace ActionBundles

/-- A text is the list of its characters. -/
abbrev Text := List Char

/-- A string literal is the text of its characters. -/
instance : Coe String Text := ⟨String.toList⟩

instance : LawfulBEq Text := inferInstance

namespace Text

/-! ### Blanks -/

/-- The code points of white space, as closed ranges in increasing order. -/
def blankRanges : List (Nat × Nat) :=
  [(0x09, 0x0D), (0x20, 0x20), (0x85, 0x85), (0xA0, 0xA0), (0x1680, 0x1680), (0x2000, 0x200A),
    (0x2028, 0x2029), (0x202F, 0x202F), (0x205F, 0x205F), (0x3000, 0x3000)]

/-- White space: tabs and line ends, the space, and the spaces beyond ASCII. -/
def isBlank (c : Char) : Bool :=
  blankRanges.any fun r => r.1 ≤ c.toNat && c.toNat ≤ r.2

/-- The text without the blanks before it. -/
def trimStart (t : Text) : Text := t.dropWhile isBlank

/-- The text without the blanks after it. -/
def trimEnd (t : Text) : Text := (t.reverse.dropWhile isBlank).reverse

/-- The text without the blanks around it. -/
def trim (t : Text) : Text := trimEnd (trimStart t)

/-- The longest pieces of a text that hold no blank. -/
def words (t : Text) : List Text := (t.splitOnP isBlank).filter (· ≠ [])

/-! ### Lines -/

/-- A line that a line feed ended loses the carriage return before it. -/
def dropReturn (line : Text) : Text :=
  if line.getLast? = some '\r' then line.dropLast else line

/-- The last piece after cutting at line feeds is a line only if it holds something, and no line
feed ended it. -/
def closeLines : List Text → List Text
  | [] => []
  | [last] => if last = [] then [] else [last]
  | line :: next :: rest => dropReturn line :: closeLines (next :: rest)

/-- The lines of a text. A line ends with a line feed, or with a carriage return and a line feed;
the last line needs no end. -/
def lines (t : Text) : List Text := closeLines (t.splitOn '\n')

/-! ### Cutting -/

/-- What stands before and after the first `sep`, if there is one. -/
def splitOnce (sep : Char) : Text → Option (Text × Text)
  | [] => none
  | c :: rest =>
    if c = sep then some ([], rest)
    else (splitOnce sep rest).map fun halves => (c :: halves.1, halves.2)

theorem splitOnce_eq_none_iff {sep : Char} {t : Text} : splitOnce sep t = none ↔ sep ∉ t := by
  induction t with
  | nil => simp [splitOnce]
  | cons c rest ih =>
    by_cases h : c = sep
    · simp [splitOnce, h]
    · simp [splitOnce, h, ih, Ne.symm h]

theorem splitOnce_eq_some_iff {sep : Char} {t before after : Text} :
    splitOnce sep t = some (before, after) ↔ t = before ++ sep :: after ∧ sep ∉ before := by
  induction t generalizing before with
  | nil => simp [splitOnce]
  | cons c rest ih =>
    rw [splitOnce]
    split
    · next h =>
      subst h
      cases before <;> grind
    · next h =>
      cases before with
      | nil => simp [h]
      | cons d before =>
        simp only [Option.map_eq_some_iff, Prod.mk.injEq, List.cons.injEq, List.cons_append,
          List.mem_cons, not_or]
        constructor
        · rintro ⟨⟨b, a⟩, hb, ⟨rfl, rfl⟩, rfl⟩
          exact ⟨⟨rfl, (ih.1 hb).1⟩, Ne.symm h, (ih.1 hb).2⟩
        · rintro ⟨⟨rfl, hr⟩, -, hn⟩
          exact ⟨(before, after), ih.2 ⟨hr, hn⟩, ⟨rfl, rfl⟩, rfl⟩

/-- What stands after the last `sep`; the whole text if there is none. -/
def afterLast (sep : Char) (t : Text) : Text := (t.splitOn sep).getLastD []

/-- The text after `lead`, if it starts with `lead`. -/
def stripStart? (lead t : Text) : Option Text := lead.isPrefixOf? t

/-- The text before the character `c`, if it ends with `c`. -/
def stripEnd? (c : Char) (t : Text) : Option Text :=
  if t.getLast? = some c then some t.dropLast else none

/-- The text without the repetitions of `lead` that it starts with. -/
def stripAllStart (lead : Text) (t : Text) : Text :=
  match stripStart? lead t with
  | some rest => if rest.length < t.length then stripAllStart lead rest else t
  | none => t
termination_by t.length

/-- The text without the characters satisfying `p` at either end. -/
def trimMatches (p : Char → Bool) (t : Text) : Text :=
  ((t.dropWhile p).reverse.dropWhile p).reverse

/-! ### Finding and removing -/

/-- Whether `piece` stands somewhere in the text. -/
def includes (piece : Text) : Text → Bool
  | [] => piece.isEmpty
  | c :: rest => piece.isPrefixOf (c :: rest) || includes piece rest

/-- Removal of a piece, from left to right; `pending` characters belong to an occurrence that has
been met and are dropped. -/
def removeFrom (piece : Text) : Nat → Text → Text
  | _, [] => []
  | pending + 1, _ :: rest => removeFrom piece pending rest
  | 0, c :: rest =>
    if piece.isPrefixOf (c :: rest) then removeFrom piece (piece.length - 1) rest
    else c :: removeFrom piece 0 rest

/-- The text without the occurrences of `piece`, taken from left to right. -/
def remove (piece t : Text) : Text := removeFrom piece 0 t

/-! ### Letters of ASCII -/

/-- The text with the capital letters of ASCII made small; other characters stay. -/
def asciiLower (t : Text) : Text := t.map Char.toLower

/-! ### Joining and counting -/

/-- The texts one after another with `sep` between them. -/
def join (sep : Text) (ts : List Text) : Text := sep.intercalate ts

/-- The decimal digits of a number. -/
def ofNat (n : Nat) : Text := Nat.toDigits 10 n

/-- The number of bytes of the text in UTF-8. -/
def byteLength : Text → Nat
  | [] => 0
  | c :: rest => c.utf8Size + byteLength rest

end Text

end ActionBundles
