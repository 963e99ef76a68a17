import ActionBundles.Text.Utf8
import ActionBundles.Yaml.Cursor

/-!
# Tokens of YAML

The parts that a document is cut into, and how each of them is read that does not depend on the
layout: scalars, names of anchors, tags and directives. A reader starts at the mark of its part and
returns the place after it.
-/

namespace ActionBundles.Yaml

/-- A part of a document. -/
inductive Token where
  | version (major minor : Nat)
  | tagHandle (handle : Text) (lead : Bytes)
  | documentStart
  | documentEnd
  | openBlockSequence
  | openBlockMapping
  /-- The end of a block, which indentation shows. -/
  | closeBlock
  | openFlowSequence
  | closeFlowSequence
  | openFlowMapping
  | closeFlowMapping
  /-- The dash before an entry. -/
  | entry
  /-- The comma between entries. -/
  | separator
  | key
  | value
  | alias (name : Text)
  | anchor (name : Text)
  | tag (handle : Text) (suffix : Bytes)
  | scalar (text : Text) (plain : Bool)
  deriving DecidableEq

namespace Token

/-! ### Scalars between quotes -/

/-- The value of a digit in base sixteen. -/
def hexDigit? (c : Char) : Option Nat :=
  if c.isDigit then some (c.toNat - '0'.toNat)
  else if 'a' ≤ c && c ≤ 'f' then some (c.toNat - 'a'.toNat + 10)
  else if 'A' ≤ c && c ≤ 'F' then some (c.toNat - 'A'.toNat + 10)
  else none

/-- The number of digits after an escape letter that takes digits. -/
def escapeWidths : List (Char × Nat) := [('x', 2), ('u', 4), ('U', 8)]

/-- The characters of short escapes. -/
def escapes : List (Char × Char) :=
  [('0', '\x00'), ('a', '\x07'), ('b', '\x08'), ('t', '\t'), ('\t', '\t'), ('n', '\n'),
    ('v', '\x0b'), ('f', '\x0c'), ('r', '\r'), ('e', '\x1b'), (' ', ' '), ('\"', '\"'), ('/', '/'),
    ('\\', '\\'), ('N', '\u0085'), ('_', '\u00a0'), ('L', '\u2028'), ('P', '\u2029')]

/-- The character that an escape stands for, given what follows its backslash, and the number of
characters that it takes there. -/
def escape? : Text → Option (Char × Nat)
  | [] => none
  | letter :: rest =>
    match escapes.lookup letter with
    | some c => some (c, 1)
    | none =>
      match escapeWidths.lookup letter with
      | none => none
      | some width =>
        if rest.length < width then none
        else
          ((rest.take width).mapM hexDigit?).bind fun digits =>
            let code := digits.foldl (fun n d => n * 16 + d) 0
            if code.isValidChar then some (Char.ofNat code, width + 1) else none

/-- Reads on between quotes; what has been read is given last first. The number bounds the words
and gaps that are read. -/
@[grind =]
def quotedFrom? (double : Bool) : Nat → Text → Cursor → Option (Text × Cursor)
  | 0, _, _ => none
  | bound + 1, read, c =>
    let takeGap (start : Gap) (c : Cursor) : Option (Text × Cursor) :=
      (c.gap? 0 start).bind fun (gap, next) =>
        quotedFrom? double bound (gap.fold.reverse ++ read) next
    if c.isAtMarker then none
    else
      match c.rest with
      | [] => none
      | b :: rest =>
        if b = (if double then '\"' else '\'') then
          if !double && rest.head? = some '\'' then
            quotedFrom? double bound ('\'' :: read) (c.skip 2)
          else some (read.reverse, c.skip 1)
        else if double && b = '\\' then
          if rest.head?.any isBreak then takeGap { first := some [] } (c.skip 1).skipBreak
          else
            (escape? rest).bind fun (char, width) =>
              quotedFrom? double bound (char :: read) (c.skip (width + 1))
        else if isBlank b || isBreak b then takeGap {} c
        else quotedFrom? double bound (b :: read) (c.skip 1)

/-- A scalar between quotes. -/
def quoted? (double : Bool) (c : Cursor) : Option (Token × Cursor) :=
  (quotedFrom? double (c.rest.length + 1) [] (c.skip 1)).map fun (text, next) =>
    (.scalar text false, next)

/-! ### Plain scalars -/

/-- Characters that end a word within brackets. -/
def flowIndicators : List Char := [',', '[', ']', '\x7b', '\x7d']

/-- The length of the word of a plain scalar. Within brackets, a colon may not stand right before an
indicator. -/
@[grind =]
def wordLength? (inFlow : Bool) : Text → Option Nat
  | [] => some 0
  | c :: rest =>
    if endsWord (some c) then some 0
    else if inFlow && c = ':' && rest.head?.any fun d => d = '?' || d ∈ flowIndicators then none
    else if (c = ':' && endsWord rest.head?) || (inFlow && c ∈ flowIndicators) then some 0
    else (wordLength? inFlow rest).map (· + 1)

/-- Reads on in a plain scalar after a gap; what has been read is given last first. The result also
tells whether the gap after the scalar holds a line break. -/
@[grind =]
def plainFrom? (inFlow : Bool) (indent : Nat) : Nat → Text → Gap → Cursor →
    Option (Text × Bool × Cursor)
  | 0, _, _, _ => none
  | bound + 1, read, before, c =>
    if c.isAtMarker || c.peek = some '#' then some (read.reverse, before.isBroken, c)
    else
      (wordLength? inFlow c.rest).bind fun length =>
        let read := if length = 0 then read
          else (c.rest.take length).reverse ++ (before.fold.reverse ++ read)
        let c := c.skip length
        if c.peek.any fun b => isBlank b || isBreak b then
          (c.gap? indent {}).bind fun (gap, next) =>
            if !inFlow && next.column < indent then some (read.reverse, gap.isBroken, next)
            else plainFrom? inFlow indent bound read gap next
        else some (read.reverse, length = 0 && before.isBroken, c)

/-- A plain scalar in a block at `indent`, and whether a line break follows it. -/
def plain? (inFlow : Bool) (indent : Nat) (c : Cursor) : Option (Token × Bool × Cursor) :=
  (plainFrom? inFlow indent (c.rest.length + 1) [] {} c).map fun (text, broken, next) =>
    (.scalar text true, broken, next)

/-! ### Scalars in blocks of lines -/

/-- What becomes of the line breaks at the end of a block. -/
inductive Chomp where
  /-- One is kept. -/
  | clip
  /-- All are kept. -/
  | keep
  /-- None is kept. -/
  | strip
  deriving DecidableEq

/-- The marks after the bar of a block: what becomes of the last line breaks, and how much deeper
its lines are. -/
def blockMarks? (c : Cursor) : Option (Chomp × Option Nat × Cursor) :=
  let chomp? (c : Cursor) : Option Chomp :=
    if c.peek = some '+' then some .keep else if c.peek = some '-' then some .strip else none
  let digit? (c : Cursor) : Option Nat :=
    (c.peek.filter Char.isDigit).map fun d => d.toNat - '0'.toNat
  let (chomp, deeper, next) := match chomp? c, digit? c with
    | some chomp, _ =>
      match digit? (c.skip 1) with
      | some d => (chomp, some d, c.skip 2)
      | none => (chomp, none, c.skip 1)
    | none, some d =>
      match chomp? (c.skip 1) with
      | some chomp => (chomp, some d, c.skip 2)
      | none => (.clip, some d, c.skip 1)
    | none, none => (.clip, none, c)
  if deeper = some 0 then none else some (chomp, deeper, next)

/-- Reads empty lines of a block: the depth of the deepest of them, their line breaks, and the place
at the text of the next line. -/
def emptyLines? (indent : Option Nat) : Nat → Nat → Text → Cursor → Option (Nat × Text × Cursor)
  | 0, deepest, breaks, c => some (deepest, breaks, c)
  | bound + 1, deepest, breaks, c =>
    let spaces := (c.ahead (· = ' ')).length
    let c := c.skip (match indent with
      | none => spaces
      | some n => min spaces (n - c.column))
    let deepest := max deepest c.column
    if c.peek = some '\t' && indent.all (c.column < ·) then none
    else
      match c.lineBreak? with
      | none => some (deepest, breaks, c)
      | some (text, next) => emptyLines? indent bound deepest (breaks ++ text) next

/-- Reads on in a block with its lines at `indent`. `last` is the line break before, `breaks` are
the empty lines after it, and `indented` tells whether the line before started with a blank. -/
def blockFrom? (isLiteral : Bool) (indent : Nat) : Nat → Text → Text → Text → Bool → Cursor →
    Option (Text × Text × Text × Cursor)
  | 0, read, last, breaks, _, c => some (read, last, breaks, c)
  | bound + 1, read, last, breaks, indented, c =>
    if c.column = indent && c.rest ≠ [] then
      let blank := c.peek.any isBlank
      let joint :=
        if !isLiteral && last = ['\n'] && !indented && !blank then
          if breaks = [] then [' '] else breaks
        else last ++ breaks
      let line := c.ahead (!isBreak ·)
      let read := line.reverse ++ (joint.reverse ++ read)
      let c := c.skip line.length
      let (last, c) := c.lineBreak?.getD ([], c)
      (emptyLines? (some indent) c.rest.length 0 [] c).bind fun (_, breaks, c) =>
        blockFrom? isLiteral indent bound read last breaks blank c
    else some (read, last, breaks, c)

/-- A scalar in a block of lines, where `indents` are the columns of the blocks around it, innermost
first. -/
def block? (isLiteral : Bool) (indents : List Nat) (c : Cursor) : Option (Token × Cursor) := do
  let (chomp, deeper, c) ← blockMarks? (c.skip 1)
  let c ← c.endLine?
  let given := deeper.map (indents.headD 0 + ·)
  let (deepest, breaks, c) ← emptyLines? given (c.rest.length + 1) 0 [] c
  let least := match indents with
    | [] => 1
    | around :: _ => around + 1
  let indent := given.getD (max deepest least)
  let (read, last, breaks, c) ←
    blockFrom? isLiteral indent (c.rest.length + 1) [] [] breaks false c
  let tail := match chomp with
    | .strip => []
    | .clip => last
    | .keep => last ++ breaks
  return (.scalar (read.reverse ++ tail) false, c)

/-! ### Anchors -/

/-- Characters that may stand right after the name of an anchor. -/
def nameEnds : List Char := ['?', ':', ',', ']', '\x7d', '%', '@', '\x60']

/-- The name of an anchor after its mark. -/
def anchorName? (c : Cursor) : Option (Text × Cursor) :=
  let name := c.ahead isNameChar
  let next := c.skip name.length
  if name ≠ [] && (endsWord next.peek || next.peek.any (· ∈ nameEnds)) then some (name, next)
  else none

/-! ### Tags -/

/-- Characters of tags that are neither names nor escapes. -/
def tagSigns : List Char :=
  [';', '/', '?', ':', '@', '&', '=', '+', '$', '.', '!', '~', '*', '\'', '(', ')']

/-- The bytes of an escaped character: the first byte tells how many others follow it. -/
def escapedBytes? (t : Text) : Option (Bytes × Nat) := do
  let byte? (i : Nat) : Option Nat :=
    match t.drop (3 * i) with
    | '%' :: high :: low :: _ => do return (← hexDigit? high) * 16 + (← hexDigit? low)
    | _ => none
  let first ← byte? 0
  let width ← if first < 0x80 then some 1
    else if first / 0x20 = 0x6 then some 2
    else if first / 0x10 = 0xE then some 3
    else if first / 0x8 = 0x1E then some 4
    else none
  let others ← (List.range (width - 1)).mapM fun i =>
    (byte? (i + 1)).filter fun b => b / 0x40 = 0x2
  return ((first :: others).map UInt8.ofNat, 3 * width)

/-- Reads on in a tag; what has been read is given last first. Commas and square brackets belong to
it if it is `bracketed`. -/
def tagBytesFrom? (bracketed : Bool) : Nat → Bytes → Cursor → Option (Bytes × Cursor)
  | 0, read, c => some (read.reverse, c)
  | bound + 1, read, c =>
    match c.peek with
    | none => some (read.reverse, c)
    | some b =>
      if b = '%' then
        (escapedBytes? c.rest).bind fun (bytes, width) =>
          tagBytesFrom? bracketed bound (bytes.reverse ++ read) (c.skip width)
      else if isNameChar b || b ∈ tagSigns || (bracketed && b ∈ [',', '[', ']']) then
        tagBytesFrom? bracketed bound (UInt8.ofNat b.toNat :: read) (c.skip 1)
      else some (read.reverse, c)

/-- The bytes of a tag or a part of it, up to a zero. -/
def tagBytes? (bracketed : Bool) (c : Cursor) : Option (Bytes × Cursor) :=
  (tagBytesFrom? bracketed c.rest.length [] c).map fun (bytes, next) =>
    (bytes.takeWhile (· ≠ 0), next)

/-- A handle: a name between exclamation marks, the second of which may be missing. -/
def tagName? (c : Cursor) : Option (Text × Cursor) :=
  if c.peek = some '!' then
    let name := (c.skip 1).ahead isNameChar
    let next := c.skip (name.length + 1)
    if next.peek = some '!' then some ('!' :: (name ++ ['!']), next.skip 1)
    else some ('!' :: name, next)
  else none

/-- The handle and the suffix of a tag. -/
def tagParts? (c : Cursor) : Option (Text × Bytes × Cursor) := do
  if c.peekAt 1 = some '<' then
    let (suffix, next) ← tagBytes? true (c.skip 2)
    if suffix ≠ [] && next.peek = some '>' then some ([], suffix, next.skip 1) else none
  else
    let (handle, next) ← tagName? c
    if handle.length > 1 && handle.getLast? = some '!' then
      let (suffix, next) ← tagBytes? false next
      if suffix = [] then none else some (handle, suffix, next)
    else
      let (more, next) ← tagBytes? false next
      let suffix := Text.utf8 handle.tail ++ more
      if suffix = [] then some ([], [0x21], next) else some (['!'], suffix, next)

/-- A tag. -/
def tag? (inFlow : Bool) (c : Cursor) : Option (Token × Cursor) :=
  (tagParts? c).bind fun (handle, suffix, next) =>
    if endsWord next.peek || (inFlow && next.peek = some ',') then some (.tag handle suffix, next)
    else none

/-! ### Directives -/

/-- A number of at most nine digits. -/
def versionNumber? (c : Cursor) : Option (Nat × Cursor) :=
  let digits := c.ahead Char.isDigit
  if digits = [] || digits.length > 9 then none
  else some (digits.foldl (fun n d => n * 10 + (d.toNat - '0'.toNat)) 0, c.skip digits.length)

/-- The version after the name of its directive. -/
def version? (c : Cursor) : Option (Token × Cursor) := do
  let (major, c) ← versionNumber? (c.skipWhile isBlank)
  if c.peek ≠ some '.' then none
  let (minor, c) ← versionNumber? (c.skip 1)
  return (.version major minor, c)

/-- The handle after the name of its directive, and what it stands for. -/
def tagHandle? (c : Cursor) : Option (Token × Cursor) := do
  let (handle, c) ← tagName? (c.skipWhile isBlank)
  if handle.length > 1 && handle.getLast? ≠ some '!' then none
  if !c.peek.any isBlank then none
  let (lead, c) ← tagBytes? true (c.skipWhile isBlank)
  if lead = [] || !endsWord c.peek then none
  return (.tagHandle handle lead, c)

/-- A directive, with the rest of its line. -/
def directive? (c : Cursor) : Option (Token × Cursor) := do
  let name := (c.skip 1).ahead isNameChar
  let c := c.skip (name.length + 1)
  if !endsWord c.peek then none
  let (token, c) ←
    if name = "YAML".toList then version? c
    else if name = "TAG".toList then tagHandle? c
    else none
  return (token, ← c.endLine?)

end Token

end ActionBundles.Yaml
