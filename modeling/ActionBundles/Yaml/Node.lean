import ActionBundles.Yaml.Lexer

/-!
# Nodes of a document

The tokens of a document make up a tree of nodes: scalars, sequences, mappings and aliases. An
anchor gives a node a number, and an alias has the number of the node that it stands for. Of nodes
with the same number the last one counts.
-/

namespace ActionBundles.Yaml

/-- What is written before a node. -/
structure Properties where
  /-- The number of its anchor. -/
  anchor : Option Nat := none
  tag : Option Bytes := none
  deriving DecidableEq

/-- A part of a document. -/
inductive Node where
  /-- The node with an anchor. -/
  | alias (anchor : Nat)
  /-- A scalar, which may be plain. -/
  | scalar (p : Properties) (text : Text) (plain : Bool)
  | sequence (p : Properties) (items : List Node)
  | mapping (p : Properties) (entries : List (Node × Node))

namespace Node

/-- The node where nothing is written. -/
def missing : Node := .scalar {} [] true

/-! ### Reading tokens -/

/-- Tokens that are being read, and the anchors met so far. -/
structure Reading where
  tokens : List Token
  /-- The names of anchors with their numbers. -/
  anchors : List (Text × Nat) := []

/-- A part of a document is read, or there is no such part. -/
abbrev Reader := StateT Reading Option

/-- The next token. -/
def peek : Reader (Option Token) := return (← get).tokens.head?

/-- Passes over a token. -/
def skip : Reader Unit := modify fun r => { r with tokens := r.tokens.tail }

/-- Passes over a token that has to be there. -/
def expect (t : Token) : Reader Unit := do
  if (← peek) = some t then skip else failure

/-- Gives an anchor its number, which is the number of names met before it. -/
def declare (name : Text) : Reader Nat := do
  let anchors := (← get).anchors
  modify fun r => { r with anchors := (name, anchors.length) :: anchors.filter (·.1 ≠ name) }
  return anchors.length

/-- What the handles of tags stand for. -/
abbrev Handles := List (Text × Bytes)

/-- The handles that need no directive. -/
def defaultHandles : Handles :=
  [("!", Text.utf8 "!"), ("!!", Text.utf8 "tag:yaml.org,2002:")]

/-- The tag with a handle and a suffix. -/
def tagOf? (handles : Handles) (handle : Text) (suffix : Bytes) : Option Bytes :=
  if handle = [] then some suffix else (handles.lookup handle).map (· ++ suffix)

/-- The tag and the anchor before a node, in either order. -/
def properties (handles : Handles) : Reader Properties := do
  let anchor? : Reader (Option Text) := do
    match ← peek with
    | some (.anchor name) =>
      skip
      return some name
    | _ => return none
  let tag? : Reader (Option Bytes) := do
    match ← peek with
    | some (.tag handle suffix) =>
      skip
      return some (← tagOf? handles handle suffix)
    | _ => return none
  let first ← anchor?
  let tag ← tag?
  let name := first.or (← if first.isNone && tag.isSome then anchor? else pure none)
  return { anchor := ← name.mapM declare, tag }

/-- The tag that says no more than that there is one. -/
def emptyTag : Bytes := Text.utf8 "!"

/-- The tokens at which an item or a value is missing. -/
def ends (ts : List Token) : Reader Bool := return (← peek).any (· ∈ ts)

/-- A node of which only a tag or an anchor is written. -/
def readNothing (p : Properties) : Reader Node :=
  if p.anchor.isSome || p.tag.isSome then return .scalar p [] true else failure

mutual

/-- A node. Blocks of lines may start here if `block` is set, and a sequence whose dashes are not
indented if `loose` is. The number bounds how deep and how far the reading goes. -/
def read (handles : Handles) (block loose : Bool) : Nat → Reader Node
  | 0 => failure
  | bound + 1 => do
    if let some (.alias name) ← peek then
      skip
      return .alias (← (← get).anchors.lookup name)
    let p ← properties handles
    match ← peek with
    | some (.scalar text plain) =>
      skip
      let tag := p.tag.filter (· ≠ emptyTag)
      return .scalar { p with tag } text plain
    | some .openFlowSequence =>
      skip
      return .sequence p (← readItems handles true bound)
    | some .openFlowMapping =>
      skip
      return .mapping p (← readPairs handles true bound)
    | some .openBlockSequence =>
      if !block then return ← readNothing p
      skip
      return .sequence p (← readEntries handles bound)
    | some .openBlockMapping =>
      if !block then return ← readNothing p
      skip
      return .mapping p (← readKeys handles bound)
    | some .entry =>
      if !loose then return ← readNothing p
      return .sequence p (← readLooseEntries handles bound)
    | _ => readNothing p

/-- A node, or nothing where one of some tokens follows. -/
def readUnless (handles : Handles) (block loose : Bool) (ts : List Token) : Nat → Reader Node
  | 0 => failure
  | bound + 1 => do
    if ← ends ts then return missing else read handles block loose bound

/-- The entries of a sequence in a block. -/
def readEntries (handles : Handles) : Nat → Reader (List Node)
  | 0 => failure
  | bound + 1 => do
    if (← peek) = some .entry then
      skip
      let item ← readUnless handles true false [.entry, .closeBlock] bound
      return item :: (← readEntries handles bound)
    else
      expect .closeBlock
      return []

/-- The entries of a sequence whose dashes are not indented. -/
def readLooseEntries (handles : Handles) : Nat → Reader (List Node)
  | 0 => failure
  | bound + 1 => do
    if (← peek) = some .entry then
      skip
      let item ← readUnless handles true false [.entry, .key, .value, .closeBlock] bound
      return item :: (← readLooseEntries handles bound)
    else return []

/-- The keys of a mapping in a block, with their values. -/
def readKeys (handles : Handles) : Nat → Reader (List (Node × Node))
  | 0 => failure
  | bound + 1 => do
    if (← peek) = some .key then
      skip
      let stops : List Token := [.key, .value, .closeBlock]
      let key ← readUnless handles true true stops bound
      let value ←
        if (← peek) = some .value then
          skip
          readUnless handles true true stops bound
        else pure missing
      return (key, value) :: (← readKeys handles bound)
    else
      expect .closeBlock
      return []

/-- The items of a sequence in brackets. An item with the mark of a key is a mapping with a single
entry. -/
def readItems (handles : Handles) (first : Bool) : Nat → Reader (List Node)
  | 0 => failure
  | bound + 1 => do
    if (← peek) = some .closeFlowSequence then
      skip
      return []
    unless first do expect .separator
    match ← peek with
    | some .closeFlowSequence =>
      skip
      return []
    | some .key =>
      skip
      let key ←
        if ← ends [.value, .separator, .closeFlowSequence] then
          skip
          pure missing
        else read handles false false bound
      let value ←
        if (← peek) = some .value then
          skip
          readUnless handles false false [.separator, .closeFlowSequence] bound
        else pure missing
      return .mapping {} [(key, value)] :: (← readItems handles false bound)
    | _ =>
      let item ← read handles false false bound
      return item :: (← readItems handles false bound)

/-- The entries of a mapping in braces. -/
def readPairs (handles : Handles) (first : Bool) : Nat → Reader (List (Node × Node))
  | 0 => failure
  | bound + 1 => do
    if (← peek) = some .closeFlowMapping then
      skip
      return []
    unless first do expect .separator
    match ← peek with
    | some .closeFlowMapping =>
      skip
      return []
    | some .key =>
      skip
      let key ← readUnless handles false false [.value, .separator, .closeFlowMapping] bound
      let value ←
        if (← peek) = some .value then
          skip
          readUnless handles false false [.separator, .closeFlowMapping] bound
        else pure missing
      return (key, value) :: (← readPairs handles false bound)
    | _ =>
      let key ← read handles false false bound
      return (key, missing) :: (← readPairs handles false bound)

end

/-! ### Documents -/

/-- The directives of a document: at most one version, and no handle twice. -/
def readDirectives (hasVersion : Bool) (handles : Handles) : Nat → Reader Handles
  | 0 => failure
  | bound + 1 => do
    match ← peek with
    | some (.version major minor) =>
      if hasVersion || major ≠ 1 || (minor ≠ 1 && minor ≠ 2) then failure
      skip
      readDirectives true handles bound
    | some (.tagHandle handle lead) =>
      if (handles.lookup handle).isSome then failure
      skip
      readDirectives hasVersion ((handle, lead) :: handles) bound
    | _ => return handles

/-- Whether directives or the mark of a start come before the document. -/
def isOpening : Token → Bool
  | .version _ _ => true
  | .tagHandle _ _ => true
  | .documentStart => true
  | _ => false

/-- A document and the marks of its end. Nothing may follow it. -/
def readDocument (bound : Nat) : Reader Node := do
  let node ←
    match ← peek with
    | none => pure missing
    | some t =>
      if isOpening t then
        let handles ← readDirectives false [] bound
        expect .documentStart
        match ← peek with
        | none => pure missing
        | some t =>
          if isOpening t || t = .documentEnd then pure missing
          else read (handles ++ defaultHandles) true false bound
      else read defaultHandles true false bound
  modify fun r => { r with tokens := r.tokens.dropWhile (· = .documentEnd) }
  if (← get).tokens = [] then return node else failure

/-- The node that the tokens of a document make up. -/
def ofTokens? (tokens : List Token) : Option Node :=
  ((readDocument (3 * (tokens.length + 2))).run { tokens }).map (·.1)

/-! ### Anchors -/

mutual

/-- The nodes with anchors in a node, in the order in which they start. -/
def anchored : Node → List (Nat × Node)
  | .alias _ => []
  | .scalar p text plain => p.anchor.toList.map (·, .scalar p text plain)
  | .sequence p items => p.anchor.toList.map (·, .sequence p items) ++ anchoredItems items
  | .mapping p entries => p.anchor.toList.map (·, .mapping p entries) ++ anchoredEntries entries

/-- The nodes with anchors in a list of nodes. -/
def anchoredItems : List Node → List (Nat × Node)
  | [] => []
  | item :: rest => anchored item ++ anchoredItems rest

/-- The nodes with anchors in a list of entries. -/
def anchoredEntries : List (Node × Node) → List (Nat × Node)
  | [] => []
  | (key, value) :: rest => anchored key ++ anchored value ++ anchoredEntries rest

end

mutual

/-- The number of parts of a node, where a collection has two for its start and its end. -/
def size : Node → Nat
  | .alias _ => 1
  | .scalar _ _ _ => 1
  | .sequence _ items => 2 + sizeItems items
  | .mapping _ entries => 2 + sizeEntries entries

/-- The number of parts of a list of nodes. -/
def sizeItems : List Node → Nat
  | [] => 0
  | item :: rest => size item + sizeItems rest

/-- The number of parts of a list of entries. -/
def sizeEntries : List (Node × Node) → Nat
  | [] => 0
  | (key, value) :: rest => size key + size value + sizeEntries rest

end

end Node

end ActionBundles.Yaml
