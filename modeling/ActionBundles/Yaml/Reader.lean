import ActionBundles.Yaml.Node
import ActionBundles.Yaml.Scalar

/-!
# Reading YAML

The value of a document. Aliases are replaced by what they stand for, plain scalars by what their
text stands for, and a key may come only once in a mapping.
-/

namespace ActionBundles

/-- A YAML value. -/
inductive Yaml where
  | scalar (value : Yaml.Scalar)
  | sequence (items : List Yaml)
  | mapping (entries : List (Yaml × Yaml))
  /-- A value with a tag of the document's own. -/
  | tagged (tag : Text) (value : Yaml)

namespace Yaml

/-! ### Equal values -/

mutual

/-- Whether two values are equal; the order of the entries of a mapping does not matter. -/
def same : Yaml → Yaml → Bool
  | .scalar a, .scalar b => a = b
  | .sequence as, .sequence bs => sameItems as bs
  | .mapping as, .mapping bs => as.length = bs.length && sameEntries as bs
  | .tagged s a, .tagged t b => s = t && same a b
  | _, _ => false

/-- Whether two sequences are equal. -/
def sameItems : List Yaml → List Yaml → Bool
  | [], [] => true
  | a :: as, b :: bs => same a b && sameItems as bs
  | _, _ => false

/-- Whether each of some entries has an equal one among others. -/
def sameEntries : List (Yaml × Yaml) → List (Yaml × Yaml) → Bool
  | [], _ => true
  | (key, value) :: rest, bs =>
    (bs.any fun b => same key b.1 && same value b.2) && sameEntries rest bs

end

/-- Whether no key comes twice. -/
def hasDistinctKeys : List (Yaml × Yaml) → Bool
  | [] => true
  | (key, _) :: rest => !(rest.any fun e => same key e.1) && hasDistinctKeys rest

/-! ### Scalars -/

/-- The tags that ask for one kind of scalar. -/
def kindTag (kind : String) : Bytes := Text.utf8 (("tag:yaml.org,2002:" ++ kind : String) : Text)

/-- A scalar that 64 bits hold if it is a whole number. -/
def short? : Scalar → Option Scalar
  | .int n => if Scalar.isShort n then some (.int n) else none
  | s => some s

/-- What a scalar stands for, given its tag and whether it is plain. -/
def scalarOf? (tag : Option Bytes) (text : Text) (plain : Bool) : Option Scalar :=
  match tag with
  | none => if plain then short? (.ofPlain text) else some (.string text)
  | some tag =>
    if tag = kindTag "bool" then (Scalar.boolWord? text).map .bool
    else if tag = kindTag "int" then (Scalar.int? text).bind fun n => short? (.int n)
    else if tag = kindTag "float" then (Scalar.fractional? text).map .fractional
    else if tag = kindTag "null" then if Scalar.isNullWord text then some .null else none
    else if tag.head? = some 0x21 && plain then short? (.ofPlain text)
    else some (.string text)

/-- The document's own tag in a tag: one that starts with an exclamation mark. -/
def ownTag? (tag : Option Bytes) : Option Text :=
  match tag.bind Text.ofUtf8? with
  | some ('!' :: name) => some (if name = [] then ['!'] else name)
  | _ => none

/-! ### Values of nodes -/

/-- The deepest that collections may be nested. -/
def maxDepth : Nat := 128

/-- How often aliases may be followed, for each part of a document. -/
def maxJumps : Nat := 100

/-- The node that an alias stands for, or the node itself. The state counts how many more aliases
may be followed. -/
def follow (anchored : List (Nat × Node)) : Node → StateT Nat Option Node
  | .alias anchor => do
    if (← get) = 0 then failure
    modify (· - 1)
    match anchored.lookup anchor with
    | none => failure
    | some (.alias _) => failure
    | some node => return node
  | node => return node

/-- The value with a tag, if it is the document's own. -/
def withTag (tag : Option Bytes) (value : Yaml) : Yaml :=
  match ownTag? tag with
  | none => value
  | some name => .tagged name value

/-- The value of a node in which collections are nested at most `depth` deep. -/
def ofNode (anchored : List (Nat × Node)) (depth : Nat) (node : Node) : StateT Nat Option Yaml := do
  match ← follow anchored node, depth with
  | .alias _, _ => failure
  | .scalar p text plain, _ =>
    match ownTag? p.tag with
    | none => return .scalar (← scalarOf? p.tag text plain)
    | some name => return .tagged name (.scalar (← scalarOf? none text plain))
  | .sequence p items, depth + 1 =>
    return withTag p.tag (.sequence (← items.mapM fun item => ofNode anchored depth item))
  | .mapping p entries, depth + 1 =>
    let entries ← entries.mapM fun e => do
      return (← ofNode anchored depth e.1, ← ofNode anchored depth e.2)
    if hasDistinctKeys entries then return withTag p.tag (.mapping entries) else failure
  | _, 0 => failure

/-- The value of a document. -/
def read? (t : Text) : Option Yaml := do
  let node ← Node.ofTokens? (← tokens? t)
  let value ← (ofNode node.anchored.reverse maxDepth node).run (maxJumps * node.size)
  return value.1

/-! ### Questions about a value -/

/-- The value without its tags. -/
def untagged : Yaml → Yaml
  | .tagged _ value => untagged value
  | value => value

/-- Whether there is no value. -/
def isNull (y : Yaml) : Bool :=
  match y.untagged with
  | .scalar .null => true
  | _ => false

/-- Whether the value is a mapping. -/
def isMapping (y : Yaml) : Bool :=
  match y.untagged with
  | .mapping _ => true
  | _ => false

/-- The value under a text in a mapping. -/
def get? (y : Yaml) (key : Text) : Option Yaml :=
  match y.untagged with
  | .mapping entries =>
    (entries.find? fun e => match e.1 with
      | .scalar s => s = .string key
      | _ => false).map (·.2)
  | _ => none

end Yaml

end ActionBundles
