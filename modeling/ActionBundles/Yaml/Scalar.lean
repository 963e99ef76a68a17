import ActionBundles.Binary64
import ActionBundles.Text.Basic

/-!
# What plain text stands for in YAML

A scalar without quotes and tag may stand for nothing, a truth value or a number; any other text
stands for itself. `Scalar.ofPlain` decides which. A printer asks it which texts need quotes, a
reader what a document says.
-/

namespace ActionBundles.Yaml

/-- A number with a fraction or an exponent, or one of the words for what is no finite number. -/
inductive Fractional where
  | finite (value : Binary64)
  | infinite (negative : Bool)
  /-- What is no number. -/
  | none
  deriving DecidableEq

/-- What a scalar stands for. -/
inductive Scalar where
  | null
  | bool (value : Bool)
  /-- A whole number. -/
  | int (value : Int)
  /-- Any other number. -/
  | fractional (value : Fractional)
  | string (text : Text)
  deriving DecidableEq

namespace Scalar

/-! ### Words -/

/-- Whether a text is a word for nothing. -/
def isNullWord (t : Text) : Bool :=
  t ∈ (["~", "null", "Null", "NULL"] : List String).map String.toList

/-- The truth value of a word. -/
def boolWord? (t : Text) : Option Bool :=
  if t ∈ (["true", "True", "TRUE"] : List String).map String.toList then some true
  else if t ∈ (["false", "False", "FALSE"] : List String).map String.toList then some false
  else none

/-! ### Whole numbers -/

/-- The value of a digit, in any case of its letter. -/
def digit? (c : Char) : Option Nat :=
  if c.isDigit then some (c.toNat - '0'.toNat)
  else if 'a' ≤ c && c ≤ 'z' then some (c.toNat - 'a'.toNat + 10)
  else if 'A' ≤ c && c ≤ 'Z' then some (c.toNat - 'A'.toNat + 10)
  else none

/-- The number of a text of digits in a base. -/
def natural? (base : Nat) (t : Text) : Option Nat :=
  if t = [] then none
  else t.foldlM (fun n c =>
    (digit? c).bind fun d => if d < base then some (n * base + d) else none) 0

/-- The starts of numbers in other bases than ten. -/
def bases : List (Text × Nat) := [("0x", 16), ("0o", 8), ("0b", 2)]

/-- The size of a number without sign; a zero may not stand before other decimal digits. -/
def unsigned? (t : Text) : Option Nat :=
  (bases.findSome? fun base => (Text.stripStart? base.1 t).bind (natural? base.2)).or
    (if t.length > 1 && t.head? = some '0' then none else natural? 10 t)

/-- Whether a number has at most so many bits. -/
def fits (bits n : Nat) : Bool := n.log2 < bits

/-- Whether so many bits hold a whole number, one of them for the sign if it is negative. -/
def holds (bits : Nat) : Int → Bool
  | .ofNat n => fits bits n
  | .negSucc n => fits (bits - 1) n

/-- The whole number that a text writes. -/
def whole? : Text → Option Int
  | '-' :: rest => (unsigned? rest).map fun n => -(n : Int)
  | '+' :: rest => (unsigned? rest).map Int.ofNat
  | rest => (unsigned? rest).map Int.ofNat

/-- The whole number that a text writes, as far as 128 bits hold it. -/
def int? (t : Text) : Option Int := (whole? t).filter (holds 128)

/-- Whether 64 bits hold a whole number. -/
def isShort (n : Int) : Bool := holds 64 n

/-! ### Numbers with a fraction -/

/-- Whether a text is decimal digits after a zero, with or without a sign. It is no number. -/
def isZeroPadded (t : Text) : Bool :=
  let digits := match t with
    | '-' :: rest => rest
    | '+' :: rest => rest
    | rest => rest
  digits.length > 1 && digits.head? = some '0' && digits.all Char.isDigit

/-- The decimal exponent after an `e`; zero if there is none. -/
def exponent? : Text → Option Int
  | [] => some 0
  | c :: rest =>
    if c = 'e' || c = 'E' then
      match rest with
      | '-' :: digits => (natural? 10 digits).map fun n => -(n : Int)
      | '+' :: digits => (natural? 10 digits).map Int.ofNat
      | digits => (natural? 10 digits).map Int.ofNat
    else none

/-- The digits of a number without sign, and the decimal exponent of the last of them. -/
def decimal? (t : Text) : Option (Text × Int) :=
  let whole := t.takeWhile Char.isDigit
  match t.dropWhile Char.isDigit with
  | '.' :: rest =>
    let fraction := rest.takeWhile Char.isDigit
    if whole = [] && fraction = [] then none
    else (exponent? (rest.dropWhile Char.isDigit)).map fun e =>
      (whole ++ fraction, e - fraction.length)
  | rest => if whole = [] then none else (exponent? rest).map fun e => (whole, e)

/-- The decimal number that a text writes, rounded, if it is in the bounds of binary numbers. -/
def finite? (t : Text) : Option Binary64 :=
  match t with
  | '-' :: rest => (unsignedFinite? rest).map Binary64.neg
  | rest => unsignedFinite? rest
where
  /-- The same of a text without a sign. -/
  unsignedFinite? (t : Text) : Option Binary64 :=
    (decimal? t).bind fun (digits, e) =>
      let digits := digits.dropWhile (· = '0')
      Binary64.nearest? ((natural? 10 digits).getD 0) digits.length e

/-- The words for the infinite, without a sign. -/
def infinityWords : List Text := [".inf", ".Inf", ".INF"]

/-- The words for what is no number. -/
def nanWords : List Text := [".nan", ".NaN", ".NAN"]

/-- The number that a text writes with a fraction, an exponent or a word. -/
def fractional? (t : Text) : Option Fractional :=
  match t with
  | '+' :: rest =>
    if rest.head? = some '+' || rest.head? = some '-' then none
    else if rest ∈ infinityWords then some (.infinite false)
    else (finite? rest).map .finite
  | '-' :: rest =>
    if rest ∈ infinityWords then some (.infinite true) else (finite? t).map .finite
  | _ =>
    if t ∈ infinityWords then some (.infinite false)
    else if t ∈ nanWords then some .none
    else (finite? t).map .finite

/-! ### Plain text -/

/-- What plain text stands for. -/
def ofPlain (t : Text) : Scalar :=
  if t = [] || isNullWord t then .null
  else
    match boolWord? t with
    | some value => .bool value
    | none =>
      match int? t with
      | some value => .int value
      | none =>
        match if isZeroPadded t then none else fractional? t with
        | some value => .fractional value
        | none => .string t

end Scalar

end ActionBundles.Yaml
