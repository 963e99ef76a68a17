import ActionBundles.Text.Quoted

/-!
# Irregularities of model text

A model is text that people write, so reading one never has to fail: what cannot be understood is
passed over or read as the simplest thing it could be. Each such spot is an `Irregularity`. Strict
reading takes the first one as an error.
-/

namespace ActionBundles

/-- How unforgiving the reading of a model is. -/
inductive ParseMode where
  /-- Irregularities are passed over. -/
  | permissive
  /-- The first irregularity is an error. -/
  | strict
  deriving DecidableEq

/-- A spot of model text that is not as it should be. -/
inductive Irregularity where
  /-- An item without a name; it is dropped. -/
  | emptyName
  /-- A name with a blank in it; it is kept. -/
  | blankInName (name : Text)
  /-- A choice that offers nothing; it is read as a string. -/
  | emptyChoice (type : Text)
  /-- A parameter with a colon but no type; it is read as a string. -/
  | missingType
  /-- A type that is not known; it is read as a string. -/
  | unknownType (word : Text)
  /-- A list item where no list is; it is dropped. -/
  | itemOutsideList (text : Text)
  /-- A list item in the interface before any key takes items; it is dropped. -/
  | itemWithoutKey (text : Text)
  /-- A key that means nothing here; its line is dropped. -/
  | unknownKey (key : Text)
  /-- A line that means nothing here; it is dropped. -/
  | unknownLine (text : Text)
  deriving DecidableEq

/-- What comes of an irregularity: strict reading stops at it, permissive reading goes on with `a`. -/
def ParseMode.meet {α : Type} (mode : ParseMode) (cause : Irregularity) (a : α) :
    Except Irregularity α :=
  match mode with
  | .permissive => .ok a
  | .strict => .error cause

/-- Reading that goes on after an irregularity goes on with `a`. -/
theorem ParseMode.meet_eq_ok {α : Type} {mode : ParseMode} {cause : Irregularity} {a b : α}
    (h : mode.meet cause a = .ok b) : b = a := by
  cases mode with
  | permissive =>
    cases h
    rfl
  | strict => cases h

/-- What is said about an irregularity. -/
def Irregularity.message : Irregularity → Text
  | .emptyName => "empty name: \"\""
  | .blankInName name => "name contains whitespace: " ++ name.quoted
  | .emptyChoice type => "choice " ++ type.quoted ++ " has no values"
  | .missingType => "missing parameter type"
  | .unknownType word => "unknown parameter type " ++ word.quoted
  | .itemOutsideList text => "list item " ++ text.quoted ++ " outside a list section"
  | .itemWithoutKey text => "list item " ++ text.quoted ++ " has no interface key"
  | .unknownKey key => "unrecognized key " ++ key.quoted
  | .unknownLine text => "unrecognized line " ++ text.quoted

/-- An irregularity that strict reading stopped at, with the number of its line, from one. -/
structure ParseError where
  line : Nat
  cause : Irregularity
  deriving DecidableEq

/-- What is said about a model that could not be read. -/
def ParseError.message (e : ParseError) : Text :=
  "line " ++ Text.ofNat e.line ++ ": " ++ e.cause.message

end ActionBundles
