import ActionBundles.Model.Item
import ActionBundles.Model.Line

/-!
# Reading a model

The lines of a model are gone through once. What a line does depends on its class and on the place
it stands in: after metadata, within the capability, or under a heading. A line that is irregular
ends strict reading; permissive reading makes of it what it can and goes on.
-/

namespace ActionBundles

/-- Where in a model a line stands. -/
inductive Place where
  /-- Before anything else, or after a stray line ended the capability. -/
  | start
  /-- After a metadata field. -/
  | metadata
  /-- Within the capability. -/
  | capability
  /-- Under the heading of a section. -/
  | under (s : Section)
  deriving DecidableEq

/-- What has been read so far. -/
structure Progress where
  /-- Where the next line stands. -/
  place : Place := .start
  /-- The interface key that takes the list items which follow. -/
  openKey : Option Text := none
  /-- The model so far. -/
  model : Model := {}
  deriving DecidableEq

/-- The value written after an interface key. Square brackets hold a list, whose items may stand
between quotes. -/
def InterfaceValue.read (value : Text) : InterfaceValue :=
  match (Text.stripStart? "[" value).bind (Text.stripEnd? ']') with
  | some inner =>
    .list (((inner.splitOn ',').map fun item =>
      Text.trimMatches (fun c => c = '"' || c = '\'') (Text.trim item)).filter (· ≠ []))
  | none => .text value

namespace Progress

/-- Adds a line to the capability, after a space unless it is the first text of it. -/
def continueCapability (p : Progress) (text : Text) : Progress :=
  let capability := p.model.capability
  let capability := if capability = [] then text else capability ++ ' ' :: text
  { p with model := { p.model with capability } }

/-- Gives an interface key its value. A key without a value starts a list and takes the items that
follow. -/
def setInterface (p : Progress) (key value : Text) : Progress :=
  if value = [] then
    { p with
      openKey := some key
      model := { p.model with interface := p.model.interface.insert key (.list []) } }
  else
    { p with
      openKey := none
      model := { p.model with interface := p.model.interface.insert key (.read value) } }

/-- Adds an item to the list of an interface key. -/
def pushInterfaceItem (p : Progress) (key text : Text) : Progress :=
  let push : InterfaceValue → InterfaceValue
    | .list items => .list (items ++ [text])
    | value => value
  { p with model := { p.model with interface := p.model.interface.modify key push } }

/-- Takes a list item under a heading. -/
def takeItem (mode : ParseMode) (p : Progress) (text : Text) :
    Section → Except Irregularity Progress
  | .parameters => do
    let item ← Parameter.read mode text
    return { p with model := { p.model with parameters := p.model.parameters ++ item.toList } }
  | .outputs => do
    let item ← Output.read mode text
    return { p with model := { p.model with outputs := p.model.outputs ++ item.toList } }
  | .dependencies =>
    .ok { p with model := { p.model with dependencies := p.model.dependencies ++ [text] } }
  | .patterns =>
    .ok { p with model := { p.model with patterns := p.model.patterns ++ [text] } }
  | .interface =>
    match p.openKey with
    | some key => .ok (p.pushInterfaceItem key text)
    | none => mode.meet (.itemWithoutKey text) p

/-- Takes the next line. Metadata, capability and headings are understood anywhere; the other
classes mean what their place makes of them. A stray line at the margin ends the capability. -/
def step (mode : ParseMode) (p : Progress) : Line → Except Irregularity Progress
  | .skip => .ok p
  | .metadata field value =>
    .ok
      { place := .metadata
        model := { p.model with metadata := p.model.metadata.set field value } }
  | .capability value =>
    .ok { place := .capability, model := { p.model with capability := value } }
  | .heading s => .ok { place := .under s, model := p.model }
  | .item text =>
    match p.place with
    | .under s => p.takeItem mode text s
    | _ => mode.meet (.itemOutsideList text) p
  | .entry key value text indented =>
    match p.place with
    | .capability =>
      if indented then .ok (p.continueCapability text)
      else mode.meet (.unknownKey key) { p with place := .start }
    | .under .interface => .ok (p.setInterface key value)
    | _ => mode.meet (.unknownKey key) p
  | .prose text indented =>
    match p.place with
    | .capability =>
      if indented then .ok (p.continueCapability text)
      else mode.meet (.unknownLine text) { p with place := .start }
    | _ => mode.meet (.unknownLine text) p

/-- Takes lines one after another, the first of which has the number `number`. -/
def run (mode : ParseMode) (p : Progress) (number : Nat) :
    List Line → Except ParseError Progress
  | [] => .ok p
  | line :: rest =>
    match p.step mode line with
    | .error cause => .error ⟨number, cause⟩
    | .ok p => p.run mode (number + 1) rest

/-! ### The key that takes items -/

/-- A key takes items in the section of the interface alone. So there is nothing to forget when a
line is skipped elsewhere. -/
def KeyInside (p : Progress) : Prop := p.place ≠ .under .interface → p.openKey = none

theorem keyInside_start : KeyInside {} := fun _ => rfl

variable {mode : ParseMode} {p q : Progress} {line : Line}

/-- An item leaves the place and the key that takes items as they are. -/
theorem place_openKey_takeItem {text : Text} {s : Section} (hq : p.takeItem mode text s = .ok q) :
    q.place = p.place ∧ q.openKey = p.openKey := by
  cases s with
  | parameters =>
    rw [takeItem] at hq
    cases hitem : Parameter.read mode text <;> rw [hitem] at hq <;> cases hq
    exact ⟨rfl, rfl⟩
  | outputs =>
    rw [takeItem] at hq
    cases hitem : Output.read mode text <;> rw [hitem] at hq <;> cases hq
    exact ⟨rfl, rfl⟩
  | dependencies | patterns =>
    cases hq
    exact ⟨rfl, rfl⟩
  | interface =>
    rw [takeItem] at hq
    split at hq
    · cases hq
      exact ⟨rfl, rfl⟩
    · cases ParseMode.meet_eq_ok hq
      exact ⟨rfl, rfl⟩

/-- One line keeps the key inside. -/
theorem KeyInside.step (h : p.KeyInside) (hq : p.step mode line = .ok q) : q.KeyInside := by
  have hcapability : p.place = .capability → p.openKey = none := fun hplace => h (by simp [hplace])
  cases line with
  | skip =>
    cases hq
    exact h
  | metadata | capability | heading =>
    cases hq
    exact fun _ => rfl
  | item text =>
    rw [Progress.step] at hq
    split at hq
    · obtain ⟨hplace, hkey⟩ := place_openKey_takeItem hq
      rwa [KeyInside, hplace, hkey]
    · cases ParseMode.meet_eq_ok hq
      exact h
  | entry key value text indented =>
    rw [Progress.step] at hq
    split at hq
    · next hplace =>
      split at hq
      · cases hq
        exact fun _ => hcapability hplace
      · cases ParseMode.meet_eq_ok hq
        exact fun _ => hcapability hplace
    · next hplace =>
      -- this is where a key may take items
      cases hq
      intro hother
      rw [setInterface] at hother
      split at hother <;> exact absurd hplace hother
    · cases ParseMode.meet_eq_ok hq
      exact h
  | prose text indented =>
    rw [Progress.step] at hq
    split at hq
    · next hplace =>
      split at hq
      · cases hq
        exact fun _ => hcapability hplace
      · cases ParseMode.meet_eq_ok hq
        exact fun _ => hcapability hplace
    · cases ParseMode.meet_eq_ok hq
      exact h

/-- All lines do. -/
theorem KeyInside.run {number : Nat} {rest : List Line} (h : p.KeyInside)
    (hq : p.run mode number rest = .ok q) : q.KeyInside := by
  induction rest generalizing p number with
  | nil =>
    cases hq
    exact h
  | cons line rest ih =>
    rw [Progress.run] at hq
    split at hq
    · cases hq
    · next hstep => exact ih (h.step hstep) hq

end Progress

namespace Model

/-- The classes of the lines of a text. -/
def linesOf (text : Text) : List Line := (Text.lines text).map Line.classify

/-- Reads a model. -/
def parse (mode : ParseMode) (text : Text) : Except ParseError Model :=
  (Progress.run mode {} 1 (linesOf text)).map (·.model)

end Model

end ActionBundles
