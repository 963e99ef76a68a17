import ActionBundles.Proofs.BundlePlaces
import ActionBundles.Proofs.ParsedModels
import ActionBundles.Proofs.WrittenModels
import Mathlib.Data.List.ReduceOption

/-!
# Items under their headings

The reader of models is a machine that goes from place to place. Which items it takes for which list
has a meaning that speaks of the lines alone: the line that governs an item is the nearest line
before it that is metadata, the capability or a heading, and an item belongs to the list of a
section if the section's heading governs it. Comments, stray lines, keys and the lines of the
capability have no part in this.

`Progress.Accounts` says that the model so far holds exactly the items of the lines so far. One line
preserves it (`Accounts.step`), so the whole text does (`Accounts.run`).
-/

namespace ActionBundles

/-! ### Governed lines -/

namespace Line

/-- Whether a line says where the lines after it stand: metadata, the capability and headings do. -/
def governs : Line → Bool
  | metadata _ _ | capability _ | heading _ => true
  | _ => false

/-- The text of an item. -/
def itemText? : Line → Option Text
  | item text => some text
  | _ => none

variable {raw text : Text}

/-- Items are the lines with a dash and a space before the text; the text may be missing, and then
so may the space. -/
theorem classify_eq_item_iff : classify raw = .item text ↔
    (Text.trim raw = ['-'] ∧ text = []) ∨
      ∃ rest, Text.trim raw = '-' :: ' ' :: rest ∧ text = Text.trim rest := by
  have hdash (t rest : Text) :
      Text.stripStart? "- " t = some rest ↔ t = '-' :: ' ' :: rest := by
    rw [Text.stripStart?, dashLead, List.isPrefixOf?_eq_some_iff_append_eq]
    exact eq_comm
  have hkeyed (key value t : Text) (indented : Bool) :
      ofKeyValue key value t indented ≠ .item text := by
    rw [ofKeyValue]
    split
    · simp
    · split
      · simp
      · split
        · simp
        · split <;> simp
  rw [classify]
  split
  · next hnil => simp [hnil]
  · next hcomment => simp [hcomment]
  · rw [ofContent]
    split
    · next hone => simp [hone, eq_comm]
    · next hone =>
      split
      · next rest hrest =>
        rw [hdash] at hrest
        simp [hrest, eq_comm]
      · next hrest =>
        have hno : ∀ rest, Text.trim raw ≠ '-' :: ' ' :: rest := fun rest h => by
          rw [(hdash _ _).2 h] at hrest
          cases hrest
        have hright : ¬ ((Text.trim raw = ['-'] ∧ text = []) ∨
            ∃ rest, Text.trim raw = '-' :: ' ' :: rest ∧ text = Text.trim rest) := by
          rintro (⟨h, -⟩ | ⟨rest, h, -⟩)
          · exact hone h
          · exact hno rest h
        refine iff_of_false ?_ hright
        split
        · exact hkeyed _ _ _ _
        · simp

end Line

/-- The nearest of the lines `before` that governs what comes after them. -/
def governor? (before : List Line) : Option Line := (before.filter Line.governs).getLast?

theorem governor?_concat (before : List Line) (line : Line) :
    governor? (before ++ [line]) = if line.governs then some line else governor? before := by
  rw [governor?, List.filter_append, List.filter_singleton]
  cases line.governs with
  | false => exact congrArg List.getLast? (List.append_nil _)
  | true => exact List.getLast?_concat

/-- The texts of the items in `ls` that are governed by a heading of the section `s`, in order. -/
def itemsUnder (s : Section) (ls : List Line) : List Text :=
  (List.range ls.length).filterMap fun i =>
    if governor? (ls.take i) = some (.heading s) then ls[i]?.bind Line.itemText? else none

theorem itemsUnder_concat (s : Section) (ls : List Line) (line : Line) :
    itemsUnder s (ls ++ [line]) =
      itemsUnder s ls ++ if governor? ls = some (.heading s) then line.itemText?.toList else [] := by
  rw [itemsUnder, List.length_append, List.length_singleton, List.range_succ, List.filterMap_append]
  congr 1
  · refine List.filterMap_congr fun i hi => ?_
    have hlt : i < ls.length := List.mem_range.1 hi
    rw [List.take_append_of_le_length hlt.le, List.getElem?_append_left hlt]
  · rw [List.filterMap_cons, List.filterMap_nil, List.take_left, List.getElem?_concat_length,
      Option.bind_some]
    by_cases hs : governor? ls = some (.heading s)
    · rw [if_pos hs, if_pos hs]
      cases line.itemText? <;> rfl
    · rw [if_neg hs, if_neg hs]

/-! ### The lists of a model -/

/-- The list of the section `s` in the model holds what the items with these texts give, in order.
Parameters and outputs are read from the texts, and an item without a name gives none. -/
def Model.Holds (mode : ParseMode) (m : Model) (texts : List Text) : Section → Prop
  | .parameters => ∃ found, texts.mapM (Parameter.read mode) = .ok found ∧
      m.parameters = found.reduceOption
  | .outputs => ∃ found, texts.mapM (Output.read mode) = .ok found ∧ m.outputs = found.reduceOption
  | .dependencies => m.dependencies = texts
  | .patterns => m.patterns = texts
  | .interface => True

namespace Progress

variable {mode : ParseMode} {p q : Progress} {before : List Line} {line : Line}

theorem place_of_takesItem {text : Text} {s : Section} (hq : p.TakesItem mode text s q) :
    q.place = p.place := by
  cases hq <;> rfl

/-- Only lines that govern change which section the lines after them stand under. -/
theorem place_of_step (hq : p.step mode line = .ok q) (s : Section) :
    q.place = .under s ↔ if line.governs then line = .heading s else p.place = .under s := by
  cases takes_of_step hq with
  | skip | strayItem | strayEntry | strayProse | entryOn | proseOn => rfl
  | metadata | capability | heading => simp [Line.governs]
  | item _ hq =>
    rw [place_of_takesItem hq]
    rfl
  | setting =>
    rw [setInterface]
    split <;> rfl
  | entryEnd hplace | proseEnd hplace => simp [Line.governs, hplace]

theorem mapM_concat {α : Type} {read : Text → Except Irregularity (Option α)} {texts : List Text}
    {text : Text} {found : List (Option α)} {item : Option α} (h : texts.mapM read = .ok found)
    (hitem : read text = .ok item) : (texts ++ [text]).mapM read = .ok (found ++ [item]) := by
  rw [List.mapM_append, h, List.mapM_cons, hitem]
  rfl

/-- An item goes to the list of the section it stands under. -/
theorem holds_takesItem {text : Text} {s : Section} {texts : List Text}
    (h : p.model.Holds mode texts s) (hq : p.TakesItem mode text s q) :
    q.model.Holds mode (texts ++ [text]) s := by
  cases hq with
  | @parameter item hitem | @output item hitem =>
    obtain ⟨found, hfound, hlist⟩ := h
    refine ⟨found ++ [item], mapM_concat hfound hitem, ?_⟩
    rw [List.reduceOption_append, List.reduceOption_singleton, ← hlist]
  | dependency | pattern => exact congrArg (· ++ [text]) h
  | keyed | keyless => trivial

/-- An item goes to no other list. -/
theorem holds_takesItem_of_ne {text : Text} {s s' : Section} {texts : List Text} (hne : s' ≠ s)
    (h : p.model.Holds mode texts s) (hq : p.TakesItem mode text s' q) :
    q.model.Holds mode texts s := by
  cases hq with
  | keyless => exact h
  | _ => cases s <;> first | exact absurd rfl hne | exact h

/-- A line that is no item leaves the lists as they are. -/
theorem holds_of_no_item {s : Section} {texts : List Text} (hline : line.itemText? = none)
    (h : p.model.Holds mode texts s) (hq : p.step mode line = .ok q) :
    q.model.Holds mode texts s := by
  cases takes_of_step hq with
  | item | strayItem => cases hline
  | setting =>
    rw [setInterface]
    split <;> cases s <;> exact h
  | _ => cases s <;> exact h

/-- A line adds to the list of a section if it is an item and stands under the section. -/
theorem holds_step {s : Section} {texts : List Text} (h : p.model.Holds mode texts s)
    (hq : p.step mode line = .ok q) :
    q.model.Holds mode
      (texts ++ if p.place = .under s then line.itemText?.toList else []) s := by
  cases hline : line.itemText? with
  | none =>
    rw [Option.toList_none, ite_self, List.append_nil]
    exact holds_of_no_item hline h hq
  | some text =>
    cases takes_of_step hq with
    | @item text' s' _ hplace hq =>
      cases hline
      rw [hplace]
      by_cases hs : s' = s
      · subst hs
        rw [if_pos rfl]
        exact holds_takesItem h hq
      · rw [if_neg fun heq => hs (Place.under.inj heq), List.append_nil]
        exact holds_takesItem_of_ne hs h hq
    | strayItem hplace => rwa [if_neg (hplace s), List.append_nil]
    | _ => cases hline

/-- The run stands where the lines so far say, and its model holds their items. -/
structure Accounts (mode : ParseMode) (before : List Line) (p : Progress) : Prop where
  place : ∀ s, p.place = .under s ↔ governor? before = some (.heading s)
  holds : ∀ s, p.model.Holds mode (itemsUnder s before) s

theorem accounts_start (mode : ParseMode) : Accounts mode [] {} where
  place s := by simp [governor?]
  holds
    | .parameters | .outputs => ⟨[], rfl, rfl⟩
    | .dependencies | .patterns => rfl
    | .interface => trivial

theorem Accounts.step (h : p.Accounts mode before) (hq : p.step mode line = .ok q) :
    q.Accounts mode (before ++ [line]) where
  place s := by
    rw [place_of_step hq, governor?_concat]
    split
    · rw [Option.some.injEq]
    · exact h.place s
  holds s := by
    have hheld := holds_step (h.holds s) hq
    rwa [itemsUnder_concat, ← if_congr (h.place s) rfl rfl]

theorem Accounts.run {number : Nat} {ls : List Line} (h : p.Accounts mode before)
    (hq : p.run mode number ls = .ok q) : q.Accounts mode (before ++ ls) := by
  induction ls generalizing p before number with
  | nil =>
    cases hq
    rwa [List.append_nil]
  | cons line rest ih =>
    obtain ⟨p', hstep, hq⟩ := exists_of_run_cons hq
    have hrest := ih (h.step hstep) hq
    rwa [List.append_assoc, List.singleton_append] at hrest

end Progress

/-! ### Whole models -/

/-- **No item is lost, doubled, moved or put out of order.** A list of a model that was read holds
what the items under the headings of its section give, in the order of the lines, and nothing else:
dependencies and patterns are the texts themselves, and parameters and outputs are what each text
is read as, without those that have no name. -/
theorem Model.lists_parse {mode : ParseMode} {text : Text} {m : Model}
    (h : parse mode text = .ok m) :
    m.dependencies = itemsUnder .dependencies (linesOf text) ∧
    m.patterns = itemsUnder .patterns (linesOf text) ∧
    (∃ found, (itemsUnder .parameters (linesOf text)).mapM (Parameter.read mode) = .ok found ∧
      m.parameters = found.reduceOption) ∧
    ∃ found, (itemsUnder .outputs (linesOf text)).mapM (Output.read mode) = .ok found ∧
      m.outputs = found.reduceOption := by
  obtain ⟨q, hq, rfl⟩ := exists_run_of_parse h
  have haccounts := (Progress.accounts_start mode).run hq
  rw [List.nil_append] at haccounts
  exact ⟨haccounts.holds .dependencies, haccounts.holds .patterns, haccounts.holds .parameters,
    haccounts.holds .outputs⟩

/-- A text that comes back to a section after another one, with comments, stray lines, a key and an
item without a name in between. -/
def Model.sampleScattered : Text :=
  Text.unlines ["Dependencies:", "- a", "# Patterns:", "stray", "  key: value", "- b",
    "  Outputs:", "- : nameless", "- c: d", "Capability: e", "- f", "Dependencies:", "-   g  ", "-"]

/-- The model in that text. -/
def Model.scattered : Model where
  capability := "e"
  outputs := [⟨"c", some "d"⟩]
  dependencies := ["a", "b", "g", ""]

theorem Model.lists_parse_sampleScattered :
    parse .permissive sampleScattered = .ok scattered ∧
      scattered.dependencies = itemsUnder .dependencies (linesOf sampleScattered) ∧
      itemsUnder .outputs (linesOf sampleScattered) = [": nameless", "c: d"] :=
  have h : parse .permissive sampleScattered = .ok scattered := by decide
  ⟨h, (lists_parse h).1, by decide⟩

end ActionBundles
