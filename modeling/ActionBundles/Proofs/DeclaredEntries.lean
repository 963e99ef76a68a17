import ActionBundles.Proofs.Descriptors
import ActionBundles.Proofs.Headings

/-!
# Declared inputs and outputs

Strict reading drops no item: a model has one parameter for each item under a heading of
parameters, and one output for each item under a heading of outputs, in the order of the lines. The
descriptor has an entry for each of them under its name.

But strict reading does not mind a name that is used twice, and a mapping has one entry under a
name. Then the last item of the name has its entry, in the place of the first, and the others have
none. `Tabulates` says this of a list of items and a mapping, and that the entries are those of the
items, one for one, exactly if the names of the items differ.
-/

namespace ActionBundles

/-! ### Items of a strict reader -/

theorem readName_strict_ne_none (name : Text) : readName .strict name ≠ .ok none := by
  rw [readName]
  split
  · simp [ParseMode.meet]
  · split <;> simp [ParseMode.meet]

theorem Parameter.read_strict_ne_none (text : Text) : read .strict text ≠ .ok none := by
  intro h
  rw [read] at h
  split at h
  · obtain ⟨name, hname, h⟩ := exists_of_bind_eq_ok h
    cases name with
    | none => exact readName_strict_ne_none _ hname
    | some => cases h
  · obtain ⟨name, hname, h⟩ := exists_of_bind_eq_ok h
    cases name with
    | none => exact readName_strict_ne_none _ hname
    | some =>
      obtain ⟨kind, -, h⟩ := exists_of_bind_eq_ok h
      cases h

theorem Output.read_strict_ne_none (text : Text) : read .strict text ≠ .ok none := by
  intro h
  rw [read] at h
  split at h
  all_goals
    obtain ⟨name, hname, h⟩ := exists_of_bind_eq_ok h
    cases name with
    | none => exact readName_strict_ne_none _ hname
    | some => cases h

/-- **Strict reading drops no parameter and no output.** -/
theorem Model.forall₂_items {text : Text} {m : Model} (h : parse .strict text = .ok m) :
    List.Forall₂ (fun t p => Parameter.read .strict t = .ok (some p))
        (itemsUnder .parameters (linesOf text)) m.parameters ∧
      List.Forall₂ (fun t o => Output.read .strict t = .ok (some o))
        (itemsUnder .outputs (linesOf text)) m.outputs := by
  obtain ⟨q, hq, rfl⟩ := exists_run_of_parse h
  have haccounts := (Progress.accounts_start .strict).run hq
  rw [List.nil_append] at haccounts
  obtain ⟨parameters, hparameters, hlist⟩ := haccounts.holds .parameters
  obtain ⟨outputs, houtputs, hlist'⟩ := haccounts.holds .outputs
  rw [hlist, hlist']
  exact ⟨forall₂_of_mapM Parameter.read_strict_ne_none hparameters,
    forall₂_of_mapM Output.read_strict_ne_none houtputs⟩

namespace Descriptor

open Yaml

/-! ### Entries -/

section Assign

variable {α β : Type} {entries items : List (Text × α)} {e : Text × α} {name : Text} {value : α}

theorem mem_assign_self (entries : List (Text × α)) (name : Text) (value : α) :
    (name, value) ∈ assign entries name value := by
  rw [assign]
  split
  · next h =>
    obtain ⟨e, he, hname⟩ := List.mem_map.1 (any_name_iff.1 h)
    exact List.mem_map.2 ⟨e, he, if_pos hname⟩
  · exact List.mem_append_right _ (List.mem_singleton_self _)

theorem mem_assign_of_ne (h : e ∈ entries) (hne : e.1 ≠ name) :
    e ∈ assign entries name value := by
  rw [assign]
  split
  · exact List.mem_map.2 ⟨e, h, if_neg hne⟩
  · exact List.mem_append_left _ h

/-- What is assigned to a name last stays. -/
theorem mem_assignAll_of_last {before after : List (Text × α)} (h : e.1 ∉ after.map Prod.fst) :
    e ∈ assignAll (before ++ e :: after) := by
  induction after using List.reverseRecOn with
  | nil =>
    rw [assignAll_concat]
    exact mem_assign_self ..
  | append_singleton after later ih =>
    rw [List.map_append, List.mem_append, List.map_singleton, List.mem_singleton, not_or] at h
    rw [← List.cons_append, ← List.append_assoc, assignAll_concat]
    exact mem_assign_of_ne (ih h.1) h.2

/-- The names are the different ones of the items, in the order in which they come first. -/
theorem map_fst_assignAll (items : List (Text × α)) :
    (assignAll items).map Prod.fst = (items.map Prod.fst).eraseDups := by
  induction items using List.reverseRecOn with
  | nil => rfl
  | append_singleton items item ih =>
    rw [assignAll_concat, map_fst_assign, ih, List.map_append, List.map_singleton,
      List.eraseDups_append, List.removeAll]
    by_cases h : item.1 ∈ items.map Prod.fst
    · simp [h]
    · simp [h, List.eraseDups_cons]

theorem assignAll_of_nodup (h : (items.map Prod.fst).Nodup) : assignAll items = items := by
  induction items using List.reverseRecOn with
  | nil => rfl
  | append_singleton items item ih =>
    rw [List.map_append, List.map_singleton, List.nodup_append_comm] at h
    obtain ⟨hnew, hitems⟩ := List.nodup_cons.1 h
    rw [assignAll_concat, ih hitems, assign, if_neg (mt any_name_iff.1 hnew)]

theorem map_assign (f : α → β) (entries : List (Text × α)) (name : Text) (value : α) :
    (assign entries name value).map (fun e => (e.1, f e.2)) =
      assign (entries.map fun e => (e.1, f e.2)) name (f value) := by
  have hany : (entries.map fun e => (e.1, f e.2)).any (·.1 = name) = entries.any (·.1 = name) :=
    List.any_map
  rw [assign, assign, hany]
  split
  · rw [List.map_map, List.map_map]
    refine List.map_congr_left fun e _ => ?_
    rw [Function.comp_apply, Function.comp_apply]
    split <;> rfl
  · rw [List.map_append, List.map_singleton]

/-- What is made of each value may be made before the values are assigned. -/
theorem map_assignAll (f : α → β) (items : List (Text × α)) :
    (assignAll items).map (fun e => (e.1, f e.2)) =
      assignAll (items.map fun e => (e.1, f e.2)) := by
  induction items using List.reverseRecOn with
  | nil => rfl
  | append_singleton items item ih =>
    rw [List.map_append, List.map_singleton, assignAll_concat, assignAll_concat, map_assign, ih]

end Assign

/-! ### Mappings of items -/

/-- The entry of a parameter: it is described, beginning with the words of its name and ending with
the values of a choice, it is required if the parameter is, and it is empty by default if it may be
missing. -/
def IsInputOf (p : Parameter) (e : Text × Outline) : Prop :=
  ∃ words, e = (p.name, .mapping (("description", .text words) :: ("required", .bool p.required) ::
      if p.required then [] else [("default", .text "")])) ∧
    humanize p.name <+: words ∧
    ∀ values, p.kind = .choice values →
      ("Allowed values: " : Text) ++ Text.join ", " values <:+ words

/-- The entry of an output: its own description, or else the words of its name. -/
def IsOutputOf (o : Output) (e : Text × Outline) : Prop :=
  e = (o.name, .mapping [("description", .text (o.description.getD (humanize o.name)))])

/-- The entries of a mapping are those of a list of items with names. -/
structure Tabulates {α : Type} (name : α → Text) (IsEntryOf : α → Text × Outline → Prop)
    (items : List α) (entries : List (Text × Outline)) : Prop where
  /-- There is one entry for each name, in the order in which the names come first. -/
  names : entries.map Prod.fst = (items.map name).eraseDups
  /-- The last item of a name has its entry. -/
  last : ∀ before item after, items = before ++ item :: after → name item ∉ after.map name →
    ∃ e ∈ entries, IsEntryOf item e
  /-- The entries are those of the items, one for one and in order, exactly if the names differ. -/
  oneEach : List.Forall₂ IsEntryOf items entries ↔ (items.map name).Nodup

variable {m : Model} {text : Text}

/-- Entries that are assigned one after another are those of their items. -/
theorem tabulates_assignAll {α : Type} {name : α → Text} {IsEntryOf : α → Text × Outline → Prop}
    {entry : α → Text × Outline} (hentry : ∀ item, IsEntryOf item (entry item))
    (hname : ∀ item e, IsEntryOf item e → e.1 = name item) (items : List α) :
    Tabulates name IsEntryOf items (assignAll (items.map entry)) := by
  have hnames (items : List α) : (items.map entry).map Prod.fst = items.map name := by
    rw [List.map_map]
    exact List.map_congr_left fun item _ => hname item _ (hentry item)
  refine ⟨?_, ?_, fun h => ?_, fun h => ?_⟩
  · rw [map_fst_assignAll, hnames]
  · rintro before item after rfl hlast
    refine ⟨entry item, ?_, hentry item⟩
    rw [List.map_append, List.map_cons]
    refine mem_assignAll_of_last ?_
    rwa [hnames, hname item _ (hentry item)]
  · have hsame : List.Forall₂ (· = ·) (items.map name)
        ((assignAll (items.map entry)).map Prod.fst) := by
      rw [List.forall₂_map_left_iff, List.forall₂_map_right_iff]
      exact h.imp fun item e he => (hname item e he).symm
    rw [List.forall₂_eq_eq_eq] at hsame
    rw [hsame]
    exact nodup_assignAll _
  · rw [assignAll_of_nodup (by rwa [hnames]), List.forall₂_map_right_iff]
    exact List.forall₂_same.2 fun item _ => hentry item

theorem isInputOf_inputOutline (p : Parameter) :
    IsInputOf p (p.name, inputOutline (inputOf p).2) := by
  refine ⟨describeInput p, rfl, ?_, fun values hvalues => ?_⟩
  · rw [describeInput]
    split
    · exact List.prefix_rfl
    · rw [List.append_assoc]
      exact List.prefix_append ..
    · exact List.prefix_append ..
    · exact List.prefix_append ..
  · refine ⟨humanize p.name ++ ". ", ?_⟩
    simp [describeInput, hvalues]

theorem isOutputOf_outputOutline (o : Output) :
    IsOutputOf o (o.name, outputOutline (outputOf o).2) := rfl

/-- **What a descriptor declares.** The items of parameters and of outputs in a text that strict
reading takes are the parameters and outputs of its model, one for one and in order. Of these the
descriptor has entries for inputs and for outputs: one for each name, with the last item of that
name, and hence one for each item exactly if the names differ. -/
theorem tabulates_outline (h : Model.parse .strict text = .ok m) (identity : Identity) :
    List.Forall₂ (fun t p => Parameter.read .strict t = .ok (some p))
        (itemsUnder .parameters (Model.linesOf text)) m.parameters ∧
      List.Forall₂ (fun t o => Output.read .strict t = .ok (some o))
        (itemsUnder .outputs (Model.linesOf text)) m.outputs ∧
      ∃ inputs outputs,
        (ofModel m identity).outline.lookup ("inputs" : Text) = some (.mapping inputs) ∧
        (ofModel m identity).outline.lookup ("outputs" : Text) = some (.mapping outputs) ∧
        Tabulates Parameter.name IsInputOf m.parameters inputs ∧
        Tabulates Output.name IsOutputOf m.outputs outputs := by
  obtain ⟨hparameters, houtputs⟩ := Model.forall₂_items h
  refine ⟨hparameters, houtputs, _, _, rfl, rfl, ?_, ?_⟩
  · rw [ofModel, map_assignAll, List.map_map]
    exact tabulates_assignAll isInputOf_inputOutline (by rintro p e ⟨words, rfl, -⟩; rfl) _
  · rw [ofModel, map_assignAll, List.map_map]
    exact tabulates_assignAll isOutputOf_outputOutline (by rintro o e rfl; rfl) _

/-- A text with parameters and outputs of different names. -/
def sampleDeclaring : Text :=
  Text.unlines ["Parameters:", "- mode: fast|slow", "- out_dir: string (optional)", "Outputs:",
    "- log_file", "- code: the exit code"]

/-- The model in that text. -/
def declaring : Model where
  parameters := [⟨"mode", .choice ["fast", "slow"], true⟩, ⟨"out_dir", .string, false⟩]
  outputs := [⟨"log_file", none⟩, ⟨"code", some "the exit code"⟩]

/-- An identity that a model may have. -/
def sampleIdentity : Identity := ⟨"run", "Run", "core"⟩

theorem tabulates_outline_declaring :
    Model.parse .strict sampleDeclaring = .ok declaring ∧
      ∃ inputs outputs,
        (ofModel declaring sampleIdentity).outline.lookup ("inputs" : Text) =
          some (.mapping inputs) ∧
        (ofModel declaring sampleIdentity).outline.lookup ("outputs" : Text) =
          some (.mapping outputs) ∧
        List.Forall₂ IsInputOf declaring.parameters inputs ∧
        List.Forall₂ IsOutputOf declaring.outputs outputs := by
  have h : Model.parse .strict sampleDeclaring = .ok declaring := by decide +kernel
  obtain ⟨-, -, inputs, outputs, hinputs, houtputs, hparameters, hrest⟩ :=
    tabulates_outline h sampleIdentity
  exact ⟨h, inputs, outputs, hinputs, houtputs, hparameters.oneEach.2 (by decide),
    hrest.oneEach.2 (by decide)⟩

/-- A text with two parameters of one name. -/
def sampleNamesakes : Text :=
  Text.unlines ["Parameters:", "- a: string", "- a: number (optional)"]

/-- The model in that text. -/
def namesakes : Model where
  parameters := [⟨"a", .string, true⟩, ⟨"a", .number, false⟩]

/-- Only the second of two parameters with one name is declared. -/
theorem outline_namesakes :
    Model.parse .strict sampleNamesakes = .ok namesakes ∧
      (ofModel namesakes sampleIdentity).outline.lookup ("inputs" : Text) =
        some (.mapping [("a", inputOutline ⟨"A (number)", false⟩)]) ∧
      ¬ ∃ inputs, (ofModel namesakes sampleIdentity).outline.lookup ("inputs" : Text) =
        some (.mapping inputs) ∧ List.Forall₂ IsInputOf namesakes.parameters inputs := by
  have hinputs : (ofModel namesakes sampleIdentity).outline.lookup ("inputs" : Text) =
      some (.mapping [("a", inputOutline ⟨"A (number)", false⟩)]) := by rfl
  refine ⟨by decide +kernel, hinputs, ?_⟩
  rintro ⟨inputs, hlookup, hall⟩
  obtain rfl := Outline.mapping.inj (Option.some.inj (hinputs.symm.trans hlookup))
  cases hall.length_eq

end Descriptor

end ActionBundles
