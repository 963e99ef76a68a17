import ActionBundles.Model.Item
import ActionBundles.Proofs.Texts
import Mathlib.Data.List.Basic

/-!
# Items that are read back

How the parameters and outputs of a model are written, and that what was written is read back, in
either mode. A parameter is written `name: type`, with ` (optional)` after it unless it is
required; a choice is written with its values between bars in parentheses. An output is written
`name: description`, or as its name alone.

Not every item can be written so. `IsName`, `Kind.IsWritable`, `Parameter.IsWritable` and
`Output.IsWritable` say which can: a name must not reach beyond its colon, a value of a choice not
beyond its bar.
-/

namespace ActionBundles

/-- A text that can stand at the end of a line: it has no line end in it and no blanks around it. -/
structure Text.IsInline (t : Text) : Prop where
  noLineEnd : '\n' ∉ t
  trimmed : Text.trim t = t

instance (t : Text) : Decidable (Text.IsInline t) :=
  decidable_of_iff ('\n' ∉ t ∧ Text.trim t = t) ⟨fun h => ⟨h.1, h.2⟩, fun h => ⟨h.1, h.2⟩⟩

/-- The name of an item. -/
structure IsName (name : Text) : Prop where
  nonempty : name ≠ []
  noBlank : ∀ c ∈ name, Text.isBlank c = false
  noColon : ':' ∉ name

instance (name : Text) : Decidable (IsName name) :=
  decidable_of_iff (name ≠ [] ∧ name.any Text.isBlank = false ∧ ':' ∉ name)
    ⟨fun h => ⟨h.1, by simpa using h.2.1, h.2.2⟩, fun h => ⟨h.1, by simpa using h.2, h.3⟩⟩

/-! ### Writing -/

/-- What is written before the values of a choice. -/
def Kind.choiceLead : Text := "choice ("

/-- A kind as it is written. -/
def Kind.write : Kind → Text
  | .string => "string"
  | .boolean => "boolean"
  | .number => "number"
  | .choice values => choiceLead ++ (Text.join ['|'] values ++ [')'])

@[simp] theorem Kind.write_choice (values : List Text) :
    (Kind.choice values).write = choiceLead ++ (Text.join ['|'] values ++ [')']) := rfl

/-- Whether a kind can be written. -/
def Kind.IsWritable : Kind → Prop
  | .choice values =>
    2 ≤ values.length ∧
      ∀ v ∈ values, v ≠ [] ∧ Text.IsInline v ∧ '|' ∉ v ∧ '(' ∉ v ∧ ')' ∉ v
  | _ => True

instance : DecidablePred Kind.IsWritable
  | .choice values => inferInstanceAs (Decidable (2 ≤ values.length ∧
      ∀ v ∈ values, v ≠ [] ∧ Text.IsInline v ∧ '|' ∉ v ∧ '(' ∉ v ∧ ')' ∉ v))
  | .string | .boolean | .number => .isTrue trivial

/-- A parameter as the text of its item. -/
def Parameter.write (p : Parameter) : Text :=
  p.name ++ ':' :: ' ' :: (p.kind.write ++ if p.required then [] else ' ' :: optionalMarker)

/-- A parameter that can be written. -/
structure Parameter.IsWritable (p : Parameter) : Prop where
  name : IsName p.name
  unmarked : ¬ optionalMarker <:+: p.name
  kind : p.kind.IsWritable

instance (p : Parameter) : Decidable p.IsWritable :=
  decidable_of_iff
    (IsName p.name ∧ ¬ Text.includes optionalMarker p.name = true ∧ p.kind.IsWritable)
    ⟨fun h => ⟨h.1, mt Text.includes_iff.2 h.2.1, h.2.2⟩,
      fun h => ⟨h.1, mt Text.includes_iff.1 h.2, h.3⟩⟩

/-- An output as the text of its item. -/
def Output.write (o : Output) : Text :=
  match o.description with
  | none => o.name
  | some description => o.name ++ ':' :: ' ' :: description

/-- An output that can be written. -/
structure Output.IsWritable (o : Output) : Prop where
  name : IsName o.name
  description : ∀ d ∈ o.description, d ≠ [] ∧ Text.IsInline d

instance (o : Output) : Decidable o.IsWritable :=
  decidable_of_iff (IsName o.name ∧ ∀ d ∈ o.description, d ≠ [] ∧ Text.IsInline d)
    ⟨fun h => ⟨h.1, h.2⟩, fun h => ⟨h.1, h.2⟩⟩

/-! ### Names -/

theorem IsName.trim {name : Text} (h : IsName name) : Text.trim name = name :=
  Text.trim_eq_self (fun c hc => h.noBlank c (List.mem_of_head? hc))
    fun c hc => h.noBlank c (List.mem_of_getLast? hc)

theorem IsName.isInline {name : Text} (h : IsName name) : Text.IsInline name where
  noLineEnd := fun hmem => by
    have hblank := h.noBlank _ hmem
    revert hblank
    decide
  trimmed := h.trim

/-- A trimmed text after a name and a colon. -/
theorem IsName.trim_append {name t : Text} (h : IsName name) (hne : t ≠ [])
    (ht : Text.trim t = t) : Text.trim (name ++ ':' :: ' ' :: t) = name ++ ':' :: ' ' :: t := by
  refine Text.trim_eq_self (fun c hc => ?_) fun c hc => ?_
  · rw [List.head?_append_of_ne_nil _ h.nonempty] at hc
    exact h.noBlank c (List.mem_of_head? hc)
  · have hsplit : name ++ ':' :: ' ' :: t = (name ++ [':', ' ']) ++ t := by simp
    rw [hsplit, List.getLast?_append_of_ne_nil _ hne, ← ht] at hc
    exact Text.isBlank_getLast_trim hc

theorem IsName.isInline_append {name t : Text} (h : IsName name) (hne : t ≠ [])
    (ht : Text.IsInline t) : Text.IsInline (name ++ ':' :: ' ' :: t) where
  noLineEnd := List.not_mem_append h.isInline.noLineEnd (by simp [ht.noLineEnd])
  trimmed := h.trim_append hne ht.trimmed

theorem readName_of_isName {name : Text} (h : IsName name) (mode : ParseMode) :
    readName mode name = .ok (some name) := by
  have hblank : ¬ name.any Text.isBlank = true := fun hany => by
    obtain ⟨c, hc, hb⟩ := List.any_eq_true.1 hany
    rw [h.noBlank c hc] at hb
    cases hb
  rw [readName, if_neg h.nonempty, if_neg hblank]

/-! ### Kinds -/

namespace Text

theorem not_mem_join {sep c : Char} {ts : List Text} (hsep : c ≠ sep) (h : ∀ t ∈ ts, c ∉ t) :
    c ∉ join [sep] ts := fun hmem => by
  rcases mem_join hmem with hc | ⟨t, ht, hc⟩
  · exact hsep (List.mem_singleton.1 hc)
  · exact h t ht hc

theorem splitOnce_append_cons {sep : Char} {before after : Text} (h : sep ∉ before) :
    splitOnce sep (before ++ sep :: after) = some (before, after) :=
  splitOnce_eq_some_iff.2 ⟨rfl, h⟩

end Text

namespace Kind

variable {values : List Text}

theorem bar_mem_join (h : 2 ≤ values.length) : '|' ∈ Text.join ['|'] values := by
  match values, h with
  | first :: second :: rest, _ => simp [Text.join, List.intercalate_cons_cons]

theorem grouped?_choice (h : (Kind.choice values).IsWritable) :
    grouped? (Kind.choice values).write = some (Text.join ['|'] values) := by
  have hclose : ')' ∉ Text.join ['|'] values :=
    Text.not_mem_join (by decide) fun v hv => (h.2 v hv).2.2.2.2
  have hword : '(' ∉ ("choice " : Text) := by decide
  have hopen : Text.splitOnce '(' (Kind.choice values).write =
      some (("choice " : Text), Text.join ['|'] values ++ [')']) :=
    Text.splitOnce_append_cons hword
  rw [grouped?, hopen, Option.bind_some, Text.splitOnce_append_cons hclose, Option.map_some]

theorem ne_nil_of_isWritable (h : (Kind.choice values).IsWritable) : values ≠ [] := by
  rintro rfl
  exact absurd h.1 (by decide)

/-- The values of a choice with bars between them are cut apart at the bars. -/
theorem cut_join (h : (Kind.choice values).IsWritable) :
    (((Text.join ['|'] values).splitOn '|').map Text.trim).filter (· ≠ []) = values := by
  have hsplit : (Text.join ['|'] values).splitOn '|' = values :=
    List.splitOn_intercalate '|' (fun v hv => (h.2 v hv).2.2.1) (ne_nil_of_isWritable h)
  have htrim : values.map Text.trim = values :=
    (List.map_congr_left fun v hv => (h.2 v hv).2.1.trimmed).trans (List.map_id' values)
  rw [hsplit, htrim]
  exact List.filter_eq_self.2 fun v hv => decide_eq_true (h.2 v hv).1

/-- The values of a choice that was written. -/
theorem choiceValues_write (h : (Kind.choice values).IsWritable) :
    choiceValues (Kind.choice values).write = values := by
  have hbar : decide ('|' ∈ Text.join ['|'] values) = true := decide_eq_true (bar_mem_join h.1)
  rw [choiceValues, grouped?_choice h, Option.filter_some, if_pos hbar, Option.getD_some, cut_join h]

/-- A kind that was written is read back. -/
theorem read_write {k : Kind} (h : k.IsWritable) (mode : ParseMode) : read mode k.write = .ok k := by
  cases k with
  | string => cases mode <;> rfl
  | boolean => cases mode <;> rfl
  | number => cases mode <;> rfl
  | choice values =>
    have hbar : '|' ∈ (Kind.choice values).write :=
      List.mem_append_right _ (List.mem_append_left _ (bar_mem_join h.1))
    rw [read, if_pos hbar, choiceValues_write h]
    match values, h.1 with
    | first :: rest, _ => rfl

theorem trim_write (k : Kind) : Text.trim k.write = k.write := by
  cases k with
  | string => decide
  | boolean => decide
  | number => decide
  | choice values =>
    refine Text.trim_eq_self (fun c hc => ?_) fun c hc => ?_
    · have hword : choiceLead.head? = some 'c' := by decide
      rw [write_choice, List.head?_append, hword] at hc
      obtain rfl : c = 'c' := (Option.some.inj hc).symm
      decide
    · rw [write_choice, ← List.append_assoc, List.getLast?_concat] at hc
      obtain rfl : c = ')' := (Option.some.inj hc).symm
      decide

/-- The marker of optional parameters does not stand in a kind: between the parentheses of a choice
there is a bar. -/
theorem unmarked_write {k : Kind} (h : k.IsWritable) : ¬ optionalMarker <:+: k.write := by
  have hmark : '(' ∈ optionalMarker := by decide
  cases k with
  | string => exact Text.not_infix_of_not_mem hmark (by decide)
  | boolean => exact Text.not_infix_of_not_mem hmark (by decide)
  | number => exact Text.not_infix_of_not_mem hmark (by decide)
  | choice values =>
    match values, h with
    | first :: second :: rest, h =>
      have hfirst : ')' ∉ choiceLead ++ first :=
        List.not_mem_append (by decide) (h.2 first (by simp)).2.2.2.2
      have hopen : '(' ∉ Text.join ['|'] (second :: rest) :=
        Text.not_mem_join (by decide) fun v hv => (h.2 v (by simp [hv])).2.2.2.1
      have hrest : '(' ∉ Text.join ['|'] (second :: rest) ++ [')'] := by simp [hopen]
      have hcut : (Kind.choice (first :: second :: rest)).write =
          (choiceLead ++ first) ++ '|' :: (Text.join ['|'] (second :: rest) ++ [')']) := by
        simp [Text.join, List.intercalate_cons_cons]
      rw [hcut, Text.infix_append_cons_iff (by decide)]
      rintro (hi | hi)
      · exact Text.not_infix_of_not_mem (by decide) hfirst hi
      · exact Text.not_infix_of_not_mem hmark hrest hi

theorem isInline_write {k : Kind} (h : k.IsWritable) : Text.IsInline k.write where
  noLineEnd := by
    cases k with
    | string => decide
    | boolean => decide
    | number => decide
    | choice values =>
      have hlead : '\n' ∉ choiceLead := by decide
      have hvalues : '\n' ∉ Text.join ['|'] values :=
        Text.not_mem_join (by decide) fun v hv => (h.2 v hv).2.1.noLineEnd
      simp [hlead, hvalues]
  trimmed := k.trim_write

theorem write_ne_nil (k : Kind) : k.write ≠ [] := by
  cases k with
  | string => decide
  | boolean => decide
  | number => decide
  | choice values => simp

end Kind

/-! ### Parameters -/

namespace Parameter

variable {p : Parameter}

theorem unmarked_write (h : p.IsWritable) :
    ¬ optionalMarker <:+: p.name ++ ':' :: ' ' :: p.kind.write := by
  rw [Text.infix_append_cons_iff (by decide), ← List.nil_append (' ' :: p.kind.write),
    Text.infix_append_cons_iff (by decide)]
  rintro (hi | hi | hi)
  · exact h.unmarked hi
  · exact absurd hi (by decide)
  · exact Kind.unmarked_write h.kind hi

theorem includes_marker_write (h : p.IsWritable) :
    Text.includes optionalMarker p.write = !p.required := by
  cases hr : p.required with
  | true =>
    rw [Bool.not_true, Bool.eq_false_iff]
    intro hi
    rw [Text.includes_iff, write, hr, if_pos rfl, List.append_nil] at hi
    exact unmarked_write h hi
  | false =>
    rw [Bool.not_false, Text.includes_iff, write, hr, if_neg Bool.false_ne_true]
    exact ⟨p.name ++ ':' :: ' ' :: (p.kind.write ++ [' ']), [], by simp⟩

/-- Without the marker nothing is left behind the kind but blanks. -/
theorem remove_marker_write (h : p.IsWritable) :
    ∃ after, Text.remove optionalMarker p.write =
        (p.name ++ ':' :: ' ' :: p.kind.write) ++ after ∧
      ∀ c ∈ after, Text.isBlank c = true := by
  have hspace : (' ' : Char) ∉ optionalMarker := by decide
  have hne : optionalMarker ≠ [] := by decide
  have hplain := Text.remove_eq_self (unmarked_write h)
  cases hr : p.required with
  | true =>
    refine ⟨[], ?_, by simp⟩
    rw [write, hr, if_pos rfl, List.append_nil, List.append_nil, hplain]
  | false =>
    refine ⟨[' '], ?_, List.forall_mem_singleton.2 (by decide)⟩
    have hcut : p.write = (p.name ++ ':' :: ' ' :: p.kind.write) ++ ' ' :: optionalMarker := by
      rw [write, hr, if_neg Bool.false_ne_true, List.append_assoc]
      rfl
    have hmarker : Text.remove optionalMarker optionalMarker = [] := by decide
    rw [hcut, Text.remove_append_cons hspace hne, hplain, hmarker]

/-- The text of a parameter that was written, without the marker. -/
theorem plainText_write (h : p.IsWritable) :
    plainText p.write = p.name ++ ':' :: ' ' :: p.kind.write := by
  obtain ⟨after, hremove, hafter⟩ := remove_marker_write h
  rw [plainText, hremove, Text.trim_append_of_blank hafter]
  exact h.name.trim_append p.kind.write_ne_nil p.kind.trim_write

/-- A parameter that was written is read back. -/
theorem read_write (h : p.IsWritable) (mode : ParseMode) : read mode p.write = .ok (some p) := by
  rw [read, includes_marker_write h, Bool.not_not, plainText_write h,
    Text.splitOnce_append_cons h.name.noColon]
  simp only [h.name.trim, readName_of_isName h.name, Text.trim_space_cons p.kind.trim_write,
    Kind.read_write h.kind]
  rfl

theorem isInline_write (h : p.IsWritable) : Text.IsInline p.write := by
  have hkind := Kind.isInline_write h.kind
  have hne := p.kind.write_ne_nil
  refine h.name.isInline_append (by simp [hne]) ?_
  cases p.required with
  | true => simpa using hkind
  | false =>
    have hmarker : '\n' ∉ optionalMarker := by decide
    have hlast : optionalMarker.getLast? = some ')' := by decide
    refine ⟨by simp [hkind.noLineEnd, hmarker], ?_⟩
    refine Text.trim_eq_self (fun c hc => ?_) fun c hc => ?_
    · rw [List.head?_append_of_ne_nil _ hne, ← hkind.trimmed] at hc
      exact Text.isBlank_head_trim hc
    · rw [if_neg Bool.false_ne_true, List.getLast?_append, List.getLast?_cons, hlast] at hc
      obtain rfl : c = ')' := (Option.some.inj hc).symm
      decide

end Parameter

/-! ### Outputs -/

theorem Output.isInline_write {o : Output} (h : o.IsWritable) : Text.IsInline o.write := by
  obtain ⟨name, description⟩ := o
  cases description with
  | none => exact h.name.isInline
  | some d => exact h.name.isInline_append (h.description d rfl).1 (h.description d rfl).2

/-- An output that was written is read back. -/
theorem Output.read_write {o : Output} (h : o.IsWritable) (mode : ParseMode) :
    read mode o.write = .ok (some o) := by
  obtain ⟨name, description⟩ := o
  cases description with
  | none =>
    have hnone : Text.splitOnce ':' name = none := Text.splitOnce_eq_none_iff.2 h.name.noColon
    rw [read, write, hnone]
    simp only [h.name.trim, readName_of_isName h.name]
    rfl
  | some d =>
    have hd := h.description d rfl
    rw [read, write, Text.splitOnce_append_cons h.name.noColon]
    simp only [h.name.trim, readName_of_isName h.name, Text.trim_space_cons hd.2.trimmed, if_neg hd.1]
    rfl

end ActionBundles
