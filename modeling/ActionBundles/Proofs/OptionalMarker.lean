import ActionBundles.Proofs.ParsedModels

/-!
# The marker of optional parameters

The marker `(optional)` may be put anywhere into the text of a parameter: between its parts, into the
middle of the name, the type or a value of a choice, before the colon or after it. Wherever it
stands, it says that the parameter may be missing and changes nothing else of what is read.

A text is read without the marker, so all depends on what removing it leaves. The marker opens with
a parenthesis that it holds nowhere else, hence it cannot overlap itself: a text without it that it
is put into holds this one occurrence and no other, and taking it out gives the text back.
-/

namespace ActionBundles

/-! ### A piece that is put in -/

namespace Text

variable {c : Char} {tail a b : Text}

/-- A piece that holds its first character once, put into a text without it, starts nowhere before
the place where it was put. -/
theorem not_prefix_of_not_infix {d : Char} (hc : c ∉ tail) (h : ¬ c :: tail <:+: d :: (a ++ b)) :
    ¬ c :: tail <+: d :: (a ++ (c :: tail ++ b)) := by
  intro hpiece
  have hbefore : ¬ c :: tail <+: d :: a := fun hp =>
    h (hp.trans (List.prefix_append (d :: a) b)).isInfix
  rcases List.prefix_or_prefix_of_prefix hpiece (List.prefix_append (d :: a) (c :: tail ++ b)) with
    hp | ⟨more, hmore⟩
  · exact hbefore hp
  · -- what is left of the piece would start it again
    have hagain : more <+: c :: (tail ++ b) := by
      rw [← List.prefix_append_right_inj (d :: a), hmore]
      exact hpiece
    cases more with
    | nil =>
      rw [List.append_nil] at hmore
      exact hbefore (hmore ▸ List.prefix_rfl)
    | cons e more =>
      obtain ⟨rfl, -⟩ := List.cons_prefix_cons.1 hagain
      rw [← (List.cons.inj hmore).2] at hc
      exact hc (List.mem_append_right a List.mem_cons_self)

/-- The rest of an occurrence that has been met is dropped. -/
theorem removeFrom_append {piece : Text} (s t : Text) :
    removeFrom piece s.length (s ++ t) = removeFrom piece 0 t := by
  induction s with
  | nil => rfl
  | cons d s ih => exact ih

/-- **What was put in is what is removed**: a piece that holds its first character once is taken out
of a text that it was put into, and the text is as it was. -/
theorem remove_insert (hc : c ∉ tail) (h : ¬ c :: tail <:+: a ++ b) :
    remove (c :: tail) (a ++ (c :: tail ++ b)) = a ++ b := by
  induction a with
  | nil =>
    have hpiece : (c :: tail).isPrefixOf (c :: (tail ++ b)) = true :=
      List.isPrefixOf_iff_prefix.2 (List.prefix_append (c :: tail) b)
    rw [List.nil_append, List.cons_append, remove, removeFrom, if_pos hpiece]
    exact (removeFrom_append tail b).trans (remove_eq_self h)
  | cons d a ih =>
    have hrest : ¬ c :: tail <:+: a ++ b := fun hi => h (List.infix_cons_iff.2 (.inr hi))
    have hnot : ¬ (c :: tail).isPrefixOf (d :: (a ++ (c :: tail ++ b))) = true := fun hp =>
      not_prefix_of_not_infix hc h (List.isPrefixOf_iff_prefix.1 hp)
    rw [List.cons_append, remove, removeFrom, if_neg hnot]
    exact congrArg (d :: ·) (ih hrest)

end Text

/-! ### Parameters with the marker -/

namespace Parameter

variable {mode : ParseMode} {text text' before after : Text}

/-- What is read depends on the text without the marker, but for whether the parameter is required:
this depends on the marker alone. -/
theorem read_eq_map (mode : ParseMode) (h : plainText text' = plainText text) :
    read mode text' = (read mode text).map (Option.map fun p =>
      { p with required := !Text.includes optionalMarker text' }) := by
  rw [read, read, h]
  cases Text.splitOnce ':' (plainText text) with
  | none =>
    dsimp only
    cases readName mode (plainText text) with
    | error => rfl
    | ok name => cases name <;> rfl
  | some halves =>
    dsimp only
    cases readName mode (Text.trim halves.1) with
    | error => rfl
    | ok name =>
      cases name with
      | none => rfl
      | some n => cases Kind.read mode (Text.trim halves.2) <;> rfl

/-- A parameter is required exactly if its text lacks the marker. -/
theorem required_of_read {p : Parameter} (h : read mode text = .ok (some p)) :
    p.required = !Text.includes optionalMarker text := by
  have hself := read_eq_map mode (rfl : plainText text = plainText text)
  rw [h] at hself
  exact congrArg Parameter.required (Option.some.inj (Except.ok.inj hself))

/-- The text without the marker is the same as before the marker was put in. -/
theorem plainText_insert_marker (h : ¬ optionalMarker <:+: before ++ after) :
    plainText (before ++ (optionalMarker ++ after)) = plainText (before ++ after) := by
  have hremove : Text.remove optionalMarker (before ++ (optionalMarker ++ after)) =
      before ++ after := Text.remove_insert (by decide) h
  rw [plainText, plainText, hremove, Text.remove_eq_self h]

/-- **The marker only makes a parameter optional.** Wherever it is put into the text of an item that
lacks it, the item is read as before, with the same name and kind, as dropped, or with the same
irregularity, except that a parameter that was required may then be missing. -/
theorem read_insert_marker (mode : ParseMode) (h : ¬ optionalMarker <:+: before ++ after) :
    read mode (before ++ (optionalMarker ++ after)) =
        (read mode (before ++ after)).map (Option.map fun p => { p with required := false }) ∧
      ∀ p, read mode (before ++ after) = .ok (some p) → p.required = true := by
  have hplain : Text.includes optionalMarker (before ++ after) = false :=
    Bool.eq_false_iff.2 fun hi => h (Text.includes_iff.1 hi)
  have hmarked : Text.includes optionalMarker (before ++ (optionalMarker ++ after)) = true :=
    Text.includes_iff.2 ⟨before, after, List.append_assoc ..⟩
  constructor
  · rw [read_eq_map mode (plainText_insert_marker h), hmarked]
    rfl
  · intro p hp
    rw [required_of_read hp, hplain]
    rfl

/-- The marker in the middle of a word of a choice. -/
theorem read_insert_marker_sampleSplit :
    read .strict "mode: fa(optional)st|slow" =
      .ok (some ⟨"mode", .choice ["fast", "slow"], false⟩) := by
  have hlacks : ¬ optionalMarker <:+: ("mode: fa" : Text) ++ ("st|slow" : Text) :=
    fun hi => absurd (Text.includes_iff.2 hi) (by decide)
  have hplain : read .strict (("mode: fa" : Text) ++ ("st|slow" : Text)) =
      .ok (some ⟨"mode", .choice ["fast", "slow"], true⟩) := by decide +kernel
  have hmarked := (read_insert_marker .strict hlacks).1
  rw [hplain] at hmarked
  exact hmarked

end Parameter

end ActionBundles
