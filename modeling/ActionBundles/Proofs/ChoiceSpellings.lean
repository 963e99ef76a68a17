import ActionBundles.Proofs.ParsedModels

/-!
# The spellings of a choice

A choice is written in three ways: its values alone with bars between them, the values in
parentheses, or the values in parentheses after the word `choice`. A note in parentheses may stand
after any of them, and the marker of optional parameters is such a note.

The spellings with parentheses give the values as they are. Without parentheses the reader takes the
word `choice` away from the start of what it read, be it the whole first value or only how this
value begins, so that the values are kept exactly if the first one does not start with this word.
-/

namespace ActionBundles

namespace Text

variable {a b : Text} {c : Char}

/-- What does not hold the first character of a piece stays when the piece is removed. -/
theorem remove_append_of_not_mem {piece : Text} (hc : c ∉ a) :
    remove (c :: piece) (a ++ b) = a ++ remove (c :: piece) b := by
  induction a with
  | nil => rfl
  | cons d a ih =>
    rw [List.mem_cons, not_or] at hc
    have hnot : ¬ (c :: piece).isPrefixOf (d :: (a ++ b)) = true := fun h =>
      hc.1 (List.cons_prefix_cons.1 (List.isPrefixOf_iff_prefix.1 h)).1
    rw [List.cons_append, remove, removeFrom, if_neg hnot]
    exact congrArg (d :: ·) (ih hc.2)

theorem trimStart_append_cons (hc : isBlank c = false) (a b : Text) :
    trimStart (a ++ c :: b) = trimStart a ++ c :: b := by
  induction a with
  | nil => exact trimStart_of_head hc
  | cons d a ih =>
    cases hd : isBlank d with
    | true =>
      rw [List.cons_append, trimStart, trimStart, List.dropWhile_cons_of_pos hd,
        List.dropWhile_cons_of_pos hd]
      exact ih
    | false => rw [List.cons_append, trimStart_of_head hd, trimStart_of_head hd, List.cons_append]

theorem trimStart_eq_self {t : Text} (h : ∀ c, t.head? = some c → isBlank c = false) :
    trimStart t = t := by
  match t with
  | [] => rfl
  | c :: t => exact trimStart_of_head (h c rfl)

theorem trim_trimStart (t : Text) : trim (trimStart t) = trim t := by
  rw [trim, trim, trimStart_eq_self fun _ => isBlank_head_trimStart]

theorem length_trim_le (t : Text) : (trim t).length ≤ t.length := by
  have hend := trimEnd_prefix (trimStart t)
  exact hend.length_le.trans (List.dropWhile_suffix isBlank).length_le

theorem trimStart_of_trimmed {t : Text} (h : trim t = t) : trimStart t = t :=
  trimStart_eq_self fun c hc => isBlank_head_trim (t := t) (by rwa [h])

section Leads

variable {lead t : Text}

theorem stripAllStart_of_not_lead (h : ¬ lead <+: t) : stripAllStart lead t = t := by
  rw [stripAllStart]
  split
  · next rest hrest => exact absurd ⟨rest, (eq_append_of_stripStart? hrest).symm⟩ h
  · rfl

theorem stripAllStart_append (hne : lead ≠ []) (t : Text) :
    stripAllStart lead (lead ++ t) = stripAllStart lead t := by
  have hshort : t.length < (lead ++ t).length := by
    have hpos := List.length_pos_iff.2 hne
    rw [List.length_append]
    omega
  have hstrip : stripStart? lead (lead ++ t) = some t :=
    List.isPrefixOf?_eq_some_iff_append_eq.2 rfl
  rw [stripAllStart, hstrip]
  exact if_pos hshort

/-- What stands before a text is taken away piece by piece. -/
theorem stripAllStart_induction {p : Text → Prop} (hne : lead ≠ [])
    (other : ∀ t, ¬ lead <+: t → p t) (append : ∀ t, p t → p (lead ++ t)) (t : Text) : p t := by
  induction hlength : t.length using Nat.strongRecOn generalizing t with
  | _ length ih =>
    by_cases h : lead <+: t
    · obtain ⟨rest, rfl⟩ := h
      have hshort : rest.length < length := by
        have hpos := List.length_pos_iff.2 hne
        rw [List.length_append] at hlength
        omega
      exact append rest (ih rest.length hshort rest rfl)
    · exact other t h

theorem length_stripAllStart_le (hne : lead ≠ []) (t : Text) :
    (stripAllStart lead t).length ≤ t.length := by
  induction t using stripAllStart_induction hne with
  | other t h => rw [stripAllStart_of_not_lead h]
  | append t ih =>
    rw [stripAllStart_append hne, List.length_append]
    exact ih.trans (Nat.le_add_left _ _)

theorem length_stripAllStart_lt (hne : lead ≠ []) (h : lead <+: t) :
    (stripAllStart lead t).length < t.length := by
  obtain ⟨rest, rfl⟩ := h
  have hle := length_stripAllStart_le hne rest
  have hpos := List.length_pos_iff.2 hne
  rw [stripAllStart_append hne, List.length_append]
  omega

/-- What is taken away from the start of a text stands before a character that it lacks. -/
theorem stripAllStart_append_cons (hne : lead ≠ []) (hc : c ∉ lead) (a b : Text) :
    stripAllStart lead (a ++ c :: b) = stripAllStart lead a ++ c :: b := by
  induction a using stripAllStart_induction hne with
  | other a h =>
    rw [stripAllStart_of_not_lead h,
      stripAllStart_of_not_lead fun hlead => h (prefix_of_prefix_append_cons hc hlead)]
  | append a ih => rw [List.append_assoc, stripAllStart_append hne, stripAllStart_append hne, ih]

end Leads

end Text

/-! ### Spellings -/

/-- The word that may stand before the values of a choice. -/
def Kind.choiceWord : Text := "choice"

/-- How a choice is written. -/
inductive Kind.Spelling where
  /-- The values alone. -/
  | bare
  /-- The values in parentheses. -/
  | group
  /-- The values in parentheses after the word `choice`. -/
  | word

namespace Kind.Spelling

/-- What stands before the values in parentheses. -/
def lead : Spelling → Text
  | word => "choice "
  | _ => []

/-- A choice as it is written. -/
def write (s : Spelling) (values : List Text) : Text :=
  match s with
  | bare => Text.join ['|'] values
  | _ => s.lead ++ '(' :: (Text.join ['|'] values ++ [')'])

/-- The values that are read. A first value that stands alone loses the words `choice` it starts
with, and is lost with them if it holds nothing else. -/
def kept (s : Spelling) (values : List Text) : List Text :=
  match s, values with
  | bare, first :: rest =>
    (Text.trim (Text.stripAllStart choiceWord first) :: rest).filter (· ≠ [])
  | _, values => values

end Kind.Spelling

/-- What may stand after a choice: nothing, or a note in parentheses. A note holds no bar, and it
does not close its parenthesis right after the word `optional`, which would make this much the
marker and the rest no note. -/
inductive IsNote : Text → Prop where
  /-- No note. -/
  | none : IsNote []
  /-- A note after some blanks. -/
  | some {gap note : Text} (hgap : ∀ c ∈ gap, Text.isBlank c = true) (hbar : '|' ∉ note)
      (hclose : ¬ ("optional)" : Text) <+: note) : IsNote (gap ++ '(' :: (note ++ [')']))

/-- What is left of a note without the marker: blanks, and perhaps a text that opens a
parenthesis. -/
inductive IsRemark : Text → Prop where
  /-- Nothing but blanks. -/
  | none {gap : Text} (hgap : ∀ c ∈ gap, Text.isBlank c = true) : IsRemark gap
  /-- A text that opens a parenthesis. -/
  | some {gap rest : Text} (hgap : ∀ c ∈ gap, Text.isBlank c = true) (hbar : '|' ∉ rest) :
      IsRemark (gap ++ '(' :: rest)

/-! ### The marker -/

theorem not_mem_of_blank {gap : Text} {c : Char} (hgap : ∀ c ∈ gap, Text.isBlank c = true)
    (hc : Text.isBlank c = false) : c ∉ gap := fun hmem => by
  rw [hgap c hmem] at hc
  cases hc

/-- The marker starts with a parenthesis. -/
theorem remove_marker_append {a b : Text} (h : '(' ∉ a) :
    Text.remove optionalMarker (a ++ b) = a ++ Text.remove optionalMarker b :=
  Text.remove_append_of_not_mem h

/-- Without the marker a note is a remark. -/
theorem IsNote.remove_marker {tail : Text} (h : IsNote tail) :
    IsRemark (Text.remove optionalMarker tail) := by
  cases h with
  | none => exact .none nofun
  | @some gap note hgap hbar hclose =>
    rw [remove_marker_append (not_mem_of_blank hgap (by decide))]
    by_cases hmarker : optionalMarker <+: '(' :: (note ++ [')'])
    · -- the note is the marker, as it does not close its parenthesis sooner
      have hnote : ("optional)" : Text) <+: note ++ [')'] := (List.cons_prefix_cons.1 hmarker).2
      rcases List.prefix_concat_iff.1 hnote with heq | hprefix
      · have hempty : Text.remove optionalMarker ('(' :: (note ++ [')'])) = [] := by
          rw [← heq]
          decide
        rw [hempty, List.append_nil]
        exact .none hgap
      · exact absurd hprefix hclose
    · have hkept : Text.remove optionalMarker ('(' :: (note ++ [')'])) =
          '(' :: Text.remove optionalMarker (note ++ [')']) := by
        rw [Text.remove, Text.removeFrom,
          if_neg fun h => hmarker (List.isPrefixOf_iff_prefix.1 h), Text.remove]
      have hbar' : '|' ∉ Text.remove optionalMarker (note ++ [')']) := fun hmem =>
        List.not_mem_append hbar (by decide) (Text.mem_of_mem_removeFrom hmem)
      rw [hkept]
      exact .some hgap hbar'

namespace Kind.Spelling

variable {values : List Text} {s : Spelling}

theorem open_not_mem_join (h : (Kind.choice values).IsWritable) : '(' ∉ Text.join ['|'] values :=
  Text.not_mem_join (by decide) fun v hv => (h.2 v hv).2.2.2.1

theorem close_not_mem_join (h : (Kind.choice values).IsWritable) : ')' ∉ Text.join ['|'] values :=
  Text.not_mem_join (by decide) fun v hv => (h.2 v hv).2.2.2.2

theorem open_not_mem_lead (s : Spelling) : '(' ∉ s.lead := by
  cases s <;> decide

theorem join_cons {first : Text} {rest : List Text} (h : rest ≠ []) :
    Text.join ['|'] (first :: rest) = first ++ '|' :: Text.join ['|'] rest := by
  match rest, h with
  | second :: rest, _ => simp [Text.join, List.intercalate_cons_cons]

/-- A choice has a value before its first bar and others after it. -/
theorem exists_cons (h : (Kind.choice values).IsWritable) :
    ∃ first rest, values = first :: rest ∧ rest ≠ [] := by
  match values, h.1 with
  | first :: second :: rest, _ => exact ⟨first, second :: rest, rfl, List.cons_ne_nil _ _⟩

/-- The marker does not reach into a choice: between its parentheses it would have to cross a
bar. -/
theorem remove_marker_write (h : (Kind.choice values).IsWritable) (s : Spelling) (tail : Text) :
    Text.remove optionalMarker (s.write values ++ tail) =
      s.write values ++ Text.remove optionalMarker tail := by
  have hgroup : Text.remove optionalMarker
      ((s.lead ++ '(' :: (Text.join ['|'] values ++ [')'])) ++ tail) =
        (s.lead ++ '(' :: (Text.join ['|'] values ++ [')'])) ++ Text.remove optionalMarker tail := by
    obtain ⟨first, rest, rfl, hrest⟩ := exists_cons h
    have hclose : ')' ∉ s.lead ++ '(' :: first := by
      have hlead : ')' ∉ s.lead := by cases s <;> decide
      simp [hlead, (h.2 first (by simp)).2.2.2.2]
    have hbefore : Text.remove optionalMarker (s.lead ++ '(' :: first) = s.lead ++ '(' :: first :=
      Text.remove_eq_self (Text.not_infix_of_not_mem (by decide) hclose)
    have hopen : '(' ∉ Text.join ['|'] rest ++ [')'] := by
      have hjoin : '(' ∉ Text.join ['|'] rest :=
        Text.not_mem_join (by decide) fun v hv => (h.2 v (by simp [hv])).2.2.2.1
      simp [hjoin]
    have hcut (after : Text) : (s.lead ++ '(' :: (Text.join ['|'] (first :: rest) ++ [')'])) ++ after =
        (s.lead ++ '(' :: first) ++ '|' :: ((Text.join ['|'] rest ++ [')']) ++ after) := by
      simp [join_cons hrest]
    rw [hcut, hcut, Text.remove_append_cons (by decide) (by decide), hbefore,
      remove_marker_append hopen]
  cases s with
  | bare => exact remove_marker_append (open_not_mem_join h)
  | group | word => exact hgroup

/-! ### The values -/

theorem trimEnd_join (hne : values ≠ []) (h : ∀ v ∈ values, v ≠ [] ∧ Text.trim v = v) :
    Text.trimEnd (Text.join ['|'] values) = Text.join ['|'] values := by
  induction values with
  | nil => exact absurd rfl hne
  | cons first rest ih =>
    by_cases hrest : rest = []
    · subst hrest
      obtain ⟨hfirst, htrim⟩ := h first (by simp)
      simpa [Text.join] using Text.trimEnd_append_of_trimmed hfirst htrim []
    · rw [join_cons hrest, Text.trimEnd_append_cons (by decide),
        ih hrest fun v hv => h v (by simp [hv])]

/-- Trimming changes nothing behind the first bar. -/
theorem trim_append_join {first : Text} {rest : List Text} (hrest : rest ≠ [])
    (h : (Kind.choice (first :: rest)).IsWritable) (a : Text) :
    Text.trim (a ++ '|' :: Text.join ['|'] rest) =
      Text.trimStart a ++ '|' :: Text.join ['|'] rest := by
  have hvalues : ∀ v ∈ rest, v ≠ [] ∧ Text.trim v = v := fun v hv =>
    ⟨(h.2 v (by simp [hv])).1, (h.2 v (by simp [hv])).2.1.trimmed⟩
  rw [Text.trim, Text.trimStart_append_cons (by decide), Text.trimEnd_append_cons (by decide),
    trimEnd_join hrest hvalues]

/-- A choice has no blanks around it, however it is written. -/
theorem trim_write (h : (Kind.choice values).IsWritable) (s : Spelling) :
    Text.trim (s.write values) = s.write values := by
  have hgroup : Text.trim (s.lead ++ '(' :: (Text.join ['|'] values ++ [')'])) =
      s.lead ++ '(' :: (Text.join ['|'] values ++ [')']) := by
    refine Text.trim_eq_self (fun c hc => ?_) fun c hc => ?_
    · have hhead : c = '(' ∨ c = 'c' := by
        cases s with
        | bare | group => exact .inl (Option.some.inj hc).symm
        | word => exact .inr (Option.some.inj hc).symm
      rcases hhead with rfl | rfl <;> decide
    · rw [← List.cons_append, ← List.append_assoc, List.getLast?_concat] at hc
      obtain rfl : c = ')' := (Option.some.inj hc).symm
      decide
  cases s with
  | bare =>
    obtain ⟨first, rest, rfl, hrest⟩ := exists_cons h
    rw [write, join_cons hrest, trim_append_join hrest h,
      Text.trimStart_of_trimmed (h.2 first (by simp)).2.1.trimmed]
  | group | word => exact hgroup

theorem write_ne_nil (h : (Kind.choice values).IsWritable) (s : Spelling) :
    s.write values ≠ [] := by
  obtain ⟨first, rest, rfl, hrest⟩ := exists_cons h
  cases s with
  | bare =>
    rw [write, join_cons hrest]
    simp
  | group | word => simp [write]

theorem bar_mem_write (h : (Kind.choice values).IsWritable) (s : Spelling) :
    '|' ∈ s.write values := by
  have hbar := bar_mem_join h.1
  cases s <;> simp [write, hbar]

/-- Without blanks around it, a choice with a remark is still the choice with a remark. -/
theorem trim_write_append (h : (Kind.choice values).IsWritable) (s : Spelling) {remark : Text}
    (hremark : IsRemark remark) : ∃ rest, IsRemark rest ∧
      Text.trim (' ' :: (s.write values ++ remark)) = s.write values ++ rest := by
  have htrim := trim_write h s
  cases hremark with
  | none hgap =>
    refine ⟨[], .none nofun, ?_⟩
    rw [← List.cons_append, Text.trim_append_of_blank hgap, Text.trim_space_cons htrim,
      List.append_nil]
  | @some gap rest hgap hbar =>
    have hcut := Text.trimEnd_prefix rest
    refine ⟨gap ++ '(' :: Text.trimEnd rest, .some hgap fun hmem => hbar (hcut.subset hmem), ?_⟩
    have hhead : Text.trimStart (s.write values ++ gap) = s.write values ++ gap := by
      refine Text.trimStart_eq_self fun c hc => ?_
      rw [List.head?_append_of_ne_nil _ (write_ne_nil h s), ← htrim] at hc
      exact Text.isBlank_head_trim hc
    have hspace : Text.trimStart (' ' :: (s.write values ++ gap)) = s.write values ++ gap :=
      hhead
    rw [← List.append_assoc, ← List.cons_append, Text.trim,
      Text.trimStart_append_cons (by decide), hspace, Text.trimEnd_append_cons (by decide),
      List.append_assoc]

/-- A group in parentheses gives the values, whatever stands after it. -/
theorem grouped?_write (h : (Kind.choice values).IsWritable) (s : Spelling) (rest : Text) :
    grouped? ((s.lead ++ '(' :: (Text.join ['|'] values ++ [')'])) ++ rest) =
      some (Text.join ['|'] values) := by
  have hcut : (s.lead ++ '(' :: (Text.join ['|'] values ++ [')'])) ++ rest =
      s.lead ++ '(' :: (Text.join ['|'] values ++ ')' :: rest) := by simp
  rw [grouped?, hcut, Text.splitOnce_append_cons (open_not_mem_lead s), Option.bind_some,
    Text.splitOnce_append_cons (close_not_mem_join h), Option.map_some]

/-- No group of a remark holds a bar. -/
theorem grouped?_bare (h : (Kind.choice values).IsWritable) {remark : Text}
    (hremark : IsRemark remark) :
    (grouped? (Text.join ['|'] values ++ remark)).filter (fun group => '|' ∈ group) = none := by
  have hopen := open_not_mem_join h
  cases hremark with
  | none hgap =>
    have hnone : Text.splitOnce '(' (Text.join ['|'] values ++ remark) = none :=
      Text.splitOnce_eq_none_iff.2 (List.not_mem_append hopen (not_mem_of_blank hgap (by decide)))
    rw [grouped?, hnone, Option.bind_none, Option.filter_none]
  | @some gap rest hgap hbar =>
    rw [grouped?, ← List.append_assoc,
      Text.splitOnce_append_cons (List.not_mem_append hopen (not_mem_of_blank hgap (by decide))),
      Option.bind_some]
    cases hclose : Text.splitOnce ')' rest with
    | none => rfl
    | some halves =>
      have hgroup : '|' ∉ halves.1 := fun hmem => by
        rw [(Text.splitOnce_eq_some_iff.1 hclose).1] at hbar
        exact hbar (List.mem_append_left _ hmem)
      rw [Option.map_some, Option.filter_some, if_neg (by simpa using hgroup)]

/-- Before a remark, and without the word, the values stand with bars between them. -/
theorem ungrouped_bare (h : (Kind.choice values).IsWritable) {remark : Text}
    (hremark : IsRemark remark) : ungrouped (Text.join ['|'] values ++ remark) =
      Text.trim (Text.stripAllStart choiceWord (Text.join ['|'] values)) := by
  have hopen := open_not_mem_join h
  have htrim : Text.trim (Text.join ['|'] values) = Text.join ['|'] values := trim_write h .bare
  have hbefore : Text.trim ((Text.join ['|'] values ++ remark).takeWhile (· ≠ '(')) =
      Text.join ['|'] values := by
    have hword {gap : Text} (hgap : ∀ c ∈ gap, Text.isBlank c = true) :
        ∀ c ∈ Text.join ['|'] values ++ gap, decide (c ≠ '(') = true := fun c hc => by
      refine decide_eq_true ?_
      rintro rfl
      exact List.not_mem_append hopen (not_mem_of_blank hgap (by decide)) hc
    cases hremark with
    | none hgap =>
      rw [List.takeWhile_eq_self_iff.2 (hword hgap), Text.trim_append_of_blank hgap, htrim]
    | @some gap rest hgap hbar =>
      rw [← List.append_assoc, List.takeWhile_append_of_pos (hword hgap),
        List.takeWhile_cons_of_neg (by decide), List.append_nil, Text.trim_append_of_blank hgap,
        htrim]
  rw [ungrouped, hbefore]
  rfl

theorem choiceValues_write (h : (Kind.choice values).IsWritable) (s : Spelling) {remark : Text}
    (hremark : IsRemark remark) : choiceValues (s.write values ++ remark) = s.kept values := by
  have hgroup : choiceValues ((s.lead ++ '(' :: (Text.join ['|'] values ++ [')'])) ++ remark) =
      values := by
    rw [choiceValues, grouped?_write h, Option.filter_some,
      if_pos (decide_eq_true (bar_mem_join h.1)), Option.getD_some, cut_join h]
  cases s with
  | bare =>
    obtain ⟨first, rest, rfl, hrest⟩ := exists_cons h
    have hbars : ∀ v ∈ Text.trimStart (Text.stripAllStart choiceWord first) :: rest, '|' ∉ v := by
      intro v hv
      rcases List.mem_cons.1 hv with rfl | hv
      · exact fun hmem => (h.2 first (by simp)).2.2.1
          (Text.mem_of_mem_stripAllStart ((List.dropWhile_suffix _).subset hmem))
      · exact (h.2 v (by simp [hv])).2.2.1
    have htrim : rest.map Text.trim = rest :=
      (List.map_congr_left fun v hv => (h.2 v (by simp [hv])).2.1.trimmed).trans (List.map_id' rest)
    have hcut : ((Text.join ['|'] (Text.trimStart (Text.stripAllStart choiceWord first) :: rest)).splitOn
        '|') = Text.trimStart (Text.stripAllStart choiceWord first) :: rest :=
      List.splitOn_intercalate '|' hbars (List.cons_ne_nil _ _)
    rw [write, choiceValues, grouped?_bare h hremark, Option.getD_none, ungrouped_bare h hremark,
      join_cons hrest, Text.stripAllStart_append_cons (by decide) (by decide),
      trim_append_join hrest h, ← join_cons hrest, hcut, List.map_cons, htrim, Text.trim_trimStart,
      kept]
  | group | word => exact hgroup

/-- The values are kept exactly if they stand in parentheses or do not start with the word. -/
theorem kept_eq_iff (h : (Kind.choice values).IsWritable) (s : Spelling) :
    s.kept values = values ↔ (s = .bare → ∀ first ∈ values.head?, ¬ choiceWord <+: first) := by
  cases s with
  | group | word => exact iff_of_true rfl nofun
  | bare =>
    obtain ⟨first, rest, rfl, hrest⟩ := exists_cons h
    have hfull : rest.filter (· ≠ []) = rest :=
      List.filter_eq_self.2 fun v hv => decide_eq_true (h.2 v (by simp [hv])).1
    obtain ⟨hfirst, hinline, -⟩ := h.2 first (by simp)
    have hkept : kept .bare (first :: rest) = first :: rest ↔
        Text.trim (Text.stripAllStart choiceWord first) = first := by
      by_cases hempty : Text.trim (Text.stripAllStart choiceWord first) = []
      · have hne : ¬ rest = first :: rest := List.ne_cons_self
        rw [kept, hempty, List.filter_cons_of_neg (by simp), hfull]
        exact iff_of_false hne hfirst.symm
      · rw [kept, List.filter_cons_of_pos (by simpa using hempty), hfull, List.cons.injEq]
        exact and_iff_left rfl
    have hword : Text.trim (Text.stripAllStart choiceWord first) = first ↔
        ¬ choiceWord <+: first := by
      constructor
      · intro heq hprefix
        have hlt := Text.length_stripAllStart_lt (by decide) hprefix
        have hle := Text.length_trim_le (Text.stripAllStart choiceWord first)
        rw [heq] at hle
        exact absurd hlt (Nat.not_lt.2 hle)
      · intro hprefix
        rw [Text.stripAllStart_of_not_lead hprefix, hinline.trimmed]
    rw [hkept, hword]
    simp

theorem kept_ne_nil (h : (Kind.choice values).IsWritable) (s : Spelling) : s.kept values ≠ [] := by
  cases s with
  | group | word => exact ne_nil_of_isWritable h
  | bare =>
    obtain ⟨first, rest, rfl, hrest⟩ := exists_cons h
    obtain ⟨v, hv⟩ := List.exists_mem_of_ne_nil rest hrest
    have hne : v ≠ [] := (h.2 v (by simp [hv])).1
    exact List.ne_nil_of_mem (List.mem_filter.2 ⟨List.mem_cons_of_mem _ hv, decide_eq_true hne⟩)

/-- A choice with a remark is read as the kept values. -/
theorem read_write (h : (Kind.choice values).IsWritable) (s : Spelling) {remark : Text}
    (hremark : IsRemark remark) (mode : ParseMode) :
    Kind.read mode (s.write values ++ remark) = .ok (.choice (s.kept values)) := by
  rw [Kind.read, if_pos (List.mem_append_left _ (bar_mem_write h s)), choiceValues_write h s hremark]
  split
  · next hnil => exact absurd hnil (kept_ne_nil h s)
  · rfl

end Kind.Spelling

/-- **The values of a choice, however it is written.** A parameter with a valid name, a choice in any
of the three spellings and perhaps a note is read in both modes as a choice of the kept values, and
these are the values that were written, in their order, unless they stand alone and the first of
them starts with the word `choice`. -/
theorem Parameter.read_choice {name tail : Text} {values : List Text} (hname : IsName name)
    (hkept : Text.remove optionalMarker name ≠ []) (h : (Kind.choice values).IsWritable)
    (htail : IsNote tail) (s : Kind.Spelling) (mode : ParseMode) :
    let item := name ++ ':' :: ' ' :: (s.write values ++ tail)
    Parameter.read mode item =
      .ok (some ⟨Text.remove optionalMarker name, .choice (s.kept values),
        !Text.includes optionalMarker item⟩) ∧
    (s.kept values = values ↔
      (s = .bare → ∀ first ∈ values.head?, ¬ Kind.choiceWord <+: first)) := by
  intro item
  refine ⟨?_, Kind.Spelling.kept_eq_iff h s⟩
  have hread : IsName (Text.remove optionalMarker name) :=
    ⟨hkept, fun c hc => hname.noBlank c (Text.mem_of_mem_removeFrom hc),
      fun hc => hname.noColon (Text.mem_of_mem_removeFrom hc)⟩
  have hremove : Text.remove optionalMarker item = Text.remove optionalMarker name ++
      ':' :: ' ' :: (s.write values ++ Text.remove optionalMarker tail) := by
    have hspace : Text.remove optionalMarker (' ' :: (s.write values ++ tail)) =
        ' ' :: Text.remove optionalMarker (s.write values ++ tail) :=
      remove_marker_append (a := [' ']) (by decide)
    rw [Text.remove_append_cons (by decide) (by decide), hspace,
      Kind.Spelling.remove_marker_write h]
  have hplain : plainText item = Text.remove optionalMarker name ++
      ':' :: Text.trimEnd (' ' :: (s.write values ++ Text.remove optionalMarker tail)) := by
    rw [plainText, hremove, Text.trim, Text.trimStart_append_cons (by decide),
      Text.trimStart_of_trimmed hread.trim, Text.trimEnd_append_cons (by decide)]
  obtain ⟨rest, hrest, htype⟩ := Kind.Spelling.trim_write_append h s htail.remove_marker
  rw [read, hplain, Text.splitOnce_append_cons hread.noColon]
  simp only [hread.trim, readName_of_isName hread, Text.trim_trimEnd, htype,
    Kind.Spelling.read_write h s hrest]
  rfl

theorem Parameter.read_choice_sampleNoted :
    Parameter.read .strict "mode: fast|choices (default fast)" =
      .ok (some ⟨"mode", .choice ["fast", "choices"], true⟩) := by
  have hname : IsName "mode" := by decide
  have hkept : Text.remove optionalMarker "mode" ≠ [] := by decide
  have h : (Kind.choice ["fast", "choices"]).IsWritable := by decide
  have htail : IsNote " (default fast)" :=
    @IsNote.some [' '] "default fast" (List.forall_mem_singleton.2 rfl) (by decide) (by decide)
  obtain ⟨hread, hvalues⟩ := read_choice hname hkept h htail .bare .strict
  rw [hvalues.2 fun _ => by decide] at hread
  exact hread

/-- A first value that only begins like the word loses its beginning, though not in parentheses. -/
theorem Parameter.read_sampleChoices :
    Parameter.read .strict "mode: choices|b" = .ok (some ⟨"mode", .choice ["s", "b"], true⟩) ∧
      Parameter.read .strict "mode: (choices|b)" =
        .ok (some ⟨"mode", .choice ["choices", "b"], true⟩) := by
  decide +kernel

end ActionBundles
