import ActionBundles.Text.Basic
import Mathlib.Data.List.TakeWhile

/-!
# Trimmed texts, lines and pieces

What `Text.trim`, `Text.lines`, `Text.includes` and `Text.remove` come to on a text that was put
together from parts: blanks around a trimmed text go, lines that were ended come back, and a piece
that lacks a character never reaches across it.
-/

namespace ActionBundles.Text

/-! ### Trimming -/

theorem trimStart_append_of_blank {before : Text} (h : ∀ c ∈ before, isBlank c = true) (t : Text) :
    trimStart (before ++ t) = trimStart t :=
  List.dropWhile_append_of_pos h

theorem trimEnd_append_of_blank {after : Text} (h : ∀ c ∈ after, isBlank c = true) (t : Text) :
    trimEnd (t ++ after) = trimEnd t := by
  have hreverse : ∀ c ∈ after.reverse, isBlank c = true := fun c hc => h c (List.mem_reverse.1 hc)
  rw [trimEnd, List.reverse_append, List.dropWhile_append_of_pos hreverse, trimEnd]

theorem trimStart_of_head {c : Char} {t : Text} (h : isBlank c = false) :
    trimStart (c :: t) = c :: t := List.dropWhile_cons_of_neg (by simp [h])

theorem trimEnd_concat {c : Char} {t : Text} (h : isBlank c = false) :
    trimEnd (t ++ [c]) = t ++ [c] := by
  rw [trimEnd, List.reverse_append, List.reverse_singleton, List.singleton_append,
    List.dropWhile_cons_of_neg (by simp [h]), List.reverse_cons, List.reverse_reverse]

theorem trimEnd_prefix (t : Text) : trimEnd t <+: t := by
  have hsuffix : t.reverse.dropWhile isBlank <:+ t.reverse := List.dropWhile_suffix _
  have hprefix := List.reverse_prefix.2 hsuffix
  rwa [List.reverse_reverse] at hprefix

theorem isBlank_head_trimStart {t : Text} {c : Char} (h : (trimStart t).head? = some c) :
    isBlank c = false := by
  have hnot := List.head?_dropWhile_not isBlank t
  rw [show t.dropWhile isBlank = trimStart t from rfl, h] at hnot
  exact hnot

theorem isBlank_getLast_trimEnd {t : Text} {c : Char} (h : (trimEnd t).getLast? = some c) :
    isBlank c = false := by
  rw [trimEnd, List.getLast?_reverse] at h
  have hnot := List.head?_dropWhile_not isBlank t.reverse
  rw [h] at hnot
  exact hnot

/-- A trimmed text starts with no blank. -/
theorem isBlank_head_trim {t : Text} {c : Char} (h : (trim t).head? = some c) :
    isBlank c = false := by
  refine isBlank_head_trimStart (t := t) ?_
  obtain ⟨rest, hrest⟩ := trimEnd_prefix (trimStart t)
  rw [← hrest]
  cases hcut : trimEnd (trimStart t) with
  | nil => rw [trim, hcut] at h; cases h
  | cons d more => rw [trim, hcut] at h; exact h

/-- A trimmed text ends with no blank. -/
theorem isBlank_getLast_trim {t : Text} {c : Char} (h : (trim t).getLast? = some c) :
    isBlank c = false := isBlank_getLast_trimEnd h

/-- A text is trimmed if neither its first character nor its last one is a blank. -/
theorem trim_eq_self {t : Text} (hhead : ∀ c, t.head? = some c → isBlank c = false)
    (hlast : ∀ c, t.getLast? = some c → isBlank c = false) : trim t = t := by
  have hstart : trimStart t = t := by
    cases t with
    | nil => rfl
    | cons c rest => exact trimStart_of_head (hhead c rfl)
  rw [trim, hstart]
  rcases List.eq_nil_or_concat t with rfl | ⟨front, c, rfl⟩
  · rfl
  · rw [List.concat_eq_append] at hlast ⊢
    exact trimEnd_concat (hlast c List.getLast?_concat)

/-- What is trimmed of a text with blanks around it. -/
theorem trim_of_blanks {before after t : Text} (hbefore : ∀ c ∈ before, isBlank c = true)
    (hafter : ∀ c ∈ after, isBlank c = true) : trim (before ++ (t ++ after)) = trim t := by
  rw [trim, trimStart_append_of_blank hbefore]
  cases hcut : trimStart t with
  | nil =>
    have hblank : ∀ c ∈ t, isBlank c = true := List.dropWhile_eq_nil_iff.1 hcut
    have hall : ∀ c ∈ t ++ after, isBlank c = true := fun c hc =>
      (List.mem_append.1 hc).elim (hblank c) (hafter c)
    have hnil : trimStart (t ++ after) = [] := List.dropWhile_eq_nil_iff.2 hall
    rw [hnil, trim, hcut]
  | cons c rest =>
    have hne : ¬ (t.dropWhile isBlank).isEmpty = true := by
      rw [show t.dropWhile isBlank = c :: rest from hcut]
      simp
    rw [trimStart, List.dropWhile_append, if_neg hne, trimEnd_append_of_blank hafter]
    rfl

theorem trim_append_of_blank {after : Text} (h : ∀ c ∈ after, isBlank c = true) (t : Text) :
    trim (t ++ after) = trim t := by
  have hnone : ∀ c ∈ ([] : Text), isBlank c = true := by simp
  exact trim_of_blanks hnone h

theorem trim_space_cons {t : Text} (h : trim t = t) : trim (' ' :: t) = t := by
  have hspace : ∀ c ∈ ([' '] : Text), isBlank c = true := List.forall_mem_singleton.2 (by decide)
  have hnone : ∀ c ∈ ([] : Text), isBlank c = true := by simp
  have htrim := trim_of_blanks (t := t) hspace hnone
  rwa [List.append_nil, h] at htrim

theorem trimEnd_append_cons {a b : Text} {c : Char} (hc : isBlank c = false) :
    trimEnd (a ++ c :: b) = a ++ c :: trimEnd b := by
  rw [trimEnd, List.reverse_append, List.reverse_cons, List.append_assoc, List.dropWhile_append]
  split
  · next h =>
    have hb : trimEnd b = [] := by rw [trimEnd, List.isEmpty_iff.1 h, List.reverse_nil]
    rw [hb, List.singleton_append, List.dropWhile_cons_of_neg (by simp [hc]), List.reverse_cons,
      List.reverse_reverse]
  · simp [trimEnd]

theorem trimEnd_append_of_trimmed {t : Text} (hne : t ≠ []) (ht : trim t = t) (a : Text) :
    trimEnd (a ++ t) = a ++ t := by
  rcases List.eq_nil_or_concat t with rfl | ⟨front, c, rfl⟩
  · exact absurd rfl hne
  · rw [List.concat_eq_append] at ht ⊢
    have hlast : isBlank c = false := by
      refine isBlank_getLast_trim (t := front ++ [c]) ?_
      rw [ht, List.getLast?_concat]
    rw [← List.append_assoc, trimEnd_concat hlast]

theorem trimEnd_append (t : Text) :
    ∃ after, t = trimEnd t ++ after ∧ ∀ c ∈ after, isBlank c = true := by
  refine ⟨(t.reverse.takeWhile isBlank).reverse, ?_, fun c hc => ?_⟩
  · rw [trimEnd, ← List.reverse_append, List.takeWhile_append_dropWhile, List.reverse_reverse]
  · exact List.mem_takeWhile_imp (List.mem_reverse.1 hc)

theorem trim_trimEnd (t : Text) : trim (trimEnd t) = trim t := by
  obtain ⟨after, ht, hafter⟩ := trimEnd_append t
  rw [← trim_append_of_blank hafter (trimEnd t), ← ht]

/-! ### Lines -/

theorem closeLines_concat_nil (ls : List Text) : closeLines (ls ++ [[]]) = ls.map dropReturn := by
  induction ls with
  | nil => rfl
  | cons l ls ih =>
    cases ls with
    | nil => rfl
    | cons l' ls =>
      rw [List.cons_append, List.cons_append, closeLines, ← List.cons_append, ih]
      rfl

/-- A text of lines that are all ended. -/
def unlines (ls : List Text) : Text := ls.flatMap (· ++ ['\n'])

theorem unlines_cons (l : Text) (ls : List Text) :
    unlines (l :: ls) = l ++ '\n' :: unlines ls := by
  rw [unlines, List.flatMap_cons, List.append_assoc, List.singleton_append, unlines]

theorem splitOn_unlines_append {ls : List Text} (h : ∀ l ∈ ls, '\n' ∉ l) (t : Text) :
    (unlines ls ++ t).splitOn '\n' = ls ++ t.splitOn '\n' := by
  induction ls with
  | nil => rfl
  | cons l ls ih =>
    have hrest := ih fun l' hl' => h l' (by simp [hl'])
    have hl : l.splitOn '\n' = [l] := List.splitOn_eq_singleton (h l (by simp))
    rw [unlines_cons, List.append_assoc, List.cons_append, List.splitOn_append_cons_self, hl, hrest,
      List.singleton_append, List.cons_append]

theorem splitOn_unlines {ls : List Text} (h : ∀ l ∈ ls, '\n' ∉ l) :
    (unlines ls).splitOn '\n' = ls ++ [[]] := by
  rw [← List.append_nil (unlines ls), splitOn_unlines_append h, List.splitOn_nil]

/-- The lines of a text of ended lines, up to carriage returns before the ends. -/
theorem lines_unlines {ls : List Text} (h : ∀ l ∈ ls, '\n' ∉ l) :
    lines (unlines ls) = ls.map dropReturn := by
  rw [lines, splitOn_unlines h, closeLines_concat_nil]

theorem dropReturn_append (line : Text) :
    ∃ after, line = dropReturn line ++ after ∧ ∀ c ∈ after, isBlank c = true := by
  rw [dropReturn]
  split
  · next h =>
    have hne : line ≠ [] := by
      rintro rfl
      cases h
    have hlast : line.getLast hne = '\r' := by
      rw [List.getLast?_eq_some_getLast hne] at h
      exact Option.some.inj h
    refine ⟨['\r'], ?_, fun c hc => ?_⟩
    · rw [← hlast, List.dropLast_concat_getLast]
    · rw [List.mem_singleton.1 hc]
      decide
  · exact ⟨[], by simp, by simp⟩

theorem trim_dropReturn (line : Text) : trim (dropReturn line) = trim line := by
  obtain ⟨after, hline, hafter⟩ := dropReturn_append line
  rw [← trim_append_of_blank hafter (dropReturn line), ← hline]

/-! ### Joined texts -/

theorem mem_join {sep : Text} {ts : List Text} {c : Char} (h : c ∈ join sep ts) :
    c ∈ sep ∨ ∃ t ∈ ts, c ∈ t := by
  induction ts with
  | nil => cases h
  | cons t ts ih =>
    cases ts with
    | nil => exact .inr ⟨t, by simp, by simpa [join] using h⟩
    | cons t' ts =>
      rw [join, List.intercalate_cons_cons, List.mem_append, List.mem_append] at h
      rcases h with (h | h) | h
      · exact .inr ⟨t, by simp, h⟩
      · exact .inl h
      · rcases ih h with h | ⟨u, hu, hc⟩
        · exact .inl h
        · exact .inr ⟨u, by simp [hu], hc⟩

theorem mem_join_of_mem {sep : Text} {ts : List Text} {t : Text} {c : Char} (ht : t ∈ ts)
    (hc : c ∈ t) : c ∈ join sep ts := by
  induction ts with
  | nil => cases ht
  | cons u ts ih =>
    cases ts with
    | nil =>
      obtain rfl := List.mem_singleton.1 ht
      simpa [join] using hc
    | cons t' ts =>
      rw [join, List.intercalate_cons_cons, List.mem_append, List.mem_append]
      rcases List.mem_cons.1 ht with rfl | ht
      · exact .inl (.inl hc)
      · exact .inr (ih ht)

theorem mem_of_mem_splitOn {t piece : Text} {c sep : Char} (hp : piece ∈ t.splitOn sep)
    (hc : c ∈ piece) : c ∈ t := by
  have : c ∈ join [sep] (t.splitOn sep) := mem_join_of_mem hp hc
  rwa [join, List.intercalate_splitOn] at this

/-- No piece of a text that was cut holds the character that it was cut at. -/
theorem not_mem_of_mem_splitOn {t piece : Text} {sep : Char} (h : piece ∈ t.splitOn sep) :
    sep ∉ piece := by
  induction hlength : t.length using Nat.strongRecOn generalizing t with
  | _ length ih =>
    cases hcut : splitOnce sep t with
    | none =>
      have ht := splitOnce_eq_none_iff.1 hcut
      rw [List.splitOn_eq_singleton ht, List.mem_singleton] at h
      rwa [h]
    | some halves =>
      obtain ⟨before, after⟩ := halves
      obtain ⟨rfl, hbefore⟩ := splitOnce_eq_some_iff.1 hcut
      rw [List.splitOn_append_cons_self, List.splitOn_eq_singleton hbefore,
        List.singleton_append, List.mem_cons] at h
      rcases h with rfl | h
      · exact hbefore
      · refine ih after.length ?_ h rfl
        rw [← hlength, List.length_append, List.length_cons]
        omega

/-! ### Pieces -/

theorem includes_iff {piece t : Text} : includes piece t = true ↔ piece <:+: t := by
  induction t with
  | nil => rw [includes, List.isEmpty_iff, List.infix_nil]
  | cons c t ih => rw [includes, Bool.or_eq_true, ih, List.isPrefixOf_iff_prefix, List.infix_cons_iff]

/-- A piece that starts before a character which it lacks ends before it. -/
theorem prefix_of_prefix_append_cons {piece a b : Text} {c : Char} (hc : c ∉ piece)
    (h : piece <+: a ++ c :: b) : piece <+: a := by
  rcases List.prefix_or_prefix_of_prefix h (List.prefix_append a (c :: b)) with hp | hp
  · exact hp
  · obtain ⟨more, rfl⟩ := hp
    rw [List.prefix_append_right_inj] at h
    cases more with
    | nil => simp
    | cons d more =>
      obtain ⟨rfl, -⟩ := List.cons_prefix_cons.1 h
      exact absurd (by simp) hc

theorem infix_append_cons_iff {piece a b : Text} {c : Char} (hc : c ∉ piece) :
    piece <:+: a ++ c :: b ↔ piece <:+: a ∨ piece <:+: b := by
  constructor
  · intro h
    induction a with
    | nil =>
      rcases List.infix_cons_iff.1 h with hp | hi
      · exact .inl (prefix_of_prefix_append_cons (a := []) hc hp).isInfix
      · exact .inr hi
    | cons d a ih =>
      rcases List.infix_cons_iff.1 h with hp | hi
      · exact .inl (prefix_of_prefix_append_cons (a := d :: a) hc hp).isInfix
      · exact (ih hi).imp_left fun hi => List.infix_cons_iff.2 (.inr hi)
  · rintro (h | h)
    · exact h.trans (List.prefix_append a (c :: b)).isInfix
    · exact h.trans ((List.suffix_cons c b).trans (List.suffix_append a (c :: b))).isInfix

theorem not_infix_of_not_mem {piece t : Text} {c : Char} (hc : c ∈ piece) (ht : c ∉ t) :
    ¬ piece <:+: t := fun h => ht (h.subset hc)

theorem removeFrom_append_cons {piece a b : Text} {c : Char} (hc : c ∉ piece) (hne : piece ≠ [])
    {pending : Nat} (hp : pending ≤ a.length) :
    removeFrom piece pending (a ++ c :: b) =
      removeFrom piece pending a ++ c :: removeFrom piece 0 b := by
  induction a generalizing pending with
  | nil =>
    obtain rfl : pending = 0 := Nat.le_zero.1 hp
    have hnot : ¬ piece.isPrefixOf (c :: b) = true := fun h => by
      have hprefix := prefix_of_prefix_append_cons (a := []) hc (List.isPrefixOf_iff_prefix.1 h)
      exact hne (List.prefix_nil.1 hprefix)
    show (if piece.isPrefixOf (c :: b) = true then _ else c :: removeFrom piece 0 b) = _
    rw [if_neg hnot]
    rfl
  | cons d a ih =>
    cases pending with
    | succ pending => exact ih (Nat.le_of_succ_le_succ hp)
    | zero =>
      have hsame : piece.isPrefixOf (d :: (a ++ c :: b)) = true ↔
          piece.isPrefixOf (d :: a) = true := by
        rw [List.isPrefixOf_iff_prefix, List.isPrefixOf_iff_prefix]
        exact ⟨prefix_of_prefix_append_cons (a := d :: a) hc,
          fun h => h.trans (List.prefix_append (d :: a) (c :: b))⟩
      rw [List.cons_append, removeFrom, removeFrom]
      by_cases h : piece.isPrefixOf (d :: a) = true
      · have hlength := (List.isPrefixOf_iff_prefix.1 h).length_le
        rw [List.length_cons] at hlength
        rw [if_pos (hsame.2 h), if_pos h, ih (by omega)]
      · rw [if_neg fun h' => h (hsame.1 h'), if_neg h, ih (Nat.zero_le _), List.cons_append]

/-- A piece is removed on both sides of a character that it lacks. -/
theorem remove_append_cons {piece a b : Text} {c : Char} (hc : c ∉ piece) (hne : piece ≠ []) :
    remove piece (a ++ c :: b) = remove piece a ++ c :: remove piece b :=
  removeFrom_append_cons hc hne (Nat.zero_le _)

/-- Where a piece does not stand, nothing is removed. -/
theorem remove_eq_self {piece t : Text} (h : ¬ piece <:+: t) : remove piece t = t := by
  rw [remove]
  induction t with
  | nil => rfl
  | cons c t ih =>
    have hnot : ¬ piece.isPrefixOf (c :: t) = true := fun hp =>
      h (List.isPrefixOf_iff_prefix.1 hp).isInfix
    rw [removeFrom, if_neg hnot, ih fun hi => h (List.infix_cons_iff.2 (.inr hi))]

/-! ### Letters and digits of ASCII -/

theorem toNat_of_isLower {c : Char} (h : c.isLower = true) : 97 ≤ c.toNat ∧ c.toNat ≤ 122 := by
  change (decide (c.val ≥ 'a'.val) && decide (c.val ≤ 'z'.val)) = true at h
  simp only [Bool.and_eq_true, decide_eq_true_eq] at h
  exact ⟨UInt32.le_iff_toNat_le.1 h.1, UInt32.le_iff_toNat_le.1 h.2⟩

theorem toNat_of_isDigit {c : Char} (h : c.isDigit = true) : 48 ≤ c.toNat ∧ c.toNat ≤ 57 := by
  change (decide (c.val ≥ '0'.val) && decide (c.val ≤ '9'.val)) = true at h
  simp only [Bool.and_eq_true, decide_eq_true_eq] at h
  exact ⟨UInt32.le_iff_toNat_le.1 h.1, UInt32.le_iff_toNat_le.1 h.2⟩

end ActionBundles.Text
