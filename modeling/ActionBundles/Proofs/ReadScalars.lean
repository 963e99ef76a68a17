import ActionBundles.Proofs.Places
import ActionBundles.Proofs.WrittenDocuments
import ActionBundles.Yaml.Token

/-!
# Scalars are read back

A text without line feeds is written plainly, between single quotes or between double quotes. Each
of the three readers gives back the text that was written, and ends at the place after it: right
after the last quote, or, if the text stands plainly, after the gap that follows it in the document
(`AfterScalar`).
-/

namespace ActionBundles.Yaml

open Cursor

/-! ### Runs of characters -/

/-- The spaces at the start of a text apart. -/
theorem exists_eq_spaces (t : Text) :
    ∃ n u, t = List.replicate n ' ' ++ u ∧ ∀ c ∈ u.head?, c ≠ ' ' := by
  refine ⟨(t.takeWhile isSpace).length, t.dropWhile isSpace, ?_, fun c hc => ?_⟩
  · have hspaces : t.takeWhile isSpace = List.replicate (t.takeWhile isSpace).length ' ' :=
      List.eq_replicate_iff.2 ⟨rfl, fun c hc => by simpa [isSpace] using List.mem_takeWhile_imp hc⟩
    rw [← hspaces, List.takeWhile_append_dropWhile]
  · have hhead := List.head?_dropWhile_not isSpace t
    rw [Option.mem_def.1 hc] at hhead
    simpa [isSpace] using hhead

/-- The line breaks at the start of a text apart. -/
theorem exists_eq_breaks (t : Text) :
    ∃ bs u, t = bs ++ u ∧ (∀ b ∈ bs, isBreak b = true) ∧ ∀ c ∈ u.head?, isBreak c = false := by
  refine ⟨t.takeWhile isBreak, t.dropWhile isBreak, List.takeWhile_append_dropWhile.symm,
    fun b hb => List.mem_takeWhile_imp hb, fun c hc => ?_⟩
  have hhead := List.head?_dropWhile_not isBreak t
  rw [Option.mem_def.1 hc] at hhead
  simpa using hhead

theorem ne_tab_of_isPrintable {c : Char} (h : isPrintable c = true) : c ≠ '\t' := by
  rintro rfl
  exact absurd h (by decide)

theorem isBlank_of_isPrintable {c : Char} (h : isPrintable c = true) (hspace : c ≠ ' ') :
    isBlank c = false := by
  simp [isBlank, hspace, ne_tab_of_isPrintable h]

/-- The line breaks that are written as they are stand for themselves. -/
theorem isPlainBreak_of_isPrintable {c : Char} (h : isPrintable c = true) (hbreak : isBreak c = true) :
    isPlainBreak c = true := by
  simp only [isBreak, Bool.or_eq_true, decide_eq_true_eq] at hbreak
  rcases hbreak with (((rfl | rfl) | rfl) | rfl) | rfl
  · decide
  · exact absurd h (by decide)
  · exact absurd h (by decide)
  · decide
  · decide

namespace Token

/-! ### Between quotes -/

section Quoted

variable {double : Bool} {bound : Nat} {read : Text} {c : Cursor} {rest w : Text} {b : Char}

theorem isAtMarker_of_column (h : 0 < c.column) : c.isAtMarker = false := by
  simp [isAtMarker, Nat.ne_of_gt h]

/-- The quote that ends a text. -/
def quote (double : Bool) : Char := if double then '\"' else '\''

theorem quotedFrom?_end (hcolumn : 0 < c.column) (hc : c.rest = quote double :: rest)
    (hrest : double = false → rest.head? ≠ some '\'') :
    quotedFrom? double (bound + 1) read c = some (read.reverse, c.advance [quote double]) := by
  have hbreak : isBreak (quote double) = false := by cases double <;> decide
  rw [quotedFrom?, isAtMarker_of_column hcolumn, hc, advance_cons_of_noBreak hbreak, advance_nil]
  cases double
  · simp [quote, hrest rfl]
  · simp [quote]

theorem quotedFrom?_twice (hcolumn : 0 < c.column) (hc : c.rest = '\'' :: '\'' :: rest) :
    quotedFrom? false (bound + 1) read c =
      quotedFrom? false bound ('\'' :: read) (c.advance ['\'', '\'']) := by
  rw [quotedFrom?, isAtMarker_of_column hcolumn, hc, advance_of_noBreak (by simp [isBreak])]
  simp

theorem quotedFrom?_char (hcolumn : 0 < c.column) (hc : c.rest = b :: rest)
    (hquote : b ≠ quote double) (hescape : double = true → b ≠ '\\') (hblank : isBlank b = false)
    (hbreak : isBreak b = false) :
    quotedFrom? double (bound + 1) read c =
      quotedFrom? double bound (b :: read) (c.advance [b]) := by
  rw [quotedFrom?, isAtMarker_of_column hcolumn, hc, advance_cons_of_noBreak hbreak, advance_nil]
  cases double
  · have hquote' : b ≠ '\'' := hquote
    simp [hquote', hblank, hbreak]
  · have hquote' : b ≠ '\"' := hquote
    simp [hquote', hescape rfl, hblank, hbreak]

theorem quotedFrom?_gap (hcolumn : 0 < c.column) (hc : c.rest = w ++ rest) (hne : w ≠ [])
    (hw : ∀ d ∈ w, Gap.isPart d = true) (hrest : StartsWord rest) :
    quotedFrom? double (bound + 1) read c =
      quotedFrom? double bound ((w.foldl Gap.take {}).fold.reverse ++ read) (c.advance w) := by
  obtain ⟨d, w', rfl⟩ := List.exists_cons_of_ne_nil hne
  have hd := hw d List.mem_cons_self
  have hblank : (isBlank d || isBreak d) = true := by
    rw [Gap.isPart, Bool.or_eq_true, decide_eq_true_eq] at hd
    rcases hd with rfl | hd
    · decide
    · rw [isBreak_of_isPlainBreak hd, Bool.or_true]
  have hother : d ≠ '\"' ∧ d ≠ '\'' ∧ d ≠ '\\' := by
    refine ⟨?_, ?_, ?_⟩ <;> rintro rfl <;> exact absurd hblank (by decide)
  have hcons : c.rest = d :: (w' ++ rest) := hc
  rw [quotedFrom?, isAtMarker_of_column hcolumn, hcons]
  have hgap := gap?_eq_some 0 hw hrest hc
  cases double
  · simp [hother, hblank, hgap]
  · simp [hother, hblank, hgap]

theorem quotedFrom?_escape {e : Text} {char : Char} (hcolumn : 0 < c.column)
    (hc : c.rest = '\\' :: (e ++ rest)) (hne : e ≠ []) (he : ∀ d ∈ e, isBreak d = false)
    (hescape : escape? (e ++ rest) = some (char, e.length)) :
    quotedFrom? true (bound + 1) read c =
      quotedFrom? true bound (char :: read) (c.advance ('\\' :: e)) := by
  obtain ⟨d, e', rfl⟩ := List.exists_cons_of_ne_nil hne
  have hd : isBreak d = false := he d List.mem_cons_self
  have hadvance : c.advance ('\\' :: d :: e') = c.skip ((d :: e').length + 1) := by
    rw [advance_of_noBreak]
    · rfl
    · exact List.forall_mem_cons.2 ⟨by decide, he⟩
  rw [quotedFrom?, isAtMarker_of_column hcolumn, hc, hadvance]
  simp only [Bool.false_eq_true, ↓reduceIte, Bool.true_and, decide_true, List.cons_append,
    List.head?_cons, Option.any_some, hd]
  rw [← List.cons_append, hescape]
  simp

end Quoted

/-! ### Double quotes -/

theorem escape?_of_digits {letter : Char} {width n : Nat} {ds rest : Text}
    (hletter : escapes.lookup letter = none) (hwidth : escapeWidths.lookup letter = some width)
    (hlength : ds.length = width)
    (hdigits : (ds.mapM hexDigit?).map (fun ds => ds.foldl (fun n d => n * 16 + d) 0) = some n)
    (hvalid : n.isValidChar) :
    escape? (letter :: ds ++ rest) = some (Char.ofNat n, (letter :: ds).length) := by
  obtain ⟨values, hvalues, rfl⟩ := Option.map_eq_some_iff.1 hdigits
  have htake : (ds ++ rest).take width = ds := List.take_left' hlength
  have hlong : ¬ (ds ++ rest).length < width := by
    rw [List.length_append]
    omega
  rw [List.cons_append, escape?, hletter]
  dsimp only
  rw [hwidth]
  dsimp only
  rw [if_neg hlong, htake, hvalues, Option.bind_some, if_pos hvalid, List.length_cons, hlength]

/-- The characters that are written as a number. -/
theorem toNat_of_not_isPrintable {c : Char} (h : isPrintable c = false) :
    c.toNat < 160 ∨ c.toNat = 0xFEFF ∨ c.toNat = 0xFFFE ∨ c.toNat = 0xFFFF := by
  simp only [isPrintable, Bool.or_eq_false_iff, Bool.and_eq_false_iff, decide_eq_false_iff_not,
    not_not] at h
  rcases h.2 with ((hlow | hmark) | h) | h
  · refine .inl ?_
    have hle : ¬ '\u00a0'.toNat ≤ c.toNat := hlow
    exact Nat.lt_of_not_le hle
  · exact .inr (.inl (by rw [hmark]; rfl))
  · exact .inr (.inr (.inl h))
  · exact .inr (.inr (.inr h))

/-- After a backslash between double quotes, `e` stands for the character `c`. -/
structure EscapesTo (c : Char) (e : Text) : Prop where
  ne_nil : e ≠ []
  isBreak : ∀ d ∈ e, isBreak d = false
  length_le : e.length ≤ 5
  read : ∀ rest, escape? (e ++ rest) = some (c, e.length)

/-- A short escape stands for its character. -/
theorem escapesTo_of_shortEscape {c letter : Char} (h : shortEscapes.lookup c = some letter) :
    EscapesTo c [letter] := by
  have hshort : ∀ e ∈ shortEscapes, escapes.lookup e.2 = some e.1 ∧ isBreak e.2 = false := by
    decide
  obtain ⟨before, after, hsplit, -⟩ := List.lookup_eq_some_iff.1 h
  obtain ⟨hback, hbreak⟩ := hshort (c, letter) (by rw [hsplit]; simp)
  refine ⟨by simp, by simpa using hbreak, by simp, fun rest => ?_⟩
  rw [List.singleton_append, escape?, hback]
  rfl

/-- An escape with the number of a character stands for it. -/
theorem escapesTo_of_digits {c letter : Char} {width : Nat} {ds : Text}
    (hletter : escapes.lookup letter = none) (hwidth : escapeWidths.lookup letter = some width)
    (hsmall : width ≤ 4) (hbreak : isBreak letter = false) (hlength : ds.length = width)
    (hdigits : (ds.mapM hexDigit?).map (fun ds => ds.foldl (fun n d => n * 16 + d) 0) =
      some c.toNat)
    (halphanum : ∀ d ∈ ds, d.isAlphanum = true) : EscapesTo c (letter :: ds) where
  ne_nil := List.cons_ne_nil letter ds
  isBreak := List.forall_mem_cons.2 ⟨hbreak, fun d hd => by
    have hd := halphanum d hd
    by_contra hbreak
    rw [Bool.not_eq_false, isBreak] at hbreak
    simp only [Bool.or_eq_true, decide_eq_true_eq] at hbreak
    rcases hbreak with (((rfl | rfl) | rfl) | rfl) | rfl <;> exact absurd hd (by decide)⟩
  length_le := by
    rw [List.length_cons]
    omega
  read rest := by
    rw [escape?_of_digits hletter hwidth hlength hdigits c.valid, Char.ofNat_toNat]

/-- A character that is not printable is written as a number that stands for it. -/
theorem escapesTo_of_not_isPrintable {c : Char} (h : isPrintable c = false) :
    EscapesTo c (if c.toNat ≤ 0xFF then 'x' :: hex 2 c.toNat
      else if c.toNat ≤ 0xFFFF then 'u' :: hex 4 c.toNat
      else 'U' :: hex 8 c.toNat) := by
  have hlow : ∀ n < 160, (hex 2 n).length = 2 ∧
      ((hex 2 n).mapM hexDigit?).map (fun ds => ds.foldl (fun n d => n * 16 + d) 0) = some n := by
    decide +kernel
  have hhigh : ∀ n ∈ [0xFEFF, 0xFFFE, 0xFFFF], (hex 4 n).length = 4 ∧
      ((hex 4 n).mapM hexDigit?).map (fun ds => ds.foldl (fun n d => n * 16 + d) 0) = some n := by
    decide
  have halphanum : ∀ width, ∀ d ∈ hex width c.toNat, d.isAlphanum = true := fun width d hd =>
    isAlphanum_of_mem_hex hd
  rcases toNat_of_not_isPrintable h with h | h
  · rw [if_pos (by omega)]
    obtain ⟨hlength, hdigits⟩ := hlow c.toNat h
    exact escapesTo_of_digits rfl (by decide) (by decide) (by decide) hlength hdigits (halphanum 2)
  · rw [if_neg (by omega), if_pos (by omega)]
    obtain ⟨hlength, hdigits⟩ := hhigh c.toNat (by
      simp only [List.mem_cons, List.not_mem_nil, or_false]
      exact h)
    exact escapesTo_of_digits rfl (by decide) (by decide) (by decide) hlength hdigits (halphanum 4)

/-- How a character that is no blank is written between double quotes: as it is, or as an escape
that stands for it. -/
theorem doubleQuotedChar_cases (c : Char) :
    (doubleQuotedChar c = [c] ∧ isPrintable c = true ∧ isBreak c = false ∧ c ≠ '\"' ∧ c ≠ '\\') ∨
      ∃ e, doubleQuotedChar c = '\\' :: e ∧ EscapesTo c e := by
  rw [doubleQuotedChar]
  split
  · next hplain =>
    simp only [Bool.and_eq_true, Bool.not_eq_true', decide_eq_true_eq] at hplain
    exact .inl ⟨rfl, hplain.1.1.1, hplain.1.1.2, hplain.1.2, hplain.2⟩
  next hescaped =>
  refine .inr ⟨_, rfl, ?_⟩
  split
  · next letter hletter => exact escapesTo_of_shortEscape hletter
  next hnone =>
  -- all characters that are printable have a short escape, if they are escaped at all
  have hlisted : ∀ d ∈ shortEscapes.map Prod.fst, c ≠ d := by
    rintro d hd rfl
    rw [List.lookup_eq_none_iff] at hnone
    obtain ⟨e, he, rfl⟩ := List.mem_map.1 hd
    simpa using hnone e he
  have hbreak : isBreak c = false := by
    have hbreaks : ∀ d ∈ ['\n', '\r', '\u0085', '\u2028', '\u2029'],
        d ∈ shortEscapes.map Prod.fst := by simp [shortEscapes]
    simp only [isBreak, Bool.or_eq_false_iff, decide_eq_false_iff_not]
    exact ⟨⟨⟨⟨hlisted _ (hbreaks _ (by simp)), hlisted _ (hbreaks _ (by simp))⟩,
      hlisted _ (hbreaks _ (by simp))⟩, hlisted _ (hbreaks _ (by simp))⟩,
      hlisted _ (hbreaks _ (by simp))⟩
  have hquote : c ≠ '\"' := hlisted _ (by decide)
  have hslash : c ≠ '\\' := hlisted _ (by decide)
  exact escapesTo_of_not_isPrintable (by simpa [hbreak, hquote, hslash] using hescaped)

theorem isBreak_of_mem_doubleQuoted {t : Text} {b : Char} (h : b ∈ t.flatMap doubleQuotedChar) :
    isBreak b = false := by
  obtain ⟨c, -, hb⟩ := List.mem_flatMap.1 h
  rcases doubleQuotedChar_cases c with ⟨hc, -, hbreak, -⟩ | ⟨e, hc, he⟩
  · rw [hc, List.mem_singleton] at hb
    exact hb ▸ hbreak
  · rw [hc] at hb
    rcases List.mem_cons.1 hb with rfl | hb
    · decide
    · exact he.isBreak b hb

theorem length_doubleQuotedChar_le (c : Char) :
    1 ≤ (doubleQuotedChar c).length ∧ (doubleQuotedChar c).length ≤ 6 := by
  rcases doubleQuotedChar_cases c with ⟨hc, -⟩ | ⟨e, hc, he⟩
  · simp [hc]
  · have hlength := he.length_le
    rw [hc, List.length_cons]
    omega

theorem length_le_doubleQuoted (t : Text) : t.length ≤ (t.flatMap doubleQuotedChar).length := by
  induction t with
  | nil => simp
  | cons c t ih =>
    have hc := (length_doubleQuotedChar_le c).1
    rw [List.flatMap_cons, List.length_append, List.length_cons]
    omega

theorem length_doubleQuoted_le (t : Text) : (t.flatMap doubleQuotedChar).length ≤ 6 * t.length := by
  induction t with
  | nil => simp
  | cons c t ih =>
    have hc := (length_doubleQuotedChar_le c).2
    rw [List.flatMap_cons, List.length_append, List.length_cons]
    omega

theorem startsWord_doubleQuoted {t : Text} (h : ∀ c ∈ t.head?, c ≠ ' ') (rest : Text) :
    StartsWord (t.flatMap doubleQuotedChar ++ '\"' :: rest) := by
  cases t with
  | nil => exact startsWord_cons.2 (by decide)
  | cons c t =>
    rw [List.flatMap_cons, List.append_assoc]
    rcases doubleQuotedChar_cases c with ⟨hc, hprintable, hbreak, -⟩ | ⟨e, hc, -⟩
    · rw [hc]
      exact startsWord_cons.2 ⟨isBlank_of_isPrintable hprintable (h c rfl), hbreak⟩
    · rw [hc]
      exact startsWord_cons.2 (by decide)

theorem column_advance_pos {c : Cursor} {w : Text} (h : 0 < c.column)
    (hw : ∀ b ∈ w, isBreak b = false) : 0 < (c.advance w).column := by
  rw [advance_of_noBreak hw, column_skip]
  exact Nat.lt_add_right _ h

theorem quotedFrom?_double {t rest read : Text} {bound : Nat} {c : Cursor} (hcolumn : 0 < c.column)
    (hc : c.rest = t.flatMap doubleQuotedChar ++ '\"' :: rest) (hbound : t.length < bound) :
    quotedFrom? true bound read c =
      some (read.reverse ++ t, c.advance (t.flatMap doubleQuotedChar ++ ['\"'])) := by
  -- on the length of the text: a run of spaces is read at once
  induction hlength : t.length using Nat.strongRecOn generalizing t read bound c with
  | _ length ih =>
  subst hlength
  obtain ⟨bound, rfl⟩ : ∃ k, bound = k + 1 := ⟨bound - 1, by omega⟩
  obtain ⟨n, u, rfl, hu⟩ := exists_eq_spaces t
  rcases Nat.eq_zero_or_pos n with rfl | hn
  · rw [List.replicate_zero, List.nil_append] at hc hbound ih ⊢
    cases u with
    | nil =>
      rw [List.append_nil]
      exact quotedFrom?_end hcolumn hc fun h => absurd h (by decide)
    | cons d u =>
      rw [List.flatMap_cons, List.append_assoc] at hc
      have hnext : ∀ {w : Text}, doubleQuotedChar d = w → (∀ b ∈ w, isBreak b = false) →
          quotedFrom? true bound (d :: read) (c.advance w) = some (read.reverse ++ d :: u,
            c.advance ((d :: u).flatMap doubleQuotedChar ++ ['\"'])) := by
        rintro w rfl hw
        rw [ih u.length (by simp) (column_advance_pos hcolumn hw) (rest_advance hc)
          (by rw [List.length_cons] at hbound; omega) rfl, ← advance_append, List.flatMap_cons,
          List.append_assoc]
        simp
      rcases doubleQuotedChar_cases d with ⟨hd, hprintable, hbreak, hquote, hslash⟩ |
        ⟨e, hd, he⟩
      · rw [hd] at hc
        have hend : d ≠ quote true := hquote
        rw [quotedFrom?_char hcolumn hc hend (fun _ => hslash)
          (isBlank_of_isPrintable hprintable (hu d rfl)) hbreak]
        exact hnext hd (by simpa using hbreak)
      · rw [hd, List.cons_append] at hc
        rw [quotedFrom?_escape hcolumn hc he.ne_nil he.isBreak (he.read _)]
        exact hnext hd (List.forall_mem_cons.2 ⟨by decide, he.isBreak⟩)
  · have hspace : doubleQuotedChar ' ' = [' '] := by decide
    have hspaces : (List.replicate n ' ').flatMap doubleQuotedChar = List.replicate n ' ' := by
      rw [List.flatMap_replicate, hspace]
      simp
    have hpart : ∀ b ∈ List.replicate n ' ', Gap.isPart b = true := fun b hb => by
      rw [List.eq_of_mem_replicate hb]
      decide
    have hbreak : ∀ b ∈ List.replicate n ' ', isBreak b = false := fun b hb => by
      rw [List.eq_of_mem_replicate hb]
      decide
    rw [List.flatMap_append, hspaces] at hc ⊢
    rw [List.append_assoc] at hc
    have hne : List.replicate n ' ' ≠ [] := by simpa using Nat.ne_of_gt hn
    rw [quotedFrom?_gap hcolumn hc hne hpart (startsWord_doubleQuoted hu rest), Gap.fold_spaces,
      ih u.length (by simpa using hn) (column_advance_pos hcolumn hbreak) (rest_advance hc)
        (by rw [List.length_append, List.length_replicate] at hbound; omega) rfl, ← advance_append]
    simp

/-! ### Single quotes -/

/-- What is known of a text between single quotes. -/
structure IsSingleQuoted (t : Text) : Prop where
  noLineFeed : '\n' ∉ t
  printable : ∀ c ∈ t, isPrintable c = true
  noSpaceBeforeBreak : holdsPair isSpace isBreak t = false
  noSpaceAfterBreak : holdsPair isBreak isSpace t = false

theorem isSingleQuoted_of_styleOf {t : Text} (h : styleOf t = .singleQuoted) : IsSingleQuoted t := by
  rw [styleOf] at h
  split at h
  · cases h
  next hprintable =>
  split at h
  · split at h <;> cases h
  next hfeed =>
  split at h
  · cases h
  next hbreak =>
  simp only [Bool.or_eq_true, List.any_eq_true, not_or, not_exists, not_and,
    Bool.not_eq_true] at hprintable
  exact ⟨hfeed, fun c hc => by simpa using hprintable.1 c hc, hprintable.2, by simpa using hbreak⟩

section Pairs

variable {p q : Char → Bool} {s t : Text} {c d : Char}

theorem holdsPair_append_right (h : holdsPair p q (s ++ t) = false) : holdsPair p q t = false := by
  induction s with
  | nil => exact h
  | cons c s ih =>
    refine ih ?_
    cases hrest : s ++ t with
    | nil => rfl
    | cons d rest =>
      rw [List.cons_append, hrest, holdsPair, Bool.or_eq_false_iff] at h
      exact h.2

theorem not_pair (h : holdsPair p q (s ++ c :: d :: t) = false) (hp : p c = true) :
    q d = false := by
  have hpair := holdsPair_append_right h
  rw [holdsPair, Bool.or_eq_false_iff, hp, Bool.true_and] at hpair
  exact hpair.1

theorem IsSingleQuoted.append_right (h : IsSingleQuoted (s ++ t)) : IsSingleQuoted t where
  noLineFeed hc := h.noLineFeed (List.mem_append_right s hc)
  printable c hc := h.printable c (List.mem_append_right s hc)
  noSpaceBeforeBreak := holdsPair_append_right h.noSpaceBeforeBreak
  noSpaceAfterBreak := holdsPair_append_right h.noSpaceAfterBreak

/-- What follows a run does not make a pair with the last of it. -/
theorem not_pair_of_run (h : holdsPair p q (s ++ t) = false) (hne : s ≠ [])
    (hs : ∀ c ∈ s, p c = true) : ∀ d ∈ t.head?, q d = false := by
  intro d hd
  obtain ⟨front, c, rfl⟩ := List.eq_nil_or_concat s |>.resolve_left hne
  cases t with
  | nil => cases hd
  | cons e t =>
    cases hd
    rw [List.concat_eq_append, List.append_assoc, List.singleton_append] at h
    exact not_pair h (hs c (by simp))

end Pairs

variable {indent : Nat} {t u rest : Text}

theorem singleQuotedFrom_noBreak (hs : ∀ c ∈ t, isBreak c = false ∧ c ≠ '\'') (u : Text) :
    singleQuotedFrom indent false (t ++ u) = t ++ singleQuotedFrom indent false u := by
  induction t with
  | nil => rfl
  | cons c t ih =>
    obtain ⟨hbreak, hquote⟩ := hs c List.mem_cons_self
    rw [List.cons_append, singleQuotedFrom, if_neg (by simp [hbreak]), if_neg (by simp),
      if_neg hquote, ih fun d hd => hs d (List.mem_cons_of_mem c hd)]
    rfl

theorem singleQuotedFrom_breaks {bs : Text} (hbs : ∀ b ∈ bs, isBreak b = true)
    (hu : ∀ c ∈ u.head?, isBreak c = false) :
    singleQuotedFrom indent true (bs ++ u) =
      bs ++ margin indent ++ singleQuotedFrom indent false u := by
  induction bs with
  | nil =>
    cases u with
    | nil => simp [singleQuotedFrom]
    | cons c u => simp [singleQuotedFrom, hu c rfl]
  | cons b bs ih =>
    rw [List.cons_append, singleQuotedFrom, if_pos (hbs b List.mem_cons_self),
      ih fun d hd => hbs d (List.mem_cons_of_mem b hd)]
    rfl

theorem length_le_singleQuotedFrom (indent : Nat) (afterBreak : Bool) (t : Text) :
    t.length ≤ (singleQuotedFrom indent afterBreak t).length := by
  induction t generalizing afterBreak with
  | nil => simp
  | cons c t ih =>
    rw [singleQuotedFrom]
    split
    · exact Nat.succ_le_succ (ih true)
    · have hrest := ih false
      have hc : 1 ≤ (if c = '\'' then ['\'', '\''] else [c]).length := by split <;> simp
      rw [List.length_append, List.length_append, List.length_cons]
      omega

theorem length_singleQuotedFrom_le (indent : Nat) (h : ∀ c ∈ t, isBreak c = false) :
    (singleQuotedFrom indent false t).length ≤ 2 * t.length := by
  induction t with
  | nil => simp [singleQuotedFrom]
  | cons c t ih =>
    have hrest := ih fun d hd => h d (List.mem_cons_of_mem c hd)
    have hc : (if c = '\'' then ['\'', '\''] else [c]).length ≤ 2 := by split <;> simp
    rw [singleQuotedFrom, if_neg (by simp [h c List.mem_cons_self]), if_neg (by simp),
      List.nil_append, List.length_append, List.length_cons]
    omega

/-- Between single quotes a word starts where no run of spaces or line breaks goes on. -/
theorem startsWord_singleQuoted (h : ∀ c ∈ u.head?, isBlank c = false ∧ isBreak c = false)
    (rest : Text) : StartsWord (singleQuotedFrom indent false u ++ '\'' :: rest) := by
  cases u with
  | nil => exact startsWord_cons.2 (by decide)
  | cons c u =>
    obtain ⟨hblank, hbreak⟩ := h c rfl
    rw [singleQuotedFrom, if_neg (by simp [hbreak]), if_neg (by simp), List.nil_append]
    split
    · exact startsWord_cons.2 (by decide)
    · exact startsWord_cons.2 ⟨hblank, hbreak⟩

/-- A run `s` of characters before `u`, written between single quotes at the place `c`, is read in one
step. -/
def ReadsRun (indent : Nat) (c : Cursor) (s u rest : Text) : Prop :=
  ∃ w, singleQuotedFrom indent false (s ++ u) = w ++ singleQuotedFrom indent false u ∧
    0 < (c.advance w).column ∧
    (c.rest = w ++ (singleQuotedFrom indent false u ++ '\'' :: rest) →
      ∀ bound read, quotedFrom? false (bound + 1) read c =
        quotedFrom? false bound (s.reverse ++ read) (c.advance w))

variable {c : Cursor} {s : Text} {d : Char}

theorem readsRun_breaks (ht : IsSingleQuoted (s ++ u)) (hindent : 0 < indent)
    (hcolumn : 0 < c.column) (hne : s ≠ []) (hs : ∀ b ∈ s, isBreak b = true)
    (hu : ∀ c ∈ u.head?, isBreak c = false) : ReadsRun indent c s u rest := by
  have hspace : ∀ c ∈ u.head?, isSpace c = false := not_pair_of_run ht.noSpaceAfterBreak hne hs
  have hstarts : ∀ c ∈ u.head?, isBlank c = false ∧ isBreak c = false := fun c hc =>
    ⟨isBlank_of_isPrintable (ht.printable c (List.mem_append_right s (List.mem_of_mem_head? hc)))
      (by simpa [isSpace] using hspace c hc), hu c hc⟩
  have hmargin : ∀ b ∈ margin indent, b = ' ' := fun b hb => List.eq_of_mem_replicate hb
  have hpart : ∀ b ∈ s ++ margin indent, Gap.isPart b = true := fun b hb => by
    rcases List.mem_append.1 hb with hb | hb
    · rw [Gap.isPart, isPlainBreak_of_isPrintable (ht.printable b (List.mem_append_left u hb)) (hs b hb),
        Bool.or_true]
    · rw [hmargin b hb]
      decide
  obtain ⟨b, bs, rfl⟩ := List.exists_cons_of_ne_nil hne
  have hbs : ∀ b' ∈ bs, isBreak b' = true := fun b' hb' => hs b' (List.mem_cons_of_mem b hb')
  have hfeed : b ≠ '\n' := by
    rintro rfl
    exact ht.noLineFeed List.mem_cons_self
  refine ⟨b :: bs ++ margin indent, ?_, ?_, fun hc bound read => ?_⟩
  · rw [List.cons_append, singleQuotedFrom, if_pos (hs b List.mem_cons_self),
      singleQuotedFrom_breaks hbs hu]
    rfl
  · rw [column_advance_breaks hne hs fun b hb => by rw [hmargin b hb]; decide]
    simpa [margin] using hindent
  · rw [quotedFrom?_gap hcolumn hc (by simp) hpart (startsWord_singleQuoted hstarts rest), margin,
      Gap.fold_breaks (hs b List.mem_cons_self) hbs hfeed]

theorem readsRun_spaces (ht : IsSingleQuoted (s ++ u)) (hcolumn : 0 < c.column) (hne : s ≠ [])
    (hs : ∀ b ∈ s, b = ' ') (hu : ∀ c ∈ u.head?, c ≠ ' ') : ReadsRun indent c s u rest := by
  have hbreak : ∀ b ∈ s, isBreak b = false := fun b hb => by
    rw [hs b hb]
    decide
  have hafter : ∀ c ∈ u.head?, isBreak c = false :=
    not_pair_of_run ht.noSpaceBeforeBreak hne fun b hb => by
      rw [hs b hb]
      decide
  have hstarts : ∀ c ∈ u.head?, isBlank c = false ∧ isBreak c = false := fun c hc =>
    ⟨isBlank_of_isPrintable (ht.printable c (List.mem_append_right s (List.mem_of_mem_head? hc)))
      (hu c hc), hafter c hc⟩
  refine ⟨s, singleQuotedFrom_noBreak (fun b hb => ⟨hbreak b hb, by rw [hs b hb]; decide⟩) u,
    column_advance_pos hcolumn hbreak, fun hc bound read => ?_⟩
  rw [quotedFrom?_gap hcolumn hc hne (fun b hb => by rw [hs b hb]; decide)
    (startsWord_singleQuoted hstarts rest), List.eq_replicate_iff.2 ⟨rfl, hs⟩, Gap.fold_spaces]

theorem readsRun_quote (hcolumn : 0 < c.column) : ReadsRun indent c ['\''] u rest :=
  ⟨['\'', '\''], rfl, column_advance_pos hcolumn (by simp [isBreak]), fun hc _ _ =>
    quotedFrom?_twice hcolumn hc⟩

theorem readsRun_char (hcolumn : 0 < c.column) (hquote : d ≠ '\'') (hblank : isBlank d = false)
    (hbreak : isBreak d = false) : ReadsRun indent c [d] u rest :=
  ⟨[d], singleQuotedFrom_noBreak (by simpa using ⟨hbreak, hquote⟩) u,
    column_advance_pos hcolumn (by simpa using hbreak), fun hc _ _ =>
    quotedFrom?_char hcolumn hc hquote (fun h => absurd h (by decide)) hblank hbreak⟩

/-- Each text between single quotes that is not empty starts with a run. -/
theorem exists_readsRun (ht : IsSingleQuoted t) (hindent : 0 < indent) (hcolumn : 0 < c.column)
    (hne : t ≠ []) : ∃ s u, t = s ++ u ∧ s ≠ [] ∧ ReadsRun indent c s u rest := by
  obtain ⟨bs, u, rfl, hbs, hu⟩ := exists_eq_breaks t
  by_cases hbreaks : bs = []
  · subst hbreaks
    rw [List.nil_append] at ht hne ⊢
    obtain ⟨n, v, rfl, hv⟩ := exists_eq_spaces u
    rcases Nat.eq_zero_or_pos n with rfl | hn
    · rw [List.replicate_zero, List.nil_append] at ht hne hu ⊢
      obtain ⟨d, v, rfl⟩ := List.exists_cons_of_ne_nil hne
      refine ⟨[d], v, rfl, List.cons_ne_nil d [], ?_⟩
      by_cases hquote : d = '\''
      · exact hquote ▸ readsRun_quote hcolumn
      · exact readsRun_char hcolumn hquote
          (isBlank_of_isPrintable (ht.printable d List.mem_cons_self) (hv d rfl)) (hu d rfl)
    · have hspaces : List.replicate n ' ' ≠ [] := by simpa using Nat.ne_of_gt hn
      exact ⟨_, v, rfl, hspaces, readsRun_spaces ht hcolumn hspaces
        (fun b hb => List.eq_of_mem_replicate hb) hv⟩
  · exact ⟨bs, u, rfl, hbreaks, readsRun_breaks ht hindent hcolumn hbreaks hbs hu⟩

theorem quotedFrom?_single {read : Text} {bound : Nat} (ht : IsSingleQuoted t) (hindent : 0 < indent)
    (hcolumn : 0 < c.column) (hc : c.rest = singleQuotedFrom indent false t ++ '\'' :: rest)
    (hrest : rest.head? ≠ some '\'') (hbound : t.length < bound) :
    quotedFrom? false bound read c =
      some (read.reverse ++ t, c.advance (singleQuotedFrom indent false t ++ ['\''])) := by
  -- on the length of the text: a run is read at once
  induction hlength : t.length using Nat.strongRecOn generalizing t read bound c with
  | _ length ih =>
  subst hlength
  obtain ⟨bound, rfl⟩ : ∃ k, bound = k + 1 := ⟨bound - 1, by omega⟩
  by_cases hne : t = []
  · subst hne
    rw [List.append_nil]
    exact quotedFrom?_end hcolumn hc fun _ => hrest
  obtain ⟨s, u, rfl, hs, w, hwritten, hcolumn', hread⟩ := exists_readsRun ht hindent hcolumn hne
  have hpos := List.length_pos_of_ne_nil hs
  rw [hwritten, List.append_assoc] at hc
  rw [List.length_append] at hbound ih
  rw [hread hc, ih u.length (by omega) ht.append_right hcolumn' (rest_advance hc) (by omega) rfl,
    hwritten, List.append_assoc, advance_append _ w]
  simp

/-! ### Plain texts -/

/-- What may follow a scalar, the gap that is read together with it if it is plain, and whether there
is a line break in that gap: nothing, the colon after a key, or a line to the left of `indent`. -/
inductive AfterScalar (indent : Nat) : Text → Text → Bool → Prop
  | nothing : AfterScalar indent [] [] false
  | colon {rest : Text} (h : endsWord rest.head? = true) : AfterScalar indent (':' :: rest) [] false
  | line {column : Nat} {rest : Text} (h : column < indent) (hrest : StartsToken rest) :
      AfterScalar indent ('\n' :: (margin column ++ rest)) ('\n' :: margin column) true

/-- Words with spaces between them that can be told from other parts of a document. -/
structure IsPhrase (t : Text) : Prop where
  ne_nil : t ≠ []
  printable : ∀ c ∈ t, isPrintable c = true
  noBreak : ∀ c ∈ t, isBreak c = false
  first : ∀ c ∈ t.head?, c ≠ ' '
  last : ∀ c ∈ t.getLast?, c ≠ ' '
  noIndicator : holdsIndicatorAfter ' ' t = false

theorem isPhrase_of_isPlain {t : Text} (h : IsPlain t) : IsPhrase t where
  ne_nil := h.ne_nil
  printable := h.printable
  noBreak := h.noBreak
  first c hc := by
    rintro rfl
    have hloose := h.noLooseEnd
    rw [hasLooseEnd, Option.mem_def.1 hc] at hloose
    exact absurd hloose (by simp [isSpace])
  last c hc := by
    rintro rfl
    have hloose := h.noLooseEnd
    rw [hasLooseEnd, Option.mem_def.1 hc] at hloose
    exact absurd hloose (by simp [isSpace])
  noIndicator := by
    cases t with
    | nil => exact absurd rfl h.ne_nil
    | cons c rest =>
      have hindicator := h.noIndicator
      rw [holdsIndicator, Bool.or_eq_false_iff, startsWithIndicator] at hindicator
      obtain ⟨hstart, hrest⟩ := hindicator
      simp only [Bool.or_eq_false_iff, decide_eq_false_iff_not] at hstart
      have hsign : c ≠ '#' := by
        rintro rfl
        exact hstart.1.1.1 (by decide)
      rw [holdsIndicatorAfter, hrest, Bool.or_false, Bool.or_eq_false_iff]
      refine ⟨?_, by simp [hsign]⟩
      have hcolon := hstart.1.1.2
      cases hword : endsWord rest.head? with
      | false => rw [Bool.and_false]
      | true =>
        rw [hword, Bool.and_true, Bool.or_eq_false_iff, Bool.or_eq_false_iff] at hcolon
        rw [Bool.and_true]
        exact hcolon.1.2

theorem IsPhrase.startsToken {t : Text} (h : IsPhrase t) (rest : Text) : StartsToken (t ++ rest) := by
  obtain ⟨c, t, rfl⟩ := List.exists_cons_of_ne_nil h.ne_nil
  refine startsToken_cons (isBlank_of_isPrintable (h.printable c List.mem_cons_self) (h.first c rfl))
    (h.noBreak c List.mem_cons_self) ?_
  rintro rfl
  have hindicator := h.noIndicator
  rw [holdsIndicatorAfter] at hindicator
  exact absurd hindicator (by simp [endsWord])

section Plain

variable {t u v w tail gap : Text} {c : Char} {before : Char}

theorem holdsIndicatorAfter_append_right (h : holdsIndicatorAfter before (w ++ c :: u) = false) :
    holdsIndicatorAfter c u = false := by
  induction w generalizing before with
  | nil =>
    rw [List.nil_append, holdsIndicatorAfter, Bool.or_eq_false_iff] at h
    exact h.2
  | cons d w ih =>
    rw [List.cons_append, holdsIndicatorAfter, Bool.or_eq_false_iff] at h
    exact ih h.2

/-- The words of a phrase are read one by one. -/
theorem IsPhrase.exists_word (h : IsPhrase t) :
    ∃ w, w ≠ [] ∧ (∀ c ∈ w, c ≠ ' ') ∧
      (t = w ∨ ∃ n u, t = w ++ (List.replicate (n + 1) ' ' ++ u) ∧ IsPhrase u) := by
  obtain ⟨c, rest, rfl⟩ := List.exists_cons_of_ne_nil h.ne_nil
  have hsplit : (c :: rest).takeWhile (!isSpace ·) ++ (c :: rest).dropWhile (!isSpace ·) =
      c :: rest := List.takeWhile_append_dropWhile
  have hc : isSpace c = false := by simpa [isSpace] using h.first c rfl
  refine ⟨(c :: rest).takeWhile (!isSpace ·), ?_, fun d hd => ?_, ?_⟩
  · simp [hc]
  · simpa [isSpace] using List.mem_takeWhile_imp hd
  · obtain ⟨n, u, hv, hu⟩ := exists_eq_spaces ((c :: rest).dropWhile (!isSpace ·))
    rw [hv] at hsplit
    cases n with
    | zero =>
      -- what is left starts with a space, unless nothing is
      have hnil : u = [] := by
        cases u with
        | nil => rfl
        | cons d u =>
          have hhead := List.head?_dropWhile_not (!isSpace ·) (c :: rest)
          rw [hv] at hhead
          exact absurd hhead (by simpa [isSpace] using hu d rfl)
      rw [hnil, List.replicate_zero, List.append_nil, List.append_nil] at hsplit
      exact .inl hsplit.symm
    | succ n =>
      have hne : u ≠ [] := by
        rintro rfl
        refine h.last ' ' ?_ rfl
        rw [← hsplit, List.append_nil, List.replicate_succ', ← List.append_assoc]
        exact List.getLast?_concat
      have hmem : ∀ d ∈ u, d ∈ c :: rest := fun d hd => by
        rw [← hsplit]
        exact List.mem_append_right _ (List.mem_append_right _ hd)
      refine .inr ⟨n, u, hsplit.symm, hne, fun d hd => h.printable d (hmem d hd),
        fun d hd => h.noBreak d (hmem d hd), hu, fun d hd => h.last d ?_, ?_⟩
      · rw [← hsplit, List.getLast?_append_of_ne_nil _ (by simp [hne]),
          List.getLast?_append_of_ne_nil _ hne]
        exact hd
      · have hwhole : holdsIndicatorAfter ' '
            ((c :: rest).takeWhile (!isSpace ·) ++ List.replicate n ' ' ++ ' ' :: u) = false := by
          rw [List.append_assoc, List.append_cons (List.replicate n ' '), ← List.replicate_succ',
            hsplit]
          exact h.noIndicator
        exact holdsIndicatorAfter_append_right hwhole

theorem endsWord_some_of_isPrintable (hprintable : isPrintable c = true) (hbreak : isBreak c = false)
    (hspace : c ≠ ' ') : endsWord (some c) = false := by
  simp [endsWord, hbreak, hspace, ne_tab_of_isPrintable hprintable]

/-- A word is read up to its end. -/
theorem wordLength?_append (hw : ∀ c ∈ w, endsWord (some c) = false)
    (hindicator : holdsIndicatorAfter before (w ++ v) = false)
    (hend : wordLength? false (v ++ tail) = some 0) :
    wordLength? false (w ++ (v ++ tail)) = some w.length := by
  induction w generalizing before with
  | nil => exact hend
  | cons c w ih =>
    rw [List.cons_append, holdsIndicatorAfter, Bool.or_eq_false_iff, Bool.or_eq_false_iff]
      at hindicator
    have hcolon : (decide (c = ':') && endsWord (w ++ (v ++ tail)).head?) = false := by
      have hbefore := hindicator.1.1
      rw [← List.append_assoc]
      cases hrest : w ++ v with
      | nil =>
        rw [hrest, List.head?_nil, endsWord, Bool.and_true] at hbefore
        rw [hbefore, Bool.false_and]
      | cons d rest =>
        rw [hrest] at hbefore
        exact hbefore
    rw [List.cons_append, wordLength?, if_neg (by simp [hw c List.mem_cons_self]),
      if_neg (by simp), if_neg (by rw [hcolon]; simp),
      ih (fun d hd => hw d (List.mem_cons_of_mem c hd)) hindicator.2]
    rfl

theorem wordLength?_space : wordLength? false (' ' :: u) = some 0 := by
  rw [wordLength?, if_pos (by decide)]

theorem wordLength?_after {indent : Nat} {broken : Bool} (h : AfterScalar indent tail gap broken) :
    wordLength? false tail = some 0 := by
  cases h with
  | nothing => rw [wordLength?]
  | colon h => rw [wordLength?, if_neg (by decide), if_neg (by simp), if_pos (by simp [h])]
  | line => rw [wordLength?, if_pos (by decide)]

variable {indent bound : Nat} {broken : Bool} {read : Text} {start : Gap} {c : Cursor}

/-- The last word of a plain text, with what follows it. -/
theorem plainFrom?_last (hmarker : c.isAtMarker = false) (hsign : c.peek ≠ some '#')
    (hc : c.rest = w ++ tail) (hne : w ≠ []) (hbreak : ∀ b ∈ w, isBreak b = false)
    (hlength : wordLength? false (w ++ tail) = some w.length)
    (hafter : AfterScalar indent tail gap broken) :
    plainFrom? false indent (bound + 1) read start c =
      some (read.reverse ++ start.fold ++ w, broken, c.advance (w ++ gap)) := by
  have hpos : w.length ≠ 0 := by simpa using hne
  have htake : (w ++ tail).take w.length = w := List.take_left
  have hskip : c.advance w = c.skip w.length := advance_of_noBreak hbreak c
  have hrest : (c.skip w.length).rest = tail := hskip ▸ rest_advance hc
  rw [plainFrom?, if_neg (by simp [hmarker, hsign]), hc, hlength, advance_append, hskip]
  simp only [↓reduceIte, Option.bind_some, hpos, htake, Cursor.peek, hrest]
  cases hafter with
  | nothing => simp
  | colon h =>
    have hcolon : (isBlank ':' || isBreak ':') = false := by decide
    simp [hcolon]
  | @line column rest hcolumn hstarts =>
    have hfeed : (isBlank '\n' || isBreak '\n') = true := by decide
    have hpart : ∀ b ∈ '\n' :: margin column, Gap.isPart b = true :=
      List.forall_mem_cons.2 ⟨by decide, fun b hb => by
        rw [List.eq_of_mem_replicate hb]
        decide⟩
    have hgap := gap?_eq_some (c := c.skip w.length) indent hpart hstarts.word (by rw [hrest]; rfl)
    have hindent : ((c.skip w.length).advance ('\n' :: margin column)).column = column := by
      have h := column_advance_breaks (v := ['\n']) (w := margin column) (by simp) (by simp [isBreak])
        (fun b hb => by rw [List.eq_of_mem_replicate hb]; decide) (c.skip w.length)
      simpa [margin] using h
    have hbroken : (('\n' :: margin column).foldl Gap.take {}).isBroken = true := by
      rw [List.foldl_cons, margin, Gap.foldl_take_margin] <;> decide
    simp only [List.head?_cons, Option.any_some, hfeed, ↓reduceIte, hgap, Option.bind_some, hindent,
      hcolumn, decide_true, Bool.not_false, Bool.and_self, hbroken]
    simp

/-- A word of a plain text, with the spaces after it. -/
theorem plainFrom?_word {n : Nat} (hmarker : c.isAtMarker = false) (hsign : c.peek ≠ some '#')
    (hc : c.rest = w ++ (List.replicate (n + 1) ' ' ++ v)) (hne : w ≠ [])
    (hbreak : ∀ b ∈ w, isBreak b = false)
    (hlength : wordLength? false (w ++ (List.replicate (n + 1) ' ' ++ v)) = some w.length)
    (hv : StartsWord v) (hcolumn : indent ≤ c.column + 1) :
    plainFrom? false indent (bound + 1) read start c =
      plainFrom? false indent bound (w.reverse ++ (start.fold.reverse ++ read))
        ((List.replicate (n + 1) ' ').foldl Gap.take {})
        (c.advance (w ++ List.replicate (n + 1) ' ')) := by
  have hpos : w.length ≠ 0 := by simpa using hne
  have htake : (w ++ (List.replicate (n + 1) ' ' ++ v)).take w.length = w := List.take_left
  have hspaces : ∀ b ∈ List.replicate (n + 1) ' ', b = ' ' := fun b hb => List.eq_of_mem_replicate hb
  have hskip : c.advance w = c.skip w.length := advance_of_noBreak hbreak c
  have hrest : (c.skip w.length).rest = List.replicate (n + 1) ' ' ++ v := hskip ▸ rest_advance hc
  have hgap := gap?_eq_some (c := c.skip w.length) indent
    (fun b hb => by rw [hspaces b hb]; decide) hv hrest
  have hnext : ((c.skip w.length).advance (List.replicate (n + 1) ' ')).column =
      c.column + w.length + (n + 1) := by
    rw [advance_of_noBreak fun b hb => by rw [hspaces b hb]; decide]
    simp
  have hpeek : (c.skip w.length).peek = some ' ' := by
    rw [Cursor.peek, hrest]
    rfl
  have hblank : (isBlank ' ' || isBreak ' ') = true := by decide
  have hindent : ¬ c.column + w.length + (n + 1) < indent := by omega
  rw [plainFrom?, if_neg (by simp [hmarker, hsign]), hc, hlength, advance_append, hskip]
  simp only [↓reduceIte, Option.bind_some, hpos, htake, hpeek, Option.any_some, decide_false, hblank,
    hgap, hnext, hindent, Bool.and_false, Bool.false_eq_true]

theorem plainFrom?_eq (ht : IsPhrase t) (hmarker : c.isAtMarker = false)
    (hcolumn : indent ≤ c.column + 1) (hafter : AfterScalar indent tail gap broken)
    (hc : c.rest = t ++ tail) (hbound : t.length < bound) :
    plainFrom? false indent bound read start c =
      some (read.reverse ++ start.fold ++ t, broken, c.advance (t ++ gap)) := by
  -- on the length of the text: a word is read with the spaces after it
  induction hlength : t.length using Nat.strongRecOn generalizing t read start bound c with
  | _ length ih =>
  subst hlength
  obtain ⟨bound, rfl⟩ : ∃ k, bound = k + 1 := ⟨bound - 1, by omega⟩
  have hsign : c.peek ≠ some '#' := by
    rw [Cursor.peek, hc]
    exact (ht.startsToken tail).noComment
  obtain ⟨w, hne, hw, hsplit⟩ := ht.exists_word
  have hends : ∀ d ∈ w, d ∈ t → endsWord (some d) = false := fun d hd hmem =>
    endsWord_some_of_isPrintable (ht.printable d hmem) (ht.noBreak d hmem) (hw d hd)
  rcases hsplit with rfl | ⟨n, u, rfl, hu⟩
  · have hword : wordLength? false (t ++ ([] ++ tail)) = some t.length :=
      wordLength?_append (fun d hd => hends d hd hd) (by rw [List.append_nil]; exact ht.noIndicator)
        (wordLength?_after hafter)
    exact plainFrom?_last hmarker hsign hc hne ht.noBreak hword hafter
  · have hword : wordLength? false (w ++ (List.replicate (n + 1) ' ' ++ u ++ tail)) =
        some w.length :=
      wordLength?_append (fun d hd => hends d hd (List.mem_append_left _ hd)) ht.noIndicator
        wordLength?_space
    have hbreak : ∀ d ∈ w ++ List.replicate (n + 1) ' ', isBreak d = false := fun d hd =>
      ht.noBreak d (by rw [← List.append_assoc]; exact List.mem_append_left u hd)
    have hpos := List.length_pos_of_ne_nil hne
    rw [List.append_assoc, List.append_assoc] at hc
    rw [List.append_assoc] at hword
    rw [List.length_append] at hbound ih
    have hcolumn' : c.column < (c.advance (w ++ List.replicate (n + 1) ' ')).column := by
      rw [advance_of_noBreak hbreak, column_skip, List.length_append]
      omega
    rw [plainFrom?_word hmarker hsign hc hne (fun d hd => hbreak d (List.mem_append_left _ hd)) hword
      (hu.startsToken tail).word hcolumn, ih u.length ?_ hu (isAtMarker_of_column (by omega)) (by omega) ?_ ?_ rfl,
      Gap.fold_spaces, ← advance_append]
    · simp
    · simp
      omega
    · exact rest_advance (by rw [hc]; simp)
    · simp at hbound
      omega

end Plain

/-! ### Scalars -/

section Scalars

variable {t rest tail gap : Text} {c : Cursor} {indent column : Nat} {broken : Bool}

theorem AfterScalar.head_ne_quote (h : AfterScalar indent tail gap broken) :
    tail.head? ≠ some '\'' := by
  cases h <;> simp

theorem plain?_eq (ht : IsPhrase t) (hmarker : c.isAtMarker = false)
    (hcolumn : indent ≤ c.column + 1) (hafter : AfterScalar indent tail gap broken)
    (hc : c.rest = t ++ tail) :
    plain? false indent c = some (.scalar t true, broken, c.advance (t ++ gap)) := by
  have hbound : t.length < c.rest.length + 1 := by
    rw [hc, List.length_append]
    omega
  rw [plain?, plainFrom?_eq ht hmarker hcolumn hafter hc hbound]
  simp [Gap.fold]

theorem quoted?_single (h : styleOf t = .singleQuoted) (hcolumn : 0 < column)
    (hrest : rest.head? ≠ some '\'') (hc : c.rest = lineText column t ++ rest) :
    quoted? false c = some (.scalar t false, c.advance (lineText column t)) := by
  have hquote : isBreak '\'' = false := by decide
  have hsingle := isSingleQuoted_of_styleOf h
  have hwritten : lineText column t = '\'' :: (singleQuotedFrom column false t ++ ['\'']) := by
    rw [lineText, h]
  rw [hwritten, List.cons_append, List.append_assoc, List.singleton_append] at hc
  have hbound : t.length < c.rest.length + 1 := by
    have hlength := length_le_singleQuotedFrom column false t
    rw [hc, List.length_cons, List.length_append]
    omega
  rw [quoted?, quotedFrom?_single hsingle hcolumn (by simp) (by simp [hc]) hrest hbound, hwritten,
    advance_cons_of_noBreak hquote]
  rfl

theorem quoted?_double (h : styleOf t = .doubleQuoted) (hc : c.rest = lineText column t ++ rest) :
    quoted? true c = some (.scalar t false, c.advance (lineText column t)) := by
  have hquote : isBreak '\"' = false := by decide
  have hwritten : lineText column t = '\"' :: (t.flatMap doubleQuotedChar ++ ['\"']) := by
    rw [lineText, h]
  rw [hwritten, List.cons_append, List.append_assoc, List.singleton_append] at hc
  have hbound : t.length < c.rest.length + 1 := by
    have hlength := length_le_doubleQuoted t
    rw [hc, List.length_cons, List.length_append]
    omega
  rw [quoted?, quotedFrom?_double (by simp) (by rw [rest_skip, hc]; rfl) hbound, hwritten,
    advance_cons_of_noBreak hquote]
  rfl

theorem startsToken_lineText (column : Nat) (t rest : Text) : StartsToken (lineText column t ++ rest) := by
  rw [lineText]
  split
  · next h => exact (isPhrase_of_isPlain (isPlain_of_styleOf h)).startsToken rest
  · exact startsToken_cons (by decide) (by decide) (by decide)
  · exact startsToken_cons (by decide) (by decide) (by decide)

/-- A text without line breaks is written without them. -/
theorem noBreak_lineText (h : ∀ c ∈ t, isBreak c = false) (column : Nat) :
    ∀ c ∈ lineText column t, isBreak c = false := by
  intro c hc
  rw [lineText] at hc
  split at hc
  · exact h c hc
  · simp only [List.mem_cons, List.mem_append, List.not_mem_nil, or_false] at hc
    rcases hc with rfl | hc | rfl
    · decide
    · rcases mem_singleQuotedFrom hc with hc | rfl | rfl
      · exact h c hc
      · decide
      · decide
    · decide
  · simp only [List.mem_cons, List.mem_append, List.not_mem_nil, or_false] at hc
    rcases hc with rfl | hc | rfl
    · decide
    · exact isBreak_of_mem_doubleQuoted hc
    · decide

/-- A text without line breaks takes at most six characters for each of its own. -/
theorem length_lineText_le (h : ∀ c ∈ t, isBreak c = false) (column : Nat) :
    (lineText column t).length ≤ 6 * t.length + 2 := by
  have hsingle := length_singleQuotedFrom_le column h
  have hdouble := length_doubleQuoted_le t
  rw [lineText]
  split
  · omega
  · rw [List.length_cons, List.length_append, List.length_singleton]
    omega
  · rw [List.length_cons, List.length_append, List.length_singleton]
    omega

end Scalars

end Token

end ActionBundles.Yaml
