import ActionBundles.Proofs.Texts
import ActionBundles.Proofs.WrittenItems
import ActionBundles.Validation.Schema

/-!
# Lines of written documents

A document whose texts hold no line feed is written in lines of which none looks like a comment: each
starts with a key, with the mark of a key or with a colon. So nothing is lost if the comment lines
are taken out of a text in which such a document stands (`IsSource`).
-/

namespace ActionBundles

/-! ### Texts without comments -/

/-- A line that is no comment and keeps its last character when it is cut out of a text. -/
structure IsCode (line : Text) : Prop where
  noLineFeed : '\n' ∉ line
  noReturn : line.getLast? ≠ some '\r'
  noComment : Descriptor.isComment line = false

/-- A text of ended lines without comments. -/
def IsSource (t : Text) : Prop := ∃ ls, t = Text.unlines ls ∧ ∀ line ∈ ls, IsCode line

namespace IsSource

variable {a b : Text}

theorem nil : IsSource [] := ⟨[], rfl, by simp⟩

theorem append (ha : IsSource a) (hb : IsSource b) : IsSource (a ++ b) := by
  obtain ⟨ls, rfl, hls⟩ := ha
  obtain ⟨ls', rfl, hls'⟩ := hb
  exact ⟨ls ++ ls', by simp [Text.unlines], fun line h => (List.mem_append.1 h).elim (hls line)
    (hls' line)⟩

theorem line (h : IsCode a) : IsSource (a ++ ['\n']) :=
  ⟨[a], by simp [Text.unlines], fun l hl => List.mem_singleton.1 hl ▸ h⟩

theorem flatten {ts : List Text} (h : ∀ t ∈ ts, IsSource t) : IsSource ts.flatten := by
  induction ts with
  | nil => exact nil
  | cons t ts ih => exact (h t (by simp)).append (ih fun t' ht' => h t' (by simp [ht']))

end IsSource

theorem isCode_of_head {c : Char} {line rest : Text} (he : line = c :: rest)
    (hblank : Text.isBlank c = false) (hc : c ≠ '#') (hfeed : '\n' ∉ line)
    (hlast : line.getLast? ≠ some '\r') : IsCode line where
  noLineFeed := hfeed
  noReturn := hlast
  noComment := by
    rw [he, Descriptor.isComment, Text.trimStart_of_head hblank]
    simpa using hc

theorem getLast?_colon {tail : Text} (h : tail.getLast? ≠ some '\r') (start : Text) :
    (start ++ ':' :: tail).getLast? ≠ some '\r' := by
  rw [List.getLast?_append, List.getLast?_cons]
  cases hend : tail.getLast? with
  | none => simp
  | some d =>
    rw [hend] at h
    simpa using h

/-- Spaces before a line do not make it a comment. -/
theorem IsCode.margin {line : Text} (h : IsCode line) (n : Nat) :
    IsCode (List.replicate n ' ' ++ line) where
  noLineFeed hc := by
    rcases List.mem_append.1 hc with hc | hc
    · exact absurd (List.eq_of_mem_replicate hc) (by decide)
    · exact h.noLineFeed hc
  noReturn hc := by
    rw [List.getLast?_append] at hc
    cases hlast : line.getLast? with
    | some c =>
      rw [hlast] at hc
      cases hc
      exact h.noReturn hlast
    | none =>
      rw [hlast] at hc
      exact absurd (List.eq_of_mem_replicate (List.mem_of_getLast? hc)) (by decide)
  noComment := by
    have hspaces : ∀ c ∈ List.replicate n ' ', Text.isBlank c = true := fun c hc => by
      rw [List.eq_of_mem_replicate hc]
      decide
    rw [Descriptor.isComment, Text.trimStart_append_of_blank hspaces]
    exact h.noComment

/-- Spaces before the first line of a text do not make it a comment. -/
theorem IsSource.margin {t : Text} (h : IsSource t) (hne : t ≠ []) (n : Nat) :
    IsSource (List.replicate n ' ' ++ t) := by
  obtain ⟨ls, rfl, hls⟩ := h
  cases ls with
  | nil => exact absurd rfl hne
  | cons first rest =>
    refine ⟨(List.replicate n ' ' ++ first) :: rest, by simp [Text.unlines], fun line hline => ?_⟩
    rcases List.mem_cons.1 hline with rfl | hline
    · exact (hls first (by simp)).margin n
    · exact hls line (by simp [hline])

namespace Yaml

/-! ### Texts on one line -/

variable {t : Text}

/-- A text without line feeds as it is written, up to the end of its line. -/
def lineText (indent : Nat) (t : Text) : Text :=
  match styleOf t with
  | .plain => t
  | .singleQuoted => '\'' :: (singleQuotedFrom indent false t ++ ['\''])
  | _ => '\"' :: (t.flatMap doubleQuotedChar ++ ['\"'])

theorem styleOf_ne_literal (h : '\n' ∉ t) : styleOf t ≠ .literal := by
  rw [styleOf, if_neg h]
  split
  · simp
  split
  · simp
  split <;> simp

theorem writeText_eq (h : '\n' ∉ t) (indent : Nat) :
    writeText indent t = lineText indent t ++ ['\n'] := by
  have hne := styleOf_ne_literal h
  rw [writeText, lineText]
  cases hstyle : styleOf t with
  | literal => exact absurd hstyle hne
  | plain => rfl
  | singleQuoted => simp
  | doubleQuoted => simp

/-- What is known of a text that is written as it is. -/
structure IsPlain (t : Text) : Prop where
  printable : ∀ c ∈ t, isPrintable c = true
  noBreak : ∀ c ∈ t, isBreak c = false
  noLooseEnd : hasLooseEnd t = false
  noIndicator : holdsIndicator t = false
  unambiguous : isAmbiguous t = false

theorem isPlain_of_styleOf (h : styleOf t = .plain) : IsPlain t := by
  rw [styleOf] at h
  split at h
  · cases h
  next hprintable =>
  split at h
  · split at h <;> cases h
  split at h
  · cases h
  split at h
  · cases h
  next hquoted =>
  simp only [Bool.or_eq_true, List.any_eq_true, not_or, not_exists, not_and,
    Bool.not_eq_true] at hprintable hquoted
  obtain ⟨⟨⟨hbreak, hloose⟩, hindicator⟩, hambiguous⟩ := hquoted
  exact ⟨fun c hc => by simpa using hprintable.1 c hc, hbreak, hloose, hindicator, hambiguous⟩

theorem IsPlain.ne_nil (h : IsPlain t) : t ≠ [] := by
  rintro rfl
  exact absurd h.unambiguous (by decide)

theorem mem_singleQuotedFrom {c : Char} {indent : Nat} {afterBreak : Bool}
    (h : c ∈ singleQuotedFrom indent afterBreak t) : c ∈ t ∨ c = ' ' ∨ c = '\'' := by
  have hmargin : c ∈ margin indent → c = ' ' := List.eq_of_mem_replicate
  induction t generalizing afterBreak with
  | nil =>
    rw [singleQuotedFrom] at h
    split at h
    · exact .inr (.inl (hmargin h))
    · cases h
  | cons d rest ih =>
    have hrest : ∀ {afterBreak}, c ∈ singleQuotedFrom indent afterBreak rest →
        c ∈ d :: rest ∨ c = ' ' ∨ c = '\'' := fun h => (ih h).imp_left (List.mem_cons_of_mem d)
    rw [singleQuotedFrom] at h
    split at h
    · rcases List.mem_cons.1 h with rfl | h
      · exact .inl List.mem_cons_self
      · exact hrest h
    · rcases List.mem_append.1 h with h | h
      · rcases List.mem_append.1 h with h | h
        · split at h
          · exact .inr (.inl (hmargin h))
          · cases h
        · split at h
          · refine .inr (.inr ?_)
            simpa using h
          · exact .inl (List.mem_singleton.1 h ▸ List.mem_cons_self)
      · exact hrest h

/-- The digits of a number in base sixteen. -/
theorem exists_toDigits (n : Nat) : ∃ ks : List Nat, Nat.toDigits 16 n = ks.map Nat.digitChar ∧
    (∀ k ∈ ks, k < 16) ∧ ks.foldl (fun m k => m * 16 + k) 0 = n := by
  induction n using Nat.strongRecOn with
  | _ n ih =>
    rw [Nat.toDigits_eq_if (by decide)]
    split
    · next hlt => exact ⟨[n], rfl, by simpa using hlt, by simp⟩
    · next hge =>
      obtain ⟨ks, hks, hlt, hvalue⟩ := ih (n / 16) (by omega)
      refine ⟨ks ++ [n % 16], ?_, fun k hk => ?_, ?_⟩
      · rw [hks, List.map_append, List.map_singleton]
      · rcases List.mem_append.1 hk with hk | hk
        · exact hlt k hk
        · rw [List.mem_singleton.1 hk]
          exact Nat.mod_lt n (by decide)
      · rw [List.foldl_append, hvalue, List.foldl_cons, List.foldl_nil]
        omega

theorem isAlphanum_of_mem_hex {c : Char} {width n : Nat} (h : c ∈ hex width n) :
    c.isAlphanum = true := by
  rcases List.mem_append.1 h with h | h
  · rw [List.eq_of_mem_replicate h]
    decide
  · obtain ⟨d, hd, rfl⟩ := List.mem_map.1 h
    obtain ⟨ks, hks, hlt, -⟩ := exists_toDigits n
    rw [hks] at hd
    obtain ⟨k, hk, rfl⟩ := List.mem_map.1 hd
    have hdigits : ∀ k < 16, (Nat.digitChar k).toUpper.isAlphanum = true := by decide
    exact hdigits k (hlt k hk)

theorem lineFeed_not_mem_doubleQuotedChar (c : Char) : '\n' ∉ doubleQuotedChar c := by
  have hhex : ∀ width n, '\n' ∉ hex width n := fun width n h =>
    absurd (isAlphanum_of_mem_hex h) (by decide)
  rw [doubleQuotedChar]
  split
  · next hplain =>
    simp only [Bool.and_eq_true, Bool.not_eq_true', decide_eq_true_eq] at hplain
    rw [List.mem_singleton]
    rintro rfl
    exact absurd hplain.1.1.2 (by decide)
  · rw [List.mem_cons, not_or]
    refine ⟨by decide, ?_⟩
    split
    · next letter hletter =>
      rw [List.mem_singleton]
      rintro rfl
      obtain ⟨before, after, hsplit, -⟩ := List.lookup_eq_some_iff.1 hletter
      have hnone : ∀ e ∈ shortEscapes, e.2 ≠ '\n' := by decide
      exact hnone (c, '\n') (by rw [hsplit]; simp) rfl
    · split
      · simp [hhex]
      · split <;> simp [hhex]

/-- A text without line feeds is written on one line. -/
theorem lineFeed_not_mem_lineText (h : '\n' ∉ t) (indent : Nat) : '\n' ∉ lineText indent t := by
  rw [lineText]
  split
  · exact h
  · simp only [List.mem_cons, List.mem_append, not_or]
    refine ⟨by decide, fun hc => ?_, by decide⟩
    rcases mem_singleQuotedFrom hc with hc | hc | hc
    · exact h hc
    · exact absurd hc (by decide)
    · exact absurd hc (by decide)
  · simp only [List.mem_cons, List.mem_append, List.mem_flatMap, not_or]
    refine ⟨by decide, ?_, by decide⟩
    rintro ⟨c, -, hc⟩
    exact lineFeed_not_mem_doubleQuotedChar c hc

theorem lineText_ne_nil (indent : Nat) (t : Text) : lineText indent t ≠ [] := by
  rw [lineText]
  split
  · next hstyle => exact (isPlain_of_styleOf hstyle).ne_nil
  · simp
  · simp

theorem getLast?_lineText (indent : Nat) (t : Text) : (lineText indent t).getLast? ≠ some '\r' := by
  rw [lineText]
  split
  · next hstyle =>
    intro hlast
    have hprintable := (isPlain_of_styleOf hstyle).printable _ (List.mem_of_getLast? hlast)
    exact absurd hprintable (by decide)
  · rw [← List.cons_append, List.getLast?_concat]
    decide
  · rw [← List.cons_append, List.getLast?_concat]
    decide

/-- A trimmed text that starts a line does not make it a comment. -/
theorem exists_lineText_eq_cons (h : Text.trim t = t) (indent : Nat) :
    ∃ c rest, lineText indent t = c :: rest ∧ Text.isBlank c = false ∧ c ≠ '#' := by
  rw [lineText]
  split
  · next hstyle =>
    have hplain := isPlain_of_styleOf hstyle
    cases t with
    | nil => exact absurd rfl hplain.ne_nil
    | cons c rest =>
      refine ⟨c, rest, rfl, Text.isBlank_head_trim (t := c :: rest) (by rw [h]; rfl), ?_⟩
      rintro rfl
      exact absurd hplain.noIndicator (by simp [holdsIndicator, startsWithIndicator, leadIndicators])
  · exact ⟨_, _, rfl, by decide, by decide⟩
  · exact ⟨_, _, rfl, by decide, by decide⟩

/-! ### Documents -/

/-- A part of a document with mappings at most `depth` deep: no text holds a line feed, no blanks
stand around a key, and the keys of a mapping differ. -/
inductive Outline.IsSound : Nat → Outline → Prop where
  | bool {depth : Nat} (value : Bool) : IsSound depth (.bool value)
  | text {depth : Nat} {t : Text} (h : '\n' ∉ t) : IsSound depth (.text t)
  | mapping {depth : Nat} {entries : List (Text × Outline)} (keys : ∀ e ∈ entries, Text.IsInline e.1)
      (distinct : (entries.map Prod.fst).Nodup) (values : ∀ e ∈ entries, IsSound depth e.2) :
      IsSound (depth + 1) (.mapping entries)

/-- How a key ends the lines that it is written in: with the start of a line up to its colon. -/
theorem exists_writeKey_eq {key : Text} (h : Text.IsInline key) (indent : Nat) :
    ∃ before start, writeKey indent key = before ++ (start ++ [':']) ∧ IsSource before ∧
      ∀ tail, '\n' ∉ tail → tail.getLast? ≠ some '\r' → IsCode (start ++ ':' :: tail) := by
  have hline := writeText_eq h.noLineEnd (indent + 2)
  rw [writeKey, hline]
  split
  · refine ⟨[], lineText (indent + 2) key, ?_, .nil, fun tail hfeed hlast => ?_⟩
    · rw [List.dropLast_concat, List.nil_append]
    · obtain ⟨c, rest, he, hblank, hc⟩ := exists_lineText_eq_cons h.trimmed (indent + 2)
      refine isCode_of_head (congrArg (· ++ ':' :: tail) he) hblank hc ?_ (getLast?_colon hlast _)
      rw [List.mem_append, List.mem_cons, not_or, not_or]
      exact ⟨lineFeed_not_mem_lineText h.noLineEnd _, by decide, hfeed⟩
  · refine ⟨'?' :: ' ' :: lineText (indent + 2) key ++ ['\n'], margin indent, by simp,
      .line (isCode_of_head rfl (by decide) (by decide) ?_ ?_), fun tail hfeed hlast => ?_⟩
    · rw [List.mem_cons, List.mem_cons, not_or, not_or]
      exact ⟨by decide, by decide, lineFeed_not_mem_lineText h.noLineEnd _⟩
    · rw [List.getLast?_cons_of_ne_nil (by simp), List.getLast?_cons_of_ne_nil (lineText_ne_nil _ _)]
      exact getLast?_lineText _ _
    · refine IsCode.margin (isCode_of_head rfl (by decide) (by decide) ?_ ?_) indent
      · rw [List.mem_cons, not_or]
        exact ⟨by decide, hfeed⟩
      · exact getLast?_colon hlast []

/-- How a value goes on the line of its key, and what lines follow. -/
def GoesOn (t : Text) : Prop :=
  ∃ tail after, t = tail ++ '\n' :: after ∧ '\n' ∉ tail ∧ tail.getLast? ≠ some '\r' ∧ IsSource after

theorem goesOn_text {t : Text} (h : '\n' ∉ t) (indent : Nat) :
    GoesOn (' ' :: writeText indent t) := by
  rw [writeText_eq h]
  refine ⟨' ' :: lineText indent t, [], rfl, ?_, ?_, .nil⟩
  · rw [List.mem_cons, not_or]
    exact ⟨by decide, lineFeed_not_mem_lineText h _⟩
  · rw [List.getLast?_cons_of_ne_nil (lineText_ne_nil _ _)]
    exact getLast?_lineText _ _

/-- Lines that start on the line of a key. -/
theorem goesOn_of_isSource {t : Text} (h : IsSource t) (hne : t ≠ []) : GoesOn (' ' :: t) := by
  obtain ⟨ls, he, hls⟩ := h.margin hne 1
  cases ls with
  | nil => cases he
  | cons first rest =>
    have hfirst := hls first (by simp)
    refine ⟨first, Text.unlines rest, ?_, hfirst.noLineFeed, hfirst.noReturn, rest, rfl,
      fun line hline => hls line (by simp [hline])⟩
    simpa [Text.unlines] using he

/-- An entry is written in lines that are no comments. -/
theorem isSource_entry {key value : Text} {indent : Nat} (hkey : Text.IsInline key)
    (hvalue : GoesOn value) : IsSource (writeKey indent key ++ value) := by
  obtain ⟨before, start, he, hbefore, hstart⟩ := exists_writeKey_eq hkey indent
  obtain ⟨tail, after, rfl, hfeed, hlast, hafter⟩ := hvalue
  have hline : IsCode (start ++ ':' :: tail) := hstart tail hfeed hlast
  have hsplit : writeKey indent key ++ (tail ++ '\n' :: after) =
      before ++ ((start ++ ':' :: tail) ++ ['\n'] ++ after) := by rw [he]; simp
  rw [hsplit]
  exact hbefore.append ((IsSource.line hline).append hafter)

theorem join_ne_nil {sep : Text} {ts : List Text} (hne : ts ≠ []) (h : ∀ t ∈ ts, t ≠ []) :
    Text.join sep ts ≠ [] := by
  cases ts with
  | nil => exact absurd rfl hne
  | cons t ts =>
    have ht : t ≠ [] := h t (by simp)
    cases ts with
    | nil => simpa [Text.join] using ht
    | cons t' ts => simp [Text.join, List.intercalate_cons_cons, ht]

theorem isSource_join {n : Nat} {ts : List Text} (h : ∀ t ∈ ts, IsSource t ∧ t ≠ []) :
    IsSource (Text.join (margin n) ts) := by
  induction ts with
  | nil => exact .nil
  | cons t ts ih =>
    have hrest := ih fun t' ht' => h t' (by simp [ht'])
    cases ts with
    | nil => simpa [Text.join] using (h t (by simp)).1
    | cons t' ts =>
      have hne : Text.join (margin n) (t' :: ts) ≠ [] :=
        join_ne_nil (by simp) fun u hu => (h u (List.mem_cons_of_mem t hu)).2
      rw [Text.join, List.intercalate_cons_cons, List.append_assoc]
      exact (h t (by simp)).1.append (hrest.margin hne n)

theorem writeEntries_eq (indent : Nat) (entries : List (Text × Outline)) :
    writeEntries indent entries =
      entries.map fun e => writeKey indent e.1 ++ writeValue indent (isLineKey e.1) e.2 := by
  induction entries with
  | nil => rw [writeEntries, List.map_nil]
  | cons e rest ih => rw [writeEntries, ih, List.map_cons]

theorem isSource_writeEntries {entries : List (Text × Outline)}
    (hkeys : ∀ e ∈ entries, Text.IsInline e.1)
    (hvalues : ∀ e ∈ entries, ∀ indent inLine, GoesOn (writeValue indent inLine e.2))
    (indent : Nat) : ∀ t ∈ writeEntries indent entries, IsSource t ∧ t ≠ [] := by
  intro t ht
  rw [writeEntries_eq] at ht
  obtain ⟨e, he, rfl⟩ := List.mem_map.1 ht
  refine ⟨isSource_entry (hkeys e he) (hvalues e he _ _), fun hnil => ?_⟩
  obtain ⟨tail, after, hvalue, -⟩ := hvalues e he indent (isLineKey e.1)
  rw [hvalue] at hnil
  simp at hnil

theorem goesOn_writeValue {value : Outline} {depth : Nat} (h : value.IsSound depth) (indent : Nat)
    (inLine : Bool) : GoesOn (writeValue indent inLine value) := by
  induction h generalizing indent inLine with
  | bool value =>
    rw [writeValue]
    cases value
    · exact ⟨" false".toList, [], rfl, by decide, by decide, .nil⟩
    · exact ⟨" true".toList, [], rfl, by decide, by decide, .nil⟩
  | text h =>
    rw [writeValue]
    exact goesOn_text h _
  | @mapping depth entries hkeys hdistinct hvalues ih =>
    cases entries with
    | nil =>
      rw [writeValue]
      exact ⟨" \x7b\x7d".toList, [], rfl, by decide, by decide, .nil⟩
    | cons e rest =>
      have hentries := isSource_writeEntries hkeys ih (indent + 2)
      have hne : Text.join (margin (indent + 2)) (writeEntries (indent + 2) (e :: rest)) ≠ [] :=
        join_ne_nil (by simp [writeEntries_eq]) fun t ht => (hentries t ht).2
      have hjoin : IsSource (Text.join (margin (indent + 2)) _) := isSource_join hentries
      rw [writeValue]
      · cases inLine
        · exact goesOn_of_isSource hjoin hne
        · exact ⟨[], _, rfl, List.not_mem_nil, by simp, hjoin.margin hne _⟩
      · simp

/-- **A document is written in lines that are no comments.** -/
theorem isSource_render {entries : List (Text × Outline)} {depth : Nat}
    (h : Outline.IsSound depth (.mapping entries)) : IsSource (render entries) := by
  cases h with
  | mapping hkeys hdistinct hvalues =>
    exact .flatten fun t ht => (isSource_writeEntries hkeys
      (fun e he => goesOn_writeValue (hvalues e he)) 0 t ht).1

end Yaml

end ActionBundles
