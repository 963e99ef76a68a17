import ActionBundles.Yaml.Cursor

/-!
# Places after a text

A reader that has read a text is at the place after it. `Cursor.advance` computes that place; what a
reader does can then be said without the places in between. Blanks and line breaks between two words
are taken up one by one in a gap (`Gap.take`), and reading a gap takes all of them.
-/

namespace ActionBundles.Yaml

namespace Cursor

variable {c : Cursor} {v w rest : Text} {b : Char} {n : Nat}

@[simp] theorem rest_skip (n : Nat) (c : Cursor) : (c.skip n).rest = c.rest.drop n := rfl

@[simp] theorem index_skip (n : Nat) (c : Cursor) : (c.skip n).index = c.index + n := rfl

@[simp] theorem line_skip (n : Nat) (c : Cursor) : (c.skip n).line = c.line := rfl

@[simp] theorem column_skip (n : Nat) (c : Cursor) : (c.skip n).column = c.column + n := rfl

@[simp] theorem skip_zero (c : Cursor) : c.skip 0 = c := rfl

theorem skip_skip (m n : Nat) (c : Cursor) : (c.skip m).skip n = c.skip (m + n) := by
  simp [skip, Nat.add_assoc]

@[simp] theorem rest_nextLine (n : Nat) (c : Cursor) : (c.nextLine n).rest = c.rest.drop n := rfl

@[simp] theorem index_nextLine (n : Nat) (c : Cursor) : (c.nextLine n).index = c.index + n := rfl

@[simp] theorem line_nextLine (n : Nat) (c : Cursor) : (c.nextLine n).line = c.line + 1 := rfl

@[simp] theorem column_nextLine (n : Nat) (c : Cursor) : (c.nextLine n).column = 0 := rfl

/-! ### Texts that follow a place -/

/-- The place after a text that follows, where each line break is a single character. -/
def advance (c : Cursor) : Text → Cursor
  | [] => c
  | b :: rest => (if isBreak b then c.nextLine 1 else c.skip 1).advance rest

@[simp] theorem advance_nil (c : Cursor) : c.advance [] = c := rfl

theorem advance_cons (c : Cursor) (b : Char) (w : Text) :
    c.advance (b :: w) = (if isBreak b then c.nextLine 1 else c.skip 1).advance w := rfl

theorem advance_cons_of_break (h : isBreak b = true) (c : Cursor) (w : Text) :
    c.advance (b :: w) = (c.nextLine 1).advance w := by rw [advance_cons, if_pos h]

theorem advance_cons_of_noBreak (h : isBreak b = false) (c : Cursor) (w : Text) :
    c.advance (b :: w) = (c.skip 1).advance w := by rw [advance_cons, if_neg (by simp [h])]

theorem advance_append (c : Cursor) (v w : Text) : c.advance (v ++ w) = (c.advance v).advance w := by
  induction v generalizing c with
  | nil => rfl
  | cons b v ih => exact ih _

theorem rest_advance (h : c.rest = w ++ rest) : (c.advance w).rest = rest := by
  induction w generalizing c with
  | nil => exact h
  | cons b w ih =>
    refine ih ?_
    split <;> simp [h]

theorem index_advance (c : Cursor) (w : Text) : (c.advance w).index = c.index + w.length := by
  induction w generalizing c with
  | nil => rfl
  | cons b w ih =>
    rw [advance_cons, ih, List.length_cons]
    split <;> simp <;> omega

theorem line_le_advance (c : Cursor) (w : Text) : c.line ≤ (c.advance w).line := by
  induction w generalizing c with
  | nil => exact Nat.le_refl _
  | cons b w ih =>
    refine Nat.le_trans ?_ (ih _)
    split <;> simp

/-- After a text without line breaks one is in the same line. -/
theorem advance_of_noBreak (h : ∀ b ∈ w, isBreak b = false) (c : Cursor) :
    c.advance w = c.skip w.length := by
  induction w generalizing c with
  | nil => rfl
  | cons b w ih =>
    rw [advance_cons_of_noBreak (h b List.mem_cons_self), ih fun d hd => h d (List.mem_cons_of_mem b hd),
      skip_skip, List.length_cons, Nat.add_comm]

theorem advance_singleton (h : isBreak b = false) (c : Cursor) : c.advance [b] = c.skip 1 :=
  advance_of_noBreak (by simpa using h) c

/-- A line starts at column zero. -/
theorem column_advance_break (hb : isBreak b = true) (h : ∀ d ∈ w, isBreak d = false) (c : Cursor) :
    (c.advance (v ++ b :: w)).column = w.length := by
  rw [advance_append, advance_cons_of_break hb, advance_of_noBreak h, column_skip, column_nextLine,
    Nat.zero_add]

/-- The same after several line breaks. -/
theorem column_advance_breaks (hne : v ≠ []) (hv : ∀ b ∈ v, isBreak b = true)
    (hw : ∀ d ∈ w, isBreak d = false) (c : Cursor) : (c.advance (v ++ w)).column = w.length := by
  obtain ⟨front, b, rfl⟩ := (List.eq_nil_or_concat v).resolve_left hne
  rw [List.concat_eq_append, List.append_assoc]
  exact column_advance_break (hv b (by simp)) hw c

theorem line_lt_advance (hb : isBreak b = true) (c : Cursor) (w : Text) :
    c.line < (c.advance (b :: w)).line := by
  rw [advance_cons_of_break hb]
  exact line_le_advance (c.nextLine 1) w

/-! ### Line breaks -/

theorem lineBreak?_eq_none (h : ∀ b ∈ c.rest.head?, isBreak b = false) : c.lineBreak? = none := by
  have hbreaks : ∀ b : Char, isBreak b = false → b ≠ '\r' ∧ b ≠ '\u2028' ∧ b ≠ '\u2029' := by
    rintro b hb
    refine ⟨?_, ?_, ?_⟩ <;> rintro rfl <;> exact absurd hb (by decide)
  cases hrest : c.rest with
  | nil => rw [lineBreak?, hrest]
  | cons b rest =>
    have hb := h b (by rw [hrest]; rfl)
    obtain ⟨hreturn, hline, hparagraph⟩ := hbreaks b hb
    rw [lineBreak?, hrest]
    split
    · next he => exact absurd (List.cons.inj he).1 hreturn
    · next he => exact absurd (List.cons.inj he).1 hline
    · next he => exact absurd (List.cons.inj he).1 hparagraph
    · next he =>
      rw [← (List.cons.inj he).1, if_neg (by simp [hb])]
    · rfl

/-- A line break that stands for itself. -/
def isPlainBreak (b : Char) : Bool := b = '\n' || b = '\u2028' || b = '\u2029'

theorem isBreak_of_isPlainBreak (h : isPlainBreak b = true) : isBreak b = true := by
  simp only [isPlainBreak, Bool.or_eq_true, decide_eq_true_eq] at h
  rcases h with (rfl | rfl) | rfl <;> decide

theorem lineBreak?_eq_some (hb : isPlainBreak b = true) (h : c.rest = b :: rest) :
    c.lineBreak? = some ([b], c.nextLine 1) := by
  simp only [isPlainBreak, Bool.or_eq_true, decide_eq_true_eq] at hb
  rw [lineBreak?, h]
  rcases hb with (rfl | rfl) | rfl <;> rfl

end Cursor

/-! ### Words and gaps -/

/-- Whether a text starts neither with a blank nor with a line break. -/
def StartsWord (t : Text) : Prop := ∀ b ∈ t.head?, isBlank b = false ∧ isBreak b = false

theorem startsWord_nil : StartsWord [] := fun _ h => by cases h

theorem startsWord_cons {b : Char} {rest : Text} :
    StartsWord (b :: rest) ↔ isBlank b = false ∧ isBreak b = false := by
  simp [StartsWord]

/-- Whether a text starts neither with a blank or a line break nor with a comment. -/
structure StartsToken (t : Text) : Prop where
  word : StartsWord t
  noComment : t.head? ≠ some '#'

theorem startsToken_nil : StartsToken [] := ⟨startsWord_nil, by simp⟩

theorem startsToken_cons {b : Char} {rest : Text} (hblank : isBlank b = false)
    (hbreak : isBreak b = false) (hsign : b ≠ '#') : StartsToken (b :: rest) :=
  ⟨startsWord_cons.2 ⟨hblank, hbreak⟩, by simpa using hsign⟩

namespace Gap

variable {c : Cursor} {g : Gap} {w rest : Text} {indent bound n : Nat}

/-- A character of a gap: a space, or a line break that stands for itself. -/
def isPart (b : Char) : Bool := b = ' ' || Cursor.isPlainBreak b

/-- The gap with a further character. -/
def take (g : Gap) (b : Char) : Gap :=
  if isBreak b then g.addBreak [b]
  else if g.isBroken then g
  else { g with blanks := g.blanks ++ [b] }

theorem read?_of_startsWord (h : StartsWord c.rest) (bound : Nat) (g : Gap) :
    g.read? indent bound c = some (g, c) := by
  cases bound with
  | zero => rw [read?]
  | succ bound =>
    rw [read?, Cursor.lineBreak?_eq_none fun b hb => (h b hb).2]
    dsimp only
    split
    · next b hb => rw [if_neg (by simp [(h b hb).1])]
    · rfl

/-- Reading a gap takes all its characters. -/
theorem read?_eq_some (hw : ∀ b ∈ w, isPart b = true) (hrest : StartsWord rest)
    (hc : c.rest = w ++ rest) (hbound : w.length ≤ bound) :
    g.read? indent bound c = some (w.foldl take g, c.advance w) := by
  induction w generalizing c g bound with
  | nil => exact read?_of_startsWord (hc ▸ hrest) bound g
  | cons b w ih =>
    obtain ⟨bound, rfl⟩ : ∃ k, bound = k + 1 := ⟨bound - 1, by rw [List.length_cons] at hbound; omega⟩
    have hnext : ∀ {c' : Cursor}, c'.rest = w ++ rest → ∀ g : Gap,
        g.read? indent bound c' = some (w.foldl take g, c'.advance w) := fun hc' g =>
      ih (fun d hd => hw d (List.mem_cons_of_mem b hd)) hc'
        (Nat.le_of_succ_le_succ hbound)
    have hb := hw b List.mem_cons_self
    rw [isPart, Bool.or_eq_true, decide_eq_true_eq] at hb
    rw [read?, List.foldl_cons, take]
    rcases hb with rfl | hb
    · -- a space counts only up to the first line break
      have hspace : isBreak ' ' = false := by decide
      have hblank : isBlank ' ' = true := by decide
      have hpeek : c.peek = some ' ' := by rw [Cursor.peek, hc]; rfl
      rw [Cursor.lineBreak?_eq_none (by rw [hc]; simp [hspace])]
      simp only [hpeek, hblank, hspace, ↓reduceIte, Bool.false_eq_true]
      rw [Cursor.advance_cons_of_noBreak hspace]
      cases g.isBroken
      · exact hnext (by simp [hc]) _
      · exact hnext (by simp [hc]) _
    · have hbreak := Cursor.isBreak_of_isPlainBreak hb
      rw [Cursor.lineBreak?_eq_some hb hc]
      simp only [hbreak, ↓reduceIte]
      rw [Cursor.advance_cons_of_break hbreak]
      exact hnext (by simp [hc]) _

theorem foldl_take_spaces (h : g.isBroken = false) (n : Nat) :
    (List.replicate n ' ').foldl take g = { g with blanks := g.blanks ++ List.replicate n ' ' } := by
  induction n generalizing g with
  | zero => simp
  | succ n ih =>
    have hspace : isBreak ' ' = false := by decide
    have htake : g.take ' ' = { g with blanks := g.blanks ++ [' '] } := by simp [take, hspace, h]
    rw [List.replicate_succ, List.foldl_cons, htake, ih (by exact h)]
    simp

theorem foldl_take_margin (h : g.isBroken = true) (n : Nat) :
    (List.replicate n ' ').foldl take g = g := by
  induction n with
  | zero => rfl
  | succ n ih =>
    have hspace : isBreak ' ' = false := by decide
    rw [List.replicate_succ, List.foldl_cons, take, hspace]
    simpa [h] using ih

theorem foldl_take_breaks (h : g.isBroken = true) (hw : ∀ b ∈ w, isBreak b = true) :
    w.foldl take g = { g with further := g.further ++ w } := by
  induction w generalizing g with
  | nil => simp
  | cons b w ih =>
    obtain ⟨first, hfirst⟩ := Option.isSome_iff_exists.1 h
    have htake : g.take b = { g with further := g.further ++ [b] } := by
      rw [take, if_pos (hw b List.mem_cons_self), addBreak, hfirst]
    rw [List.foldl_cons, htake, ih (by exact h) fun d hd => hw d (List.mem_cons_of_mem b hd)]
    simp

/-- Spaces between two words stand for themselves. -/
theorem fold_spaces (n : Nat) : ((List.replicate n ' ').foldl take {}).fold = List.replicate n ' ' := by
  rw [foldl_take_spaces rfl]
  rfl

/-- Line breaks that are no line feeds stand for themselves, whatever margin is after them. -/
theorem fold_breaks {b : Char} (hb : isBreak b = true) (hw : ∀ d ∈ w, isBreak d = true)
    (hfeed : b ≠ '\n') (n : Nat) :
    ((b :: w ++ List.replicate n ' ').foldl take {}).fold = b :: w := by
  have hfirst : take {} b = { first := some [b] } := by simp [take, hb, addBreak]
  rw [List.foldl_append, List.foldl_cons, hfirst, foldl_take_breaks rfl hw, foldl_take_margin rfl, fold]
  split
  · next he => cases he
  · next he =>
    simp only [Option.some.injEq, List.cons.injEq, and_true] at he
    exact absurd he hfeed
  · next text _ he =>
    cases he
    rfl

end Gap

/-- Spaces and line breaks before a word are a gap. -/
theorem Cursor.gap?_eq_some {c : Cursor} {w rest : Text} (indent : Nat)
    (hw : ∀ b ∈ w, Gap.isPart b = true) (hrest : StartsWord rest) (hc : c.rest = w ++ rest) :
    c.gap? indent {} = some (w.foldl Gap.take {}, c.advance w) :=
  Gap.read?_eq_some hw hrest hc (by rw [hc, List.length_append]; exact Nat.le_add_right _ _)

end ActionBundles.Yaml
