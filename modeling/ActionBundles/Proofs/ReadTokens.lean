import ActionBundles.Proofs.ReadScalars
import ActionBundles.Yaml.Lexer

/-!
# Written documents are cut into tokens

The lexer gives back the tokens of a written document (`tokens?_render`). The proof goes along the
document: each of its parts starts where a key or a value may stand (`BeforeKey`, `AfterMark`) and
ends where the next one may (`AtEnd`), with the tokens of the part in between.
-/

namespace ActionBundles.Yaml

open Cursor
open Token (AfterScalar IsPhrase)

/-! ### The tokens of a document -/

mutual

/-- The tokens of a part of a document. -/
def Outline.tokens : Outline → List Token
  | .bool value => [.scalar (if value then "true" else "false") true]
  | .text t => [.scalar t (styleOf t = .plain)]
  | .mapping [] => [.openFlowMapping, .closeFlowMapping]
  | .mapping entries => .openBlockMapping :: (entryTokens entries ++ [.closeBlock])

/-- The tokens of the entries of a mapping. -/
def entryTokens : List (Text × Outline) → List Token
  | [] => []
  | (key, value) :: rest =>
    .key :: .scalar key (styleOf key = .plain) :: .value :: (value.tokens ++ entryTokens rest)

end

namespace Lexer

variable {l l' s : Lexer} {rest tail gap : Text} {c : Char} {n : Nat}

/-! ### Runs -/

/-- The lexer at the next token, before the blocks are closed that end there. -/
def settle (l : Lexer) : Lexer := l.skipToToken (l.cursor.rest.length + 1)

/-- The lexer at the next token. -/
def prepare? (l : Lexer) : Option Lexer :=
  l.settle.dropStale?.map fun l => l.closeBlocks fun indent => l.cursor.column < indent

theorem run?_token {bound : Nat} (hs : l.prepare? = some s) (hrest : s.cursor.rest = c :: rest)
    (ht : s.token? c rest.head? = some l') : l.run? (bound + 1) = l'.run? bound := by
  obtain ⟨m, hm, rfl⟩ := Option.map_eq_some_iff.1 hs
  rw [run?, settle] at *
  simp only [hm, Option.bind_eq_bind, Option.bind_some, hrest, ht]

theorem run?_end {bound : Nat} (hs : l.prepare? = some s) (hrest : s.cursor.rest = []) :
    l.run? (bound + 1) = (s.closeBlocks fun _ => true).dropKey?.map (·.tokens.reverse) := by
  obtain ⟨m, hm, rfl⟩ := Option.map_eq_some_iff.1 hs
  rw [run?, settle] at *
  simp only [hm, Option.bind_eq_bind, Option.bind_some, hrest]

/-- A lexer goes on as another one, which has read at least as many characters as tokens more. -/
def Reaches (l l' : Lexer) : Prop :=
  ∃ n, n + l'.cursor.rest.length ≤ l.cursor.rest.length ∧
    ∀ bound, l.run? (n + bound) = l'.run? bound

theorem Reaches.trans {l₁ l₂ l₃ : Lexer} (h : Reaches l₁ l₂) (h' : Reaches l₂ l₃) :
    Reaches l₁ l₃ := by
  obtain ⟨n, hn, hrun⟩ := h
  obtain ⟨n', hn', hrun'⟩ := h'
  exact ⟨n + n', by omega, fun bound => by rw [Nat.add_assoc, hrun, hrun']⟩

theorem Reaches.token (hs : l.prepare? = some s) (hrest : s.cursor.rest = c :: rest)
    (ht : s.token? c rest.head? = some l')
    (hlength : l'.cursor.rest.length < l.cursor.rest.length) : Reaches l l' :=
  ⟨1, by omega, fun bound => by rw [Nat.add_comm, run?_token hs hrest ht]⟩

/-! ### Up to the next token -/

theorem skipWhile_of_head {p : Char → Bool} {c : Cursor} (h : ∀ b ∈ c.rest.head?, p b = false) :
    c.skipWhile p = c := by
  have hnone : c.ahead p = [] := by
    rw [Cursor.ahead]
    cases hrest : c.rest with
    | nil => rfl
    | cons b rest => simp [h b (by rw [hrest]; rfl)]
  rw [skipWhile, hnone]
  rfl

section Line

variable {bound : Nat} {c : Cursor}
  (hmark : ¬ (l.cursor.index = 0 ∧ l.cursor.peek = some '\ufeff'))
  (hskip : l.cursor.skipWhile (fun b => b = ' ' || ((l.inFlow || !l.keyAllowed) && b = '\t')) = c)
  (hsign : c.peek ≠ some '#')

include hmark hskip hsign

/-- A token comes after the blanks of a line. -/
theorem skipToToken_of_noBreak (hbreak : c.lineBreak? = none) :
    l.skipToToken (bound + 1) = { l with cursor := c } := by
  have hstart : (decide (l.cursor.index = 0) && decide (l.cursor.peek = some '\ufeff')) = false := by
    simpa using hmark
  rw [skipToToken]
  simp only [hstart, Bool.false_eq_true, ↓reduceIte, hskip, hsign, hbreak]

/-- A line ends after its blanks. -/
theorem skipToToken_of_break {text : Text} {next : Cursor} (hbreak : c.lineBreak? = some (text, next)) :
    l.skipToToken (bound + 1) =
      skipToToken bound { l with cursor := next, keyAllowed := l.keyAllowed || !l.inFlow } := by
  have hstart : (decide (l.cursor.index = 0) && decide (l.cursor.peek = some '\ufeff')) = false := by
    simpa using hmark
  rw [skipToToken]
  simp only [hstart, Bool.false_eq_true, ↓reduceIte, hskip, hsign, hbreak]

end Line

theorem skipToToken_of_startsToken {bound : Nat} (h : StartsToken l.cursor.rest)
    (hindex : 0 < l.cursor.index) : l.skipToToken bound = l := by
  cases bound with
  | zero => rw [skipToToken]
  | succ bound =>
    have hblank : ∀ b ∈ l.cursor.rest.head?, b ≠ ' ' ∧ b ≠ '\t' := fun b hb => by
      have hblank := (h.word b hb).1
      simpa [isBlank] using hblank
    exact skipToToken_of_noBreak (by simp [Nat.ne_of_gt hindex])
      (skipWhile_of_head fun b hb => by simp [hblank b hb]) h.noComment
      (lineBreak?_eq_none fun b hb => (h.word b hb).2)

theorem skipWhile_spaces {p : Char → Bool} {c : Cursor} (hp : p ' ' = true)
    (hc : c.rest = margin n ++ rest) (hrest : ∀ b ∈ rest.head?, p b = false) :
    c.skipWhile p = c.advance (margin n) := by
  have hbreak : ∀ b ∈ margin n, isBreak b = false := fun b hb => by
    rw [List.eq_of_mem_replicate hb]
    decide
  have htake : c.ahead p = margin n := by
    rw [Cursor.ahead, hc, List.takeWhile_append_of_pos fun b hb => by
      rw [List.eq_of_mem_replicate hb]; exact hp]
    cases rest with
    | nil => simp
    | cons b rest => simp [hrest b rfl]
  rw [skipWhile, htake, advance_of_noBreak hbreak]

/-- Spaces before a token are passed over. -/
theorem skipToToken_spaces {bound : Nat} (hc : l.cursor.rest = margin n ++ rest)
    (h : StartsToken rest) (hindex : 0 < l.cursor.index) :
    l.skipToToken (bound + 1) = { l with cursor := l.cursor.advance (margin n) } := by
  have hblank : ∀ b ∈ rest.head?, b ≠ ' ' ∧ b ≠ '\t' := fun b hb => by
    have hblank := (h.word b hb).1
    simpa [isBlank] using hblank
  have hrest : (l.cursor.advance (margin n)).rest = rest := rest_advance hc
  exact skipToToken_of_noBreak (by simp [Nat.ne_of_gt hindex])
    (skipWhile_spaces (by simp) hc fun b hb => by simp [hblank b hb])
    (by rw [Cursor.peek, hrest]; exact h.noComment)
    (lineBreak?_eq_none fun b hb => (h.word b (hrest ▸ hb)).2)

theorem settle_token (h : StartsToken l.cursor.rest) (hindex : 0 < l.cursor.index) :
    l.settle = l := skipToToken_of_startsToken h hindex

theorem settle_space (hc : l.cursor.rest = ' ' :: rest) (h : StartsToken rest)
    (hindex : 0 < l.cursor.index) : l.settle = { l with cursor := l.cursor.advance [' '] } :=
  skipToToken_spaces (n := 1) hc h hindex

/-- A line break is passed over with the margin after it. A key may start there. -/
theorem settle_line (hflow : l.outer = []) (hc : l.cursor.rest = '\n' :: (margin n ++ rest))
    (h : StartsToken rest) :
    l.settle = { l with cursor := l.cursor.advance ('\n' :: margin n), keyAllowed := true } := by
  have hfeed : isBreak '\n' = true := by decide
  have hbreak : l.cursor.lineBreak? = some (['\n'], l.cursor.nextLine 1) :=
    lineBreak?_eq_some (by decide) hc
  have hpeek : l.cursor.peek = some '\n' := by
    rw [Cursor.peek, hc]
    rfl
  obtain ⟨bound, hlength⟩ : ∃ bound, l.cursor.rest.length = bound + 1 :=
    ⟨(margin n ++ rest).length, by rw [hc, List.length_cons]⟩
  have hspaces : ∀ {m : Lexer} {bound : Nat}, m.cursor = l.cursor.nextLine 1 →
      m.skipToToken (bound + 1) = { m with cursor := (l.cursor.nextLine 1).advance (margin n) } :=
    fun {m bound} hm => by
      have hrest : m.cursor.rest = margin n ++ rest := by
        rw [hm, rest_nextLine, hc]
        rfl
      rw [skipToToken_spaces hrest h (by rw [hm]; simp), hm]
  have hskip : l.cursor.skipWhile
      (fun b => b = ' ' || ((l.inFlow || !l.keyAllowed) && b = '\t')) = l.cursor :=
    skipWhile_of_head fun b hb => by
      rw [hc, List.head?_cons, Option.mem_some] at hb
      subst hb
      simp
  rw [settle, hlength, skipToToken_of_break (by simp [hpeek]) hskip (by simp [hpeek]) hbreak,
    advance_cons_of_break hfeed, hspaces rfl]
  simp [inFlow, hflow]

/-- After a scalar the lexer is where the gap after it ends. -/
theorem settle_afterScalar {indent : Nat} {broken : Bool} (hflow : l.outer = [])
    (hkey : l.keyAllowed = false) (hindex : 0 < l.cursor.index)
    (hafter : AfterScalar indent l.cursor.rest gap broken) :
    l.settle = { l with cursor := l.cursor.advance gap, keyAllowed := broken } := by
  have hstays : StartsToken l.cursor.rest → l.settle = { l with keyAllowed := false } := fun h => by
    rw [settle_token h hindex, ← hkey]
  generalize hrest : l.cursor.rest = rest at hafter hstays
  cases hafter with
  | nothing => exact hstays startsToken_nil
  | colon h => exact hstays (startsToken_cons (by decide) (by decide) (by decide))
  | line h hstarts => exact settle_line hflow hrest hstarts

theorem dropStale?_eq {p : Option PossibleKey} (hflow : l.outer = [])
    (h : refresh? l.cursor l.possible = some p) : l.dropStale? = some { l with possible := p } := by
  rw [dropStale?, h, hflow]
  rfl

/-- Blocks that are not deeper than the next token stay open. -/
theorem closeBlocks_eq_self {p : Nat → Bool} (h : ∀ i ∈ l.indents.head?, p i = false) :
    l.closeBlocks p = l := by
  have hnone : l.indents.takeWhile p = [] ∧ l.indents.dropWhile p = l.indents := by
    cases hindents : l.indents with
    | nil => exact ⟨rfl, rfl⟩
    | cons i rest => simp [h i (by rw [hindents]; rfl)]
  rw [closeBlocks, hnone.1, hnone.2]
  split <;> rfl

/-- The inner blocks that are deeper than the next token are closed. -/
theorem closeBlocks_append {p : Nat → Bool} {inner outer : List Nat} (hflow : l.outer = [])
    (hindents : l.indents = inner ++ outer) (hinner : ∀ i ∈ inner, p i = true)
    (houter : ∀ i ∈ outer.head?, p i = false) :
    l.closeBlocks p =
      { l with
        indents := outer
        tokens := List.replicate inner.length .closeBlock ++ l.tokens } := by
  have hnone : outer.takeWhile p = [] ∧ outer.dropWhile p = outer := by
    cases outer with
    | nil => exact ⟨rfl, rfl⟩
    | cons i rest => simp [houter i rfl]
  rw [closeBlocks, hindents, List.takeWhile_append_of_pos hinner, List.dropWhile_append_of_pos hinner,
    hnone.1, hnone.2]
  simp [inFlow, hflow]

/-- Whether a possible key may turn out to be none. -/
def IsLoose (p : Option PossibleKey) : Prop := ∀ key ∈ p, key.isRequired = false

theorem exists_refresh? {p : Option PossibleKey} (h : IsLoose p) (c : Cursor) :
    ∃ p', refresh? c p = some p' ∧ IsLoose p' := by
  cases p with
  | none => exact ⟨none, rfl, h⟩
  | some key =>
    have hkey := h key rfl
    by_cases hstale : isStale c key = true
    · exact ⟨none, by simp [refresh?, hstale, hkey], fun _ h => by cases h⟩
    · exact ⟨some key, by simp [refresh?, hstale], h⟩

theorem dropKey?_eq (h : IsLoose l.possible) : l.dropKey? = some { l with possible := none } := by
  rw [dropKey?, if_neg]
  cases hp : l.possible with
  | none => simp
  | some key => simp [h key hp]

/-! ### Scalars -/

/-- The lexer after it noted that a key may start here. -/
def noted (l : Lexer) : Lexer :=
  if l.keyAllowed then
    { l with
      possible := some
        { isRequired := !l.inFlow && l.indents.head? = some l.cursor.column
          number := l.tokens.length
          index := l.cursor.index
          line := l.cursor.line
          column := l.cursor.column } }
  else l

theorem noteKey?_eq (h : IsLoose l.possible) : l.noteKey? = some l.noted := by
  rw [noteKey?, noted]
  split
  · rw [dropKey?_eq h]
    rfl
  · rfl

@[simp] theorem cursor_noted (l : Lexer) : l.noted.cursor = l.cursor := by
  rw [noted]
  split <;> rfl

@[simp] theorem indents_noted (l : Lexer) : l.noted.indents = l.indents := by
  rw [noted]
  split <;> rfl

@[simp] theorem outer_noted (l : Lexer) : l.noted.outer = l.outer := by
  rw [noted]
  split <;> rfl

@[simp] theorem tokens_noted (l : Lexer) : l.noted.tokens = l.tokens := by
  rw [noted]
  split <;> rfl

theorem exists_possible_noted (h : l.keyAllowed = true) (hflow : l.outer = []) :
    ∃ k, l.noted.possible = some k ∧
      k.isRequired = decide (l.indents.head? = some l.cursor.column) ∧
      k.number = l.tokens.length ∧ k.index = l.cursor.index ∧ k.line = l.cursor.line ∧
      k.column = l.cursor.column :=
  ⟨_, by rw [noted, if_pos h], by simp [inFlow, hflow], rfl, rfl, rfl, rfl⟩

/-- The place up to which plain text goes on, at the start of its lines. -/
def indent (l : Lexer) : Nat := (l.indents.head?.map (· + 1)).getD 0

variable {t : Text} {column : Nat} {broken : Bool}

theorem take_eq_marker {t tail mark : Text} {indent : Nat} (hmark : mark.length = 3)
    (hsigns : ∀ b ∈ mark, b ≠ ':' ∧ b ≠ '\n') (hafter : AfterScalar indent tail gap broken)
    (h : (t ++ tail).take 3 = mark) : mark <+: t := by
  by_cases hlong : 3 ≤ t.length
  · rw [List.take_append_of_le_length hlong] at h
    exact h ▸ List.take_prefix 3 t
  · exfalso
    have hlength := congrArg List.length h
    rw [List.length_take, List.length_append, hmark] at hlength
    cases htail : tail with
    | nil =>
      rw [htail, List.length_nil] at hlength
      omega
    | cons b rest =>
      have hmem : b ∈ mark := by
        rw [← h, htail, List.take_append]
        refine List.mem_append_right _ ?_
        obtain ⟨k, hk⟩ : ∃ k, 3 - t.length = k + 1 := ⟨3 - t.length - 1, by omega⟩
        rw [hk, List.take_succ_cons]
        exact List.mem_cons_self
      subst htail
      cases hafter with
      | colon => exact (hsigns _ hmem).1 rfl
      | line => exact (hsigns _ hmem).2 rfl

/-- A plain text is no mark of the start or the end of a document. -/
theorem isAtMarker_plain {c : Cursor} {indent : Nat} (ht : startsWithIndicator t = false)
    (hne : t ≠ []) (hafter : AfterScalar indent tail gap broken) (hc : c.rest = t ++ tail) :
    c.isAtMarker = false := by
  obtain ⟨b, rest, rfl⟩ := List.exists_cons_of_ne_nil hne
  have hmarks : Text.stripStart? "---" (b :: rest) = none ∧
      Text.stripStart? "..." (b :: rest) = none := by
    rw [startsWithIndicator, Bool.or_eq_false_iff, Bool.or_eq_false_iff] at ht
    exact ⟨not_not.1 (of_decide_eq_false ht.1.2), not_not.1 (of_decide_eq_false ht.2)⟩
  have hnone : ∀ mark : Text, mark.length = 3 → (∀ b ∈ mark, b ≠ ':' ∧ b ≠ '\n') →
      Text.stripStart? mark (b :: rest) = none → c.rest.take 3 ≠ mark := by
    rintro mark hlength hsigns hnone h
    rw [hc] at h
    have hstart := take_eq_marker hlength hsigns hafter h
    rw [← List.isPrefixOf_iff_prefix, ← List.isSome_isPrefixOf?_eq_isPrefixOf] at hstart
    rw [Text.stripStart?] at hnone
    rw [hnone] at hstart
    cases hstart
  rw [isAtMarker]
  have hstart := hnone "---" (by decide) (by simp) hmarks.1
  have hend := hnone "..." (by decide) (by simp) hmarks.2
  simp only [hstart, hend, decide_false, Bool.or_false, Bool.and_false]

/-- A character that is a mark starts the token that is read at that mark. -/
theorem token?_of_mark {read : Lexer → Option Lexer} (hc : c ≠ '%')
    (hmarker : l.cursor.isAtMarker = false) (hread : marks.lookup c = some read)
    (next : Option Char) : l.token? c next = read l := by
  rw [token?, if_neg (by simp [hc]), if_neg (by simp [hmarker]), hread]

/-- The lexer with a further token that may be a key, up to the place `c`. -/
def afterContent (l : Lexer) (token : Token) (c : Cursor) (keyAllowed : Bool) : Lexer :=
  { l.noted with cursor := c, keyAllowed, tokens := token :: l.tokens }

/-- What has become of a lexer when a scalar was read that is written as `w`, with the gap after it
if that starts a line. -/
structure HasRead (l l' : Lexer) (token : Token) (w : Text) (broken : Bool) : Prop where
  settled : l'.settle = l.afterContent token (l.cursor.advance w) broken
  shorter : l'.cursor.rest.length < l.cursor.rest.length

theorem length_rest_advance {c : Cursor} {w rest : Text} (h : c.rest = w ++ rest) :
    (c.advance w).rest.length + w.length = c.rest.length := by
  rw [rest_advance h, h, List.length_append, Nat.add_comm]

theorem exists_eq_gap_append {indent : Nat} (h : AfterScalar indent tail gap broken) :
    ∃ rest, tail = gap ++ rest ∧ StartsToken rest := by
  cases h with
  | nothing => exact ⟨[], rfl, startsToken_nil⟩
  | colon => exact ⟨_, rfl, startsToken_cons (by decide) (by decide) (by decide)⟩
  | line _ hrest => exact ⟨_, rfl, hrest⟩

/-- A scalar between quotes ends before the gap that follows it. -/
theorem hasRead_quoted {w : Text} {indent : Nat} {l' : Lexer} (hflow : l.outer = []) (hne : w ≠ [])
    (hafter : AfterScalar indent tail gap broken) (hc : l.cursor.rest = w ++ tail)
    (hl' : l' = { l.noted.push (.scalar t false) with
      cursor := l.cursor.advance w, keyAllowed := false }) :
    HasRead l l' (.scalar t false) (w ++ gap) broken where
  settled := by
    have hpos := List.length_pos_of_ne_nil hne
    have hrest : (l.cursor.advance w).rest = tail := rest_advance hc
    subst hl'
    rw [settle_afterScalar (by simpa [push] using hflow) rfl (by rw [index_advance]; omega)
      (by rw [hrest]; exact hafter), advance_append]
    simp [push, afterContent]
  shorter := by
    have hlength := length_rest_advance hc
    have hpos := List.length_pos_of_ne_nil hne
    subst hl'
    show (l.cursor.advance w).rest.length < _
    omega

/-- A plain scalar ends after the gap that follows it. -/
theorem hasRead_plain {indent : Nat} {l' : Lexer} (hne : t ≠ [])
    (hafter : AfterScalar indent tail gap broken) (hc : l.cursor.rest = t ++ tail)
    (hl' : l' = { l.noted.push (.scalar t true) with
      cursor := l.cursor.advance (t ++ gap), keyAllowed := broken }) :
    HasRead l l' (.scalar t true) (t ++ gap) broken := by
  obtain ⟨rest, rfl, hrest⟩ := exists_eq_gap_append hafter
  have hpos := List.length_pos_of_ne_nil hne
  rw [← List.append_assoc] at hc
  constructor
  · subst hl'
    rw [settle_token]
    · simp [push, afterContent]
    · show StartsToken (l.cursor.advance (t ++ gap)).rest
      rw [rest_advance hc]
      exact hrest
    · show 0 < (l.cursor.advance (t ++ gap)).index
      rw [index_advance, List.length_append]
      omega
  · have hlength := length_rest_advance hc
    rw [List.length_append] at hlength
    subst hl'
    show (l.cursor.advance (t ++ gap)).rest.length < _
    omega

section Scalars

variable (hflow : l.outer = []) (hloose : IsLoose l.possible)
  (hindent : l.indent ≤ l.cursor.column + 1) (hafter : AfterScalar l.indent tail gap broken)

include hloose

theorem token?_quote {double : Bool} {w : Text}
    (hread : Token.quoted? double l.cursor = some (.scalar t false, l.cursor.advance w))
    (hc : l.cursor.rest = Token.quote double :: rest) :
    l.token? (Token.quote double) rest.head? =
      some { l.noted.push (.scalar t false) with
        cursor := l.cursor.advance w, keyAllowed := false } := by
  have hmarker : l.cursor.isAtMarker = false := by
    rw [isAtMarker, hc]
    cases double <;> simp [Token.quote]
  have hcontent : l.content? (Token.quoted? double) =
      some { l.noted.push (.scalar t false) with
        cursor := l.cursor.advance w, keyAllowed := false } := by
    rw [content?, noteKey?_eq hloose]
    simp [hread]
  rw [token?_of_mark (by cases double <;> decide) hmarker
    (show marks.lookup (Token.quote double) = some (content? · (Token.quoted? double)) by
      cases double <;> rfl)]
  exact hcontent

include hflow hindent hafter

theorem token?_plain {b : Char} (ht : IsPhrase (b :: t))
    (hstart : startsWithIndicator (b :: t) = false) (hc : l.cursor.rest = b :: (t ++ tail)) :
    l.token? b (t ++ tail).head? =
      some { l.noted.push (.scalar (b :: t) true) with
        cursor := l.cursor.advance (b :: t ++ gap), keyAllowed := broken } := by
  have hmarker := isAtMarker_plain hstart ht.ne_nil hafter hc
  have hplain : l.plain? = some { l.noted.push (.scalar (b :: t) true) with
      cursor := l.cursor.advance (b :: t ++ gap), keyAllowed := broken } := by
    have hread := Token.plain?_eq ht hmarker hindent hafter hc
    rw [indent] at hread
    rw [plain?, noteKey?_eq hloose]
    simp [hread, inFlow, hflow]
  rw [startsWithIndicator] at hstart
  simp only [Bool.or_eq_false_iff, decide_eq_false_iff_not] at hstart
  obtain ⟨⟨⟨hlead, hword⟩, -⟩, -⟩ := hstart
  have hmarks : marks.lookup b = none := by
    rw [List.lookup_eq_none_iff]
    intro mark hmark
    have hmem : mark.1 ∈ leadIndicators := by
      have hall : ∀ c ∈ marks.map Prod.fst, c ∈ leadIndicators := by simp [marks, leadIndicators]
      exact hall _ (List.mem_map_of_mem hmark)
    simp only [bne_iff_ne]
    rintro rfl
    exact hlead hmem
  have hreserved : ¬ b ∈ reserved := fun hmem => hlead <| by
    have hall : ∀ c ∈ reserved, c ∈ leadIndicators := by simp [reserved, leadIndicators]
    exact hall b hmem
  -- the marks of keys, values and entries need the end of a word after them
  have hends : (b = '?' || b = ':' || b = '-') = true → endsWord (t ++ tail).head? = false := by
    rintro hb
    rw [hb, Bool.true_and] at hword
    cases t with
    | nil => cases hword
    | cons d t => exact hword
  have hdash : ¬ (decide (b = '-') && endsWord (t ++ tail).head?) = true := by
    rw [Bool.and_eq_true, decide_eq_true_eq]
    rintro ⟨rfl, he⟩
    rw [hends rfl] at he
    cases he
  have hkey : ¬ (decide (b = '?') && (l.inFlow || endsWord (t ++ tail).head?)) = true := by
    rw [Bool.and_eq_true, decide_eq_true_eq]
    rintro ⟨rfl, he⟩
    rw [hends rfl, inFlow, hflow] at he
    cases he
  have hvalue : ¬ (decide (b = ':') && (l.inFlow || endsWord (t ++ tail).head?)) = true := by
    rw [Bool.and_eq_true, decide_eq_true_eq]
    rintro ⟨rfl, he⟩
    rw [hends rfl, inFlow, hflow] at he
    cases he
  have hother : ∀ c ∈ ['%', '|', '>'], b ≠ c := by
    rintro c hc rfl
    have hall : ∀ c ∈ ['%', '|', '>'], c ∈ leadIndicators := by simp [leadIndicators]
    exact hlead (hall b hc)
  have hblank : isBlank b = false :=
    isBlank_of_isPrintable (ht.printable b List.mem_cons_self) (ht.first b rfl)
  rw [token?, if_neg (by simp [hother '%']), if_neg (by simp [hmarker]), hmarks]
  dsimp only
  rw [if_neg hdash, if_neg hkey, if_neg hvalue, if_neg (by simp [hother '|']),
    if_neg (by simp [hother '>']), if_neg (by simp [hreserved, hblank]), hplain]

/-- A plain text is read as it is. -/
theorem exists_token?_plain (ht : IsPhrase t) (hstart : startsWithIndicator t = false)
    (hc : l.cursor.rest = t ++ tail) : ∃ b rest l', l.cursor.rest = b :: rest ∧
      l.token? b rest.head? = some l' ∧ HasRead l l' (.scalar t true) (t ++ gap) broken := by
  obtain ⟨b, t, rfl⟩ := List.exists_cons_of_ne_nil ht.ne_nil
  exact ⟨b, t ++ tail, _, hc, token?_plain hflow hloose hindent hafter ht hstart hc,
    hasRead_plain ht.ne_nil hafter hc rfl⟩

/-- **A text is read back** as it was written on its line. -/
theorem exists_token?_lineText (hfeed : '\n' ∉ t) (hcolumn : 0 < column)
    (hc : l.cursor.rest = lineText column t ++ tail) : ∃ b rest l', l.cursor.rest = b :: rest ∧
      l.token? b rest.head? = some l' ∧
      HasRead l l' (.scalar t (styleOf t = .plain)) (lineText column t ++ gap) broken := by
  have hne := lineText_ne_nil column t
  cases hstyle : styleOf t with
  | literal => exact absurd hstyle (styleOf_ne_literal hfeed)
  | plain =>
    have hwritten : lineText column t = t := by rw [lineText, hstyle]
    have hplain := isPlain_of_styleOf hstyle
    have hstart : startsWithIndicator t = false := by
      have hindicator := hplain.noIndicator
      unfold holdsIndicator at hindicator
      exact (Bool.or_eq_false_iff.1 hindicator).1
    rw [hwritten] at hc ⊢
    exact exists_token?_plain hflow hloose hindent hafter (Token.isPhrase_of_isPlain hplain) hstart hc
  | singleQuoted =>
    have hread := Token.quoted?_single hstyle hcolumn hafter.head_ne_quote hc
    have hwritten : lineText column t = '\'' :: (singleQuotedFrom column false t ++ ['\'']) := by
      rw [lineText, hstyle]
    have hcons := hc
    rw [hwritten] at hcons
    exact ⟨_, _, _, hcons, token?_quote hloose hread hcons, hasRead_quoted hflow hne hafter hc rfl⟩
  | doubleQuoted =>
    have hread := Token.quoted?_double hstyle hc
    have hwritten : lineText column t = '\"' :: (t.flatMap doubleQuotedChar ++ ['\"']) := by
      rw [lineText, hstyle]
    have hcons := hc
    rw [hwritten] at hcons
    exact ⟨_, _, _, hcons, token?_quote hloose hread hcons, hasRead_quoted hflow hne hafter hc rfl⟩

end Scalars

/-! ### The next token -/

theorem length_lineBreak?_le {c next : Cursor} {text : Text} (h : c.lineBreak? = some (text, next)) :
    next.rest.length ≤ c.rest.length := by
  have hdrop : ∀ n, (c.nextLine n).rest.length ≤ c.rest.length := fun n => by
    rw [rest_nextLine, List.length_drop]
    exact Nat.sub_le _ _
  rw [lineBreak?] at h
  split at h
  · cases h
    exact hdrop 2
  · cases h
    exact hdrop 1
  · cases h
    exact hdrop 1
  · split at h
    · cases h
      exact hdrop 1
    · cases h
  · cases h

theorem length_skipToToken_le (bound : Nat) (l : Lexer) :
    (l.skipToToken bound).cursor.rest.length ≤ l.cursor.rest.length := by
  have hskip : ∀ (n : Nat) (c : Cursor), (c.skip n).rest.length ≤ c.rest.length := fun n c => by
    rw [rest_skip, List.length_drop]
    exact Nat.sub_le _ _
  induction bound generalizing l with
  | zero => exact Nat.le_refl _
  | succ bound ih =>
    rw [skipToToken]
    have hmark : (if (decide (l.cursor.index = 0) && decide (l.cursor.peek = some '\ufeff')) = true
        then l.cursor.skip 1 else l.cursor).rest.length ≤ l.cursor.rest.length := by
      split
      · exact hskip 1 _
      · exact Nat.le_refl _
    generalize (if (decide (l.cursor.index = 0) && decide (l.cursor.peek = some '\ufeff')) = true
      then l.cursor.skip 1 else l.cursor) = c₁ at hmark
    have hblanks := hskip (c₁.ahead fun b => b = ' ' || ((l.inFlow || !l.keyAllowed) && b = '\t')).length c₁
    generalize hc₂ : c₁.skipWhile _ = c₂
    rw [← skipWhile, hc₂] at hblanks
    have hcomment : (if c₂.peek = some '#' then c₂.skipWhile (!isBreak ·) else c₂).rest.length ≤
        c₂.rest.length := by
      split
      · exact hskip _ c₂
      · exact Nat.le_refl _
    generalize (if c₂.peek = some '#' then c₂.skipWhile (!isBreak ·) else c₂) = c₃ at hcomment
    have hall := Nat.le_trans hcomment (Nat.le_trans hblanks hmark)
    cases hbreak : c₃.lineBreak? with
    | none => exact hall
    | some next => exact Nat.le_trans (ih _) (Nat.le_trans (length_lineBreak?_le hbreak) hall)

theorem length_prepare?_le (h : l.prepare? = some s) :
    s.cursor.rest.length ≤ l.cursor.rest.length := by
  obtain ⟨m, hm, rfl⟩ := Option.map_eq_some_iff.1 h
  have hcursor : m.cursor = l.settle.cursor := by
    rw [dropStale?] at hm
    simp only [Option.bind_eq_bind, Option.bind_eq_some_iff, Option.pure_def, Option.some.injEq] at hm
    obtain ⟨_, -, _, -, rfl⟩ := hm
    rfl
  have hclose : (m.closeBlocks fun indent => m.cursor.column < indent).cursor = m.cursor := by
    rw [closeBlocks]
    split <;> rfl
  rw [hclose, hcursor]
  exact length_skipToToken_le _ l

theorem Reaches.read (hs : l.prepare? = some s) (hrest : s.cursor.rest = c :: rest)
    (ht : s.token? c rest.head? = some l')
    (hlength : l'.cursor.rest.length < s.cursor.rest.length) : Reaches l l' :=
  .token hs hrest ht (Nat.lt_of_lt_of_le hlength (length_prepare?_le hs))

theorem prepare?_eq {p : Option PossibleKey} (hs : l.settle = s) (hflow : s.outer = [])
    (hfresh : refresh? s.cursor s.possible = some p)
    (hopen : ∀ i ∈ s.indents.head?, i ≤ s.cursor.column) :
    l.prepare? = some { s with possible := p } := by
  rw [prepare?, hs, dropStale?_eq hflow hfresh, Option.map_some, closeBlocks_eq_self]
  intro i hi
  have hle : i ≤ s.cursor.column := hopen i hi
  simpa using hle

/-! ### Keys -/

/-- A lexer at a key at the column `n` in the blocks `outer`. The tokens before the key are `ts`, the
mark of the mapping included. -/
structure BeforeKey (s : Lexer) (n : Nat) (outer : List Nat) (ts : List Token) : Prop where
  flow : s.outer = []
  keyAllowed : s.keyAllowed = true
  loose : IsLoose s.possible
  column : s.cursor.column = n
  block : (s.indents = n :: outer ∧ s.tokens = ts) ∨
    (s.indents = outer ∧ (∀ i ∈ outer.head?, i < n) ∧ .openBlockMapping :: s.tokens = ts)

/-- A lexer after a mark of a mapping at the column `n`: after the mark of a key, or after a colon,
which shares its line with the key if `inLine` is set. -/
structure AfterMark (l : Lexer) (n : Nat) (outer : List Nat) (ts : List Token) (inLine : Bool) :
    Prop where
  flow : l.outer = []
  keyAllowed : l.keyAllowed = !inLine
  possible : l.possible = none
  indents : l.indents = n :: outer
  tokens : l.tokens = ts
  index : 0 < l.cursor.index
  column : n < l.cursor.column
  next : inLine = false → l.cursor.column = n + 1

variable {outer : List Nat} {ts after : List Token} {m : Lexer} {key : Text}

theorem BeforeKey.indent_le (hs : BeforeKey s n outer ts) : s.indent ≤ s.cursor.column + 1 := by
  rw [indent, hs.column]
  rcases hs.block with ⟨hindents, -⟩ | ⟨hindents, hlt, -⟩
  · simp [hindents]
  · rw [hindents]
    cases hhead : outer.head? with
    | none => simp
    | some i =>
      have hi := hlt i hhead
      simp
      omega

theorem BeforeKey.indents_le (hs : BeforeKey s n outer ts) : ∀ i ∈ s.indents.head?, i ≤ n := by
  rcases hs.block with ⟨hindents, -⟩ | ⟨hindents, hlt, -⟩
  · simp [hindents]
  · rw [hindents]
    exact fun i hi => Nat.le_of_lt (hlt i hi)

/-- The mapping of a key is opened before the key, unless it is open. -/
theorem BeforeKey.openBlock_eq (hs : BeforeKey s n outer ts) (hflow : m.outer = [])
    (hindents : m.indents = s.indents) (htokens : m.tokens = after ++ s.tokens) :
    m.openBlock n s.tokens.length .openBlockMapping =
      { m with indents := n :: outer, tokens := after ++ ts } := by
  obtain ⟨c, I, allowed, possible, O, T⟩ := m
  dsimp only at hflow hindents htokens
  subst hflow hindents htokens
  rcases hs.block with ⟨hindents, rfl⟩ | ⟨hindents, hlt, rfl⟩
  · rw [openBlock, if_neg (by simp [hindents]), hindents]
  · have hdeeper : s.indents.head?.all (· < n) = true := by
      rw [hindents]
      cases hhead : outer.head? with
      | none => rfl
      | some i => simpa using hlt i hhead
    rw [openBlock, if_pos (by simp [inFlow, hdeeper]), putIn, hindents]
    simp

/-- A colon that ends a word. -/
theorem token?_colon (hnext : endsWord rest.head? = true) (hc : l.cursor.rest = ':' :: rest) :
    l.token? ':' rest.head? = l.value? := by
  have hmarker : l.cursor.isAtMarker = false := by simp [isAtMarker, hc]
  have hmarks : marks.lookup ':' = none := by rfl
  rw [token?, if_neg (by simp), if_neg (by simp [hmarker]), hmarks]
  dsimp only
  rw [if_neg (by simp), if_neg (by simp), if_pos (by simp [hnext])]

theorem length_le_byteLength (t : Text) : t.length ≤ t.byteLength := by
  induction t with
  | nil => exact Nat.le_refl _
  | cons c t ih =>
    have hc := c.utf8Size_pos
    rw [List.length_cons, Text.byteLength]
    omega

/-- A key that shares a line with its colon is short enough for that. -/
theorem length_lineText_le_maxKeyLength (hkey : isLineKey key = true) (column : Nat) :
    (lineText column key).length ≤ maxKeyLength := by
  simp only [isLineKey, Bool.and_eq_true, Bool.not_eq_true', List.any_eq_false, decide_eq_true_eq]
    at hkey
  obtain ⟨hbreak, hshort⟩ := hkey
  have hlength := Token.length_lineText_le (fun c hc => by simpa using hbreak c hc) column
  have hbytes := length_le_byteLength key
  rw [Yaml.maxKeyLength] at hshort
  rw [maxKeyLength]
  omega

theorem noBreak_lineText (hkey : isLineKey key = true) (column : Nat) :
    ∀ b ∈ lineText column key, isBreak b = false := by
  simp only [isLineKey, Bool.and_eq_true, Bool.not_eq_true', List.any_eq_false] at hkey
  exact Token.noBreak_lineText (fun c hc => by simpa using hkey.1 c hc) column

/-- The colon right after a possible key. -/
theorem value?_of_possible {k : PossibleKey} {token : Token} (hs : BeforeKey s n outer ts)
    (hflow : l.outer = []) (hindents : l.indents = s.indents) (htokens : l.tokens = token :: s.tokens)
    (hpossible : l.possible = some k) (hnumber : k.number = s.tokens.length) (hcolumn : k.column = n) :
    l.value? = some { l with
      cursor := l.cursor.skip 1, possible := none, keyAllowed := false, indents := n :: outer
      tokens := .value :: token :: .key :: ts } := by
  have hput : l.putIn k.number [.key] = { l with tokens := token :: .key :: s.tokens } := by
    rw [putIn, hnumber, htokens]
    simp
  have hopen := hs.openBlock_eq (m := { l with tokens := token :: .key :: s.tokens }) hflow hindents
    (show _ = [token, .key] ++ s.tokens from rfl)
  rw [value?, hpossible]
  dsimp only
  rw [hput, hnumber, hcolumn, hopen]
  rfl

/-- **A key on the line of its value** is read with its colon. -/
theorem exists_afterMark_line (hl : l.prepare? = some s) (hs : BeforeKey s n outer ts)
    (hkey : isLineKey key = true) {column : Nat} (hpos : 0 < column)
    (hc : s.cursor.rest = lineText column key ++ ':' :: rest)
    (hnext : endsWord rest.head? = true) :
    ∃ l', Reaches l l' ∧ l'.cursor = s.cursor.advance (lineText column key ++ [':']) ∧
      AfterMark l' n outer (.value :: .scalar key (styleOf key = .plain) :: .key :: ts) true := by
  have hbreaks := noBreak_lineText hkey column
  have hlength := length_lineText_le_maxKeyLength hkey column
  have hfeed : '\n' ∉ key := by
    simp only [isLineKey, Bool.and_eq_true, Bool.not_eq_true', List.any_eq_false] at hkey
    exact fun hmem => hkey.1 _ hmem (by decide)
  obtain ⟨b, more, l₁, hb, htoken, hread⟩ :=
    exists_token?_lineText hs.flow hs.loose hs.indent_le (.colon hnext) hfeed hpos hc
  have hreach₁ := Reaches.read hl hb htoken hread.shorter
  rw [List.append_nil] at hread
  have hadvance : s.cursor.advance (lineText column key) =
      s.cursor.skip (lineText column key).length := advance_of_noBreak hbreaks _
  have hrest : (s.cursor.advance (lineText column key)).rest = ':' :: rest := rest_advance hc
  -- the key is neither on another line nor too far away at its colon
  obtain ⟨k, hk, -, hnumber, hindex, hline, hcolumn⟩ := exists_possible_noted hs.keyAllowed hs.flow
  have hfresh : refresh? (s.cursor.advance (lineText column key)) s.noted.possible = some (some k) := by
    have hnear : isStale (s.cursor.advance (lineText column key)) k = false := by
      simp only [isStale, Bool.or_eq_false_iff, decide_eq_false_iff_not, hadvance, line_skip,
        index_skip, hindex, hline]
      omega
    rw [hk, refresh?, hnear]
    rfl
  have hprepare := prepare?_eq hread.settled (by simpa [afterContent] using hs.flow) hfresh fun i hi => by
    have hle := hs.indents_le i (by simpa [afterContent] using hi)
    simp only [afterContent, hadvance, column_skip, hs.column]
    omega
  have hvalue := (token?_colon hnext hrest).trans (value?_of_possible
    (l := { s.afterContent (.scalar key (styleOf key = .plain))
      (s.cursor.advance (lineText column key)) false with possible := some k })
    hs (by simpa [afterContent] using hs.flow) (by simp [afterContent]) rfl rfl hnumber
    (hcolumn.trans hs.column))
  refine ⟨_, hreach₁.trans (.read hprepare hrest hvalue ?_), ?_, ?_⟩
  · show ((s.cursor.advance _).skip 1).rest.length < (s.cursor.advance _).rest.length
    rw [rest_skip, hrest]
    simp
  · show (s.cursor.advance _).skip 1 = _
    rw [advance_append, advance_cons_of_noBreak (by decide), advance_nil]
  · refine ⟨by simpa [afterContent] using hs.flow, rfl, rfl, rfl, rfl, ?_, ?_, fun h => by cases h⟩
    · show 0 < ((s.cursor.advance _).skip 1).index
      simp
    · show n < ((s.cursor.advance _).skip 1).column
      rw [hadvance, column_skip, column_skip, hs.column]
      omega

/-- A question mark that ends a word. -/
theorem token?_question (hnext : endsWord rest.head? = true) (hc : l.cursor.rest = '?' :: rest) :
    l.token? '?' rest.head? = l.key? := by
  have hmarker : l.cursor.isAtMarker = false := by simp [isAtMarker, hc]
  have hmarks : marks.lookup '?' = none := by rfl
  rw [token?, if_neg (by simp), if_neg (by simp [hmarker]), hmarks]
  dsimp only
  rw [if_neg (by simp), if_pos (by simp [hnext])]

/-- The mark of a key. -/
theorem exists_afterMark_question (hl : l.prepare? = some s) (hs : BeforeKey s n outer ts)
    (hc : s.cursor.rest = '?' :: rest) (hnext : endsWord rest.head? = true) :
    ∃ l', Reaches l l' ∧ l'.cursor = s.cursor.advance ['?'] ∧
      AfterMark l' n outer (.key :: ts) false := by
  have hopen := hs.openBlock_eq (m := s) hs.flow rfl (show _ = [] ++ s.tokens from rfl)
  have hkey : s.key? = some { s with
      cursor := s.cursor.skip 1, possible := none, keyAllowed := true, indents := n :: outer
      tokens := .key :: ts } := by
    rw [key?, if_neg (by simp [hs.keyAllowed]), hs.column, hopen, dropKey?_eq (by exact hs.loose)]
    simp [pushMark, inFlow, hs.flow]
  have hadvance : s.cursor.advance ['?'] = s.cursor.skip 1 := advance_singleton (by decide) _
  refine ⟨_, .read hl hc ((token?_question hnext hc).trans hkey) ?_, hadvance.symm, hs.flow, rfl, rfl,
    rfl, rfl, ?_, ?_, fun _ => ?_⟩
  · show (s.cursor.skip 1).rest.length < _
    rw [rest_skip, hc]
    simp
  · show 0 < (s.cursor.skip 1).index
    rw [index_skip]
    omega
  · show n < (s.cursor.skip 1).column
    rw [column_skip, hs.column]
    omega
  · show (s.cursor.skip 1).column = n + 1
    rw [column_skip, hs.column]

/-- A colon that no possible key is before. -/
theorem value?_of_indents (hflow : l.outer = []) (hkey : l.keyAllowed = true)
    (hpossible : l.possible = none) (hindents : l.indents = l.cursor.column :: outer) :
    l.value? = some { l with
      cursor := l.cursor.skip 1, keyAllowed := true, tokens := .value :: l.tokens } := by
  have hopen : l.openBlock l.cursor.column l.tokens.length .openBlockMapping = l := by
    rw [openBlock, if_neg (by simp [hindents])]
  rw [value?, hpossible]
  dsimp only
  rw [if_neg (by simp [hkey]), hopen]
  simp [pushMark, inFlow, hflow, hpossible]

variable {inLine : Bool}

/-- A space after a mark is passed over. -/
theorem AfterMark.prepare?_space (h : AfterMark l n outer ts inLine) (hc : l.cursor.rest = ' ' :: rest)
    (hrest : StartsToken rest) :
    l.prepare? = some { l with cursor := l.cursor.advance [' '] } := by
  have hspace : l.cursor.advance [' '] = l.cursor.skip 1 := advance_singleton (by decide) _
  have hprepare := prepare?_eq (settle_space hc hrest h.index) (by exact h.flow)
    (by rw [h.possible]; rfl : refresh? (l.cursor.advance [' ']) l.possible = some none) fun i hi => by
      have hcolumn := h.column
      simp only [h.indents, List.head?_cons, Option.mem_some] at hi
      simp only [hspace, column_skip]
      omega
  rw [hprepare, ← h.possible]

/-- A scalar after a mark. -/
theorem AfterMark.exists_content {token : Token} {w : Text} (h : AfterMark l n outer ts inLine)
    (hafter : AfterScalar (n + 1) tail gap broken) (hc : l.cursor.rest = ' ' :: (w ++ tail))
    (hstarts : StartsToken (w ++ tail))
    (hread : ∀ s : Lexer, s.outer = [] → IsLoose s.possible → s.indent ≤ s.cursor.column + 1 →
      AfterScalar s.indent tail gap broken → s.cursor.rest = w ++ tail →
      ∃ b rest l', s.cursor.rest = b :: rest ∧ s.token? b rest.head? = some l' ∧
        HasRead s l' token (w ++ gap) broken) :
    ∃ l', Reaches l l' ∧
      HasRead { l with cursor := l.cursor.advance [' '] } l' token (w ++ gap) broken := by
  have hprepare := h.prepare?_space hc hstarts
  have hspace : l.cursor.advance [' '] = l.cursor.skip 1 := advance_singleton (by decide) _
  have hindent : ({ l with cursor := l.cursor.advance [' '] } : Lexer).indent = n + 1 := by
    simp [indent, h.indents]
  obtain ⟨b, more, l', hb, htoken, hread⟩ :=
    hread { l with cursor := l.cursor.advance [' '] } h.flow
      (fun k hk => by rw [show _ = none from h.possible] at hk; cases hk)
      (by
        have hcolumn := h.column
        rw [hindent, hspace, column_skip]
        omega)
      (by rw [hindent]; exact hafter) (rest_advance hc)
  exact ⟨l', .read hprepare hb htoken hread.shorter, hread⟩

/-- A text after a mark. -/
theorem AfterMark.exists_text (h : AfterMark l n outer ts inLine) (hfeed : '\n' ∉ t)
    (hpos : 0 < column) (hafter : AfterScalar (n + 1) tail gap broken)
    (hc : l.cursor.rest = ' ' :: (lineText column t ++ tail)) :
    ∃ l', Reaches l l' ∧ HasRead { l with cursor := l.cursor.advance [' '] } l'
      (.scalar t (styleOf t = .plain)) (lineText column t ++ gap) broken :=
  h.exists_content hafter hc (Token.startsToken_lineText _ _ _)
    fun _ hflow hloose hindent hafter hc =>
      exists_token?_lineText hflow hloose hindent hafter hfeed hpos hc

/-- A possible key of the line before is given up. -/
theorem prepare?_line {token : Token} {w : Text} {l' : Lexer}
    (hsettled : l'.settle = l.afterContent token (l.cursor.advance (w ++ '\n' :: margin n)) true)
    (hflow : l.outer = []) (hkey : l.keyAllowed = true) (hindents : l.indents = n :: outer)
    (hcolumn : n < l.cursor.column) :
    l'.prepare? = some { l with
      cursor := l.cursor.advance (w ++ '\n' :: margin n), keyAllowed := true, possible := none
      tokens := token :: l.tokens } := by
  obtain ⟨k, hk, hrequired, -, -, hline, -⟩ := exists_possible_noted hkey hflow
  have hlater : l.cursor.line < (l.cursor.advance (w ++ '\n' :: margin n)).line := by
    rw [advance_append]
    exact Nat.lt_of_le_of_lt (line_le_advance _ w) (line_lt_advance (by decide) _ _)
  have hstale : refresh? (l.cursor.advance (w ++ '\n' :: margin n)) l.noted.possible = some none := by
    have hstale : isStale (l.cursor.advance (w ++ '\n' :: margin n)) k = true := by
      simp [isStale, hline, hlater]
    have hloose : k.isRequired = false := by
      rw [hrequired, hindents]
      simpa using Nat.ne_of_lt hcolumn
    simp [hk, refresh?, hstale, hloose]
  have hmargin : (l.cursor.advance (w ++ '\n' :: margin n)).column = n := by
    rw [column_advance_break (by decide) (fun b hb => by rw [List.eq_of_mem_replicate hb]; decide)]
    exact List.length_replicate
  rw [prepare?_eq hsettled (by simpa [afterContent] using hflow) hstale fun i hi => by
    simp only [afterContent, indents_noted, hindents, List.head?_cons, Option.mem_some] at hi
    simp only [afterContent, hmargin]
    omega]
  simp [afterContent]

/-- **A key with a mark of its own** is read with the colon on the line after it. -/
theorem exists_afterMark_marked (hl : l.prepare? = some s) (hs : BeforeKey s n outer ts)
    (hfeed : '\n' ∉ key) {column : Nat} (hpos : 0 < column)
    (hc : s.cursor.rest =
      '?' :: ' ' :: (lineText column key ++ '\n' :: (margin n ++ ':' :: rest)))
    (hnext : endsWord rest.head? = true) :
    ∃ l', Reaches l l' ∧ l'.cursor =
        s.cursor.advance ('?' :: ' ' :: (lineText column key ++ '\n' :: (margin n ++ [':']))) ∧
      AfterMark l' n outer (.value :: .scalar key (styleOf key = .plain) :: .key :: ts) false := by
  -- the mark and the key after it
  obtain ⟨l₁, hreach₁, hcursor₁, hl₁⟩ := exists_afterMark_question hl hs hc (by rfl)
  have hc₁ : l₁.cursor.rest =
      ' ' :: (lineText column key ++ '\n' :: (margin n ++ ':' :: rest)) := by
    rw [hcursor₁]
    exact rest_advance hc
  obtain ⟨l₂, hreach₂, hread⟩ := hl₁.exists_text hfeed hpos (.line (Nat.lt_succ_self n)
    (startsToken_cons (by decide) (by decide) (by decide))) hc₁
  -- the colon on the next line
  have hspace : l₁.cursor.advance [' '] = l₁.cursor.skip 1 := advance_singleton (by decide) _
  have hprepare := prepare?_line hread.settled (by exact hl₁.flow) (by exact hl₁.keyAllowed)
    (by exact hl₁.indents) (by
      have hcolumn := hl₁.column
      simp only [hspace, column_skip]
      omega)
  dsimp only at hprepare
  rw [← advance_append, hcursor₁, ← advance_append] at hprepare
  have hrest : (s.cursor.advance (['?'] ++ ([' '] ++ (lineText column key ++ '\n' :: margin n)))).rest =
      ':' :: rest := rest_advance (by rw [hc]; simp)
  have hmargin : (s.cursor.advance
      (['?'] ++ ([' '] ++ (lineText column key ++ '\n' :: margin n)))).column = n := by
    rw [← List.append_assoc, ← List.append_assoc,
      column_advance_break (by decide) (fun b hb => by rw [List.eq_of_mem_replicate hb]; decide)]
    exact List.length_replicate
  have hvalue := token?_colon (l := { l₁ with
    cursor := s.cursor.advance (['?'] ++ ([' '] ++ (lineText column key ++ '\n' :: margin n)))
    keyAllowed := true, possible := none
    tokens := .scalar key (styleOf key = .plain) :: l₁.tokens }) hnext hrest
  rw [value?_of_indents (by exact hl₁.flow) rfl rfl (by
    rw [show _ = n :: outer from hl₁.indents, show _ = n from hmargin])] at hvalue
  refine ⟨_, hreach₁.trans (hreach₂.trans (.read hprepare hrest hvalue ?_)), ?_, hl₁.flow, rfl, rfl,
    hl₁.indents, ?_, ?_, ?_, fun _ => ?_⟩
  · show ((s.cursor.advance _).skip 1).rest.length < (s.cursor.advance _).rest.length
    rw [rest_skip, hrest]
    simp
  · show (s.cursor.advance _).skip 1 = _
    rw [← advance_singleton (show isBreak ':' = false by decide), ← advance_append]
    simp
  · show _ :: _ :: l₁.tokens = _
    rw [hl₁.tokens]
  · show 0 < ((s.cursor.advance _).skip 1).index
    rw [index_skip]
    omega
  · show n < ((s.cursor.advance _).skip 1).column
    rw [column_skip, hmargin]
    omega
  · show ((s.cursor.advance _).skip 1).column = n + 1
    rw [column_skip, hmargin]

/-! ### Values -/

/-- What may follow a value in a mapping at the column `n`, and the gap before the next token: nothing,
or a line that is not deeper than the mapping. -/
inductive AfterValue (n : Nat) : Text → Text → Prop
  | nothing : AfterValue n [] []
  | line {column : Nat} {rest : Text} (h : column ≤ n) (hrest : StartsToken rest) :
      AfterValue n ('\n' :: (margin column ++ rest)) ('\n' :: margin column)

theorem AfterValue.exists_afterScalar (h : AfterValue n tail gap) :
    ∃ broken, AfterScalar (n + 1) tail gap broken ∧ (broken = false → tail = []) := by
  cases h with
  | nothing => exact ⟨false, .nothing, fun _ => rfl⟩
  | line h hrest => exact ⟨true, .line (Nat.lt_succ_of_le h) hrest, fun h => by cases h⟩

theorem AfterValue.mono {k : Nat} (h : AfterValue n tail gap) (hle : n ≤ k) :
    AfterValue k tail gap := by
  cases h with
  | nothing => exact .nothing
  | line h hrest => exact .line (Nat.le_trans h hle) hrest

/-- A lexer that has read a value in a mapping at the column `n`, up to the next token at `c`. Once
the blocks that are deeper are closed, the tokens are `ts`. -/
structure AtEnd (l : Lexer) (n : Nat) (outer : List Nat) (ts : List Token) (c : Cursor) : Prop where
  cursor : l.settle.cursor = c
  keyAllowed : c.rest ≠ [] → l.settle.keyAllowed = true
  flow : l.settle.outer = []
  loose : IsLoose l.settle.possible
  blocks : ∃ inner, l.settle.indents = inner ++ n :: outer ∧ (∀ i ∈ inner, n < i) ∧
    List.replicate inner.length .closeBlock ++ l.settle.tokens = ts

/-- The end of the value is the end of the blocks in it. -/
theorem AtEnd.close {k : Nat} {c : Cursor} (h : AtEnd l k (n :: outer) ts c) (hlt : n < k) :
    AtEnd l n outer (.closeBlock :: ts) c where
  cursor := h.cursor
  keyAllowed := h.keyAllowed
  flow := h.flow
  loose := h.loose
  blocks := by
    obtain ⟨inner, hindents, hinner, htokens⟩ := h.blocks
    refine ⟨inner ++ [k], by rw [hindents]; simp, fun i hi => ?_, ?_⟩
    · rcases List.mem_append.1 hi with hi | hi
      · exact Nat.lt_trans hlt (hinner i hi)
      · exact List.mem_singleton.1 hi ▸ hlt
    · rw [List.length_append, List.length_singleton, List.replicate_succ, ← htokens]
      rfl

/-- The next key of a mapping. -/
theorem AtEnd.exists_beforeKey {c : Cursor} (h : AtEnd l n outer ts c) (hrest : c.rest ≠ [])
    (hcolumn : c.column = n) :
    ∃ s, l.prepare? = some s ∧ s.cursor = c ∧ BeforeKey s n outer ts := by
  obtain ⟨inner, hindents, hinner, htokens⟩ := h.blocks
  obtain ⟨p, hp, hloose⟩ := exists_refresh? h.loose l.settle.cursor
  have hclose := closeBlocks_append (l := { l.settle with possible := p })
    (p := fun indent => l.settle.cursor.column < indent) h.flow hindents (fun i hi => by
      have hi := hinner i hi
      simpa [h.cursor, hcolumn] using hi) (by simp [h.cursor, hcolumn])
  have hprepare : l.prepare? = some { l.settle with possible := p, indents := n :: outer, tokens := ts } := by
    rw [prepare?, dropStale?_eq h.flow hp, Option.map_some, hclose, ← htokens]
  exact ⟨_, hprepare, h.cursor, h.flow, h.keyAllowed hrest, hloose,
    (congrArg Cursor.column h.cursor).trans hcolumn, .inl ⟨rfl, rfl⟩⟩

/-- What is noted after a mark need not be a key. -/
theorem AfterMark.loose_noted (h : AfterMark l n outer ts inLine) :
    IsLoose ({ l with cursor := l.cursor.advance [' '] } : Lexer).noted.possible := by
  have hspace : l.cursor.advance [' '] = l.cursor.skip 1 := advance_singleton (by decide) _
  intro k hk
  cases inLine with
  | true =>
    rw [noted, if_neg (by simp [h.keyAllowed]), show _ = none from h.possible] at hk
    cases hk
  | false =>
    obtain ⟨k', hk', hrequired, -⟩ := exists_possible_noted
      (l := { l with cursor := l.cursor.advance [' '] }) (by exact h.keyAllowed) (by exact h.flow)
    rw [hk'] at hk
    cases hk
    have hcolumn := h.column
    simp only [hrequired, h.indents, hspace, column_skip, List.head?_cons, Option.some.injEq,
      decide_eq_false_iff_not]
    omega

/-- Where no block was opened, none is to be closed. -/
theorem atEnd_of_settle {c : Cursor} (hs : l.settle = s) (hc : s.cursor = c)
    (hkey : s.keyAllowed = false → c.rest = []) (hflow : s.outer = []) (hloose : IsLoose s.possible)
    (hindents : s.indents = n :: outer) (htokens : s.tokens = ts) : AtEnd l n outer ts c := by
  subst hs
  exact ⟨hc, fun hne => by_contra fun h => hne (hkey (by simpa using h)), hflow, hloose, [], hindents,
    by simp, htokens⟩

/-- A scalar is a value. -/
theorem AfterMark.atEnd {token : Token} {w : Text} (h : AfterMark l n outer ts inLine)
    (hbroken : broken = false → tail = []) (hafter : AfterValue n tail gap)
    (hc : l.cursor.rest = ' ' :: (w ++ tail))
    (hread : HasRead { l with cursor := l.cursor.advance [' '] } l' token (w ++ gap) broken) :
    AtEnd l' n outer (token :: ts) (l.cursor.advance (' ' :: w ++ gap)) := by
  have hcursor : (l.cursor.advance [' ']).advance (w ++ gap) = l.cursor.advance (' ' :: w ++ gap) := by
    rw [← advance_append]
    rfl
  refine atEnd_of_settle hread.settled hcursor (fun hkey => ?_) (by simpa [afterContent] using h.flow)
    h.loose_noted (by simpa [afterContent] using h.indents) (by simp [afterContent, h.tokens])
  obtain rfl := hbroken hkey
  cases hafter
  exact rest_advance (by rw [hc]; simp)

/-- Values of a part of a document are read to their end. -/
def ReadsBack (v : Outline) : Prop :=
  ∀ {l : Lexer} {n : Nat} {outer : List Nat} {ts : List Token} {inLine : Bool} {w tail gap : Text},
    AfterMark l n outer ts inLine → writeValue n inLine v = w ++ ['\n'] → l.cursor.rest = w ++ tail →
    AfterValue n tail gap →
    ∃ l', Reaches l l' ∧ AtEnd l' n outer (v.tokens.reverse ++ ts) (l.cursor.advance (w ++ gap))

theorem readsBack_bool (value : Bool) : ReadsBack (.bool value) := by
  intro l n outer ts inLine w tail gap h hw hc hafter
  obtain ⟨broken, hscalar, hbroken⟩ := hafter.exists_afterScalar
  have hwritten : ∃ t : Text, w = ' ' :: t ∧ (Outline.bool value).tokens = [.scalar t true] ∧
      IsPhrase t ∧ startsWithIndicator t = false := by
    rw [writeValue] at hw
    cases value
    · exact ⟨"false".toList, List.append_cancel_right hw.symm, rfl, ⟨by decide,
        List.all_eq_true.1 (by decide), by simp [isBreak], by simp, by simp, by decide⟩, by decide⟩
    · exact ⟨"true".toList, List.append_cancel_right hw.symm, rfl, ⟨by decide,
        List.all_eq_true.1 (by decide), by simp [isBreak], by simp, by simp, by decide⟩, by decide⟩
  obtain ⟨t, rfl, htokens, ht, hstart⟩ := hwritten
  obtain ⟨l', hreach, hread⟩ := h.exists_content hscalar hc (ht.startsToken tail)
    fun _ hflow hloose hindent hafter hc => exists_token?_plain hflow hloose hindent hafter ht hstart hc
  exact ⟨l', hreach, htokens ▸ h.atEnd hbroken hafter hc hread⟩

theorem readsBack_text (hfeed : '\n' ∉ t) : ReadsBack (.text t) := by
  intro l n outer ts inLine w tail gap h hw hc hafter
  obtain ⟨broken, hscalar, hbroken⟩ := hafter.exists_afterScalar
  rw [writeValue, writeText_eq hfeed, ← List.cons_append] at hw
  obtain rfl := List.append_cancel_right hw
  obtain ⟨l', hreach, hread⟩ := h.exists_text hfeed (Nat.succ_pos _) hscalar hc
  exact ⟨l', hreach, h.atEnd hbroken hafter hc hread⟩

/-- A bracket that opens an empty mapping. -/
theorem exists_token?_openFlow (hflow : l.outer = []) (hloose : IsLoose l.possible)
    (hc : l.cursor.rest = '\x7b' :: '\x7d' :: rest) : ∃ l', l.token? '\x7b' (some '\x7d') = some l' ∧
      l' = { l.noted with
        cursor := l.cursor.advance ['\x7b'], keyAllowed := true, possible := none
        outer := [l.noted.possible], tokens := .openFlowMapping :: l.tokens } := by
  have hmarker : l.cursor.isAtMarker = false := by simp [isAtMarker, hc]
  have hopen : l.openFlow? .openFlowMapping = some { l.noted with
      cursor := l.cursor.advance ['\x7b'], keyAllowed := true, possible := none
      outer := [l.noted.possible], tokens := .openFlowMapping :: l.tokens } := by
    rw [openFlow?, noteKey?_eq hloose, advance_singleton (by decide)]
    simp [pushMark, hflow]
  exact ⟨_, (token?_of_mark (by decide) hmarker (by rfl) _).trans hopen, rfl⟩

/-- A bracket that closes an empty mapping. -/
theorem exists_token?_closeFlow {p : Option PossibleKey} (hflow : l.outer = [p])
    (hpossible : l.possible = none) (hc : l.cursor.rest = '\x7d' :: rest) (next : Option Char) :
    ∃ l', l.token? '\x7d' next = some l' ∧
      l' = { l with
        cursor := l.cursor.advance ['\x7d'], keyAllowed := false, possible := p, outer := []
        tokens := .closeFlowMapping :: l.tokens } := by
  have hmarker : l.cursor.isAtMarker = false := by simp [isAtMarker, hc]
  have hloose : IsLoose l.possible := fun k hk => by
    rw [hpossible] at hk
    cases hk
  have hclose : l.closeFlow? .closeFlowMapping = some { l with
      cursor := l.cursor.advance ['\x7d'], keyAllowed := false, possible := p, outer := []
      tokens := .closeFlowMapping :: l.tokens } := by
    rw [closeFlow?, dropKey?_eq hloose, advance_singleton (by decide)]
    simp [pushMark, hflow]
  exact ⟨_, (token?_of_mark (by decide) hmarker (by rfl) _).trans hclose, rfl⟩

/-- Within brackets no block is closed. -/
theorem prepare?_flow {p p' : Option PossibleKey} (hrest : StartsToken l.cursor.rest)
    (hindex : 0 < l.cursor.index) (hpossible : l.possible = none) (hflow : l.outer = [p])
    (hp : refresh? l.cursor p = some p') : l.prepare? = some { l with outer := [p'] } := by
  have hdrop : l.dropStale? = some { l with outer := [p'] } := by
    rw [dropStale?, hpossible, hflow, List.mapM_cons, hp, ← hpossible]
    rw [hpossible]
    rfl
  rw [prepare?, settle_token hrest hindex, hdrop, Option.map_some, closeBlocks, if_pos (by rfl)]

theorem readsBack_empty : ReadsBack (.mapping []) := by
  intro l n outer ts inLine w tail gap h hw hc hafter
  have hwritten : w = [' ', '\x7b', '\x7d'] := by
    rw [writeValue] at hw
    exact List.append_cancel_right hw.symm
  subst hwritten
  have hprepare := h.prepare?_space hc (startsToken_cons (by decide) (by decide) (by decide))
  obtain ⟨l₁, htoken₁, hl₁⟩ := exists_token?_openFlow (l := { l with cursor := l.cursor.advance [' '] })
    h.flow (fun k hk => by rw [show _ = none from h.possible] at hk; cases hk) (rest_advance hc)
  have hc₁ : l₁.cursor.rest = '\x7d' :: tail := by
    rw [hl₁]
    exact rest_advance (rest_advance hc)
  have hindex₁ : 0 < l₁.cursor.index := by
    rw [hl₁]
    show 0 < ((l.cursor.advance _).advance _).index
    rw [index_advance, List.length_singleton]
    omega
  obtain ⟨p, hp, hloose⟩ := exists_refresh? h.loose_noted l₁.cursor
  have hprepare₁ := prepare?_flow (hc₁ ▸ startsToken_cons (by decide) (by decide) (by decide)) hindex₁
    (by rw [hl₁]) (by rw [hl₁]) hp
  obtain ⟨l₂, htoken₂, hl₂⟩ := exists_token?_closeFlow (l := { l₁ with outer := [p] }) (by rfl)
    (by rw [hl₁]) hc₁ tail.head?
  have hopen : (l.cursor.advance [' ']).rest = '\x7b' :: '\x7d' :: tail := rest_advance hc
  have hreach₁ : Reaches l l₁ := .read hprepare hopen htoken₁ (by
    show _ < (l.cursor.advance [' ']).rest.length
    rw [hc₁, hopen]
    simp)
  have hrest₂ : (l₁.cursor.advance ['\x7d']).rest = tail := rest_advance hc₁
  have hreach₂ : Reaches l₁ l₂ := .read hprepare₁ hc₁ htoken₂ (by
    rw [hl₂]
    show (l₁.cursor.advance ['\x7d']).rest.length < l₁.cursor.rest.length
    rw [hrest₂, hc₁]
    simp)
  obtain ⟨broken, hscalar, hbroken⟩ := hafter.exists_afterScalar
  have hsettled := settle_afterScalar (l := l₂) (by rw [hl₂]) (by rw [hl₂])
    (by rw [hl₂]; show 0 < (l₁.cursor.advance _).index; rw [index_advance]; omega)
    (by rw [hl₂]; exact hrest₂ ▸ hscalar)
  have hcursor : l₂.cursor = l.cursor.advance [' ', '\x7b', '\x7d'] := by
    rw [hl₂]
    show l₁.cursor.advance _ = _
    rw [hl₁]
    show ((l.cursor.advance _).advance _).advance _ = _
    rw [← advance_append, ← advance_append]
    rfl
  refine ⟨l₂, hreach₁.trans hreach₂, atEnd_of_settle hsettled ?_ (fun hkey => ?_) ?_ ?_ ?_ ?_⟩
  · rw [hcursor, advance_append]
  · obtain rfl := hbroken hkey
    cases hafter
    exact rest_advance (by rw [hc]; simp)
  · rw [hl₂]
  · rw [hl₂]
    exact hloose
  · rw [hl₂, hl₁]
    simpa using h.indents
  · rw [hl₂, hl₁]
    show _ :: _ :: l.tokens = _
    rw [h.tokens]
    rfl

/-! ### Mappings -/

/-- Where a mapping starts after the colon of its key. -/
def mappingStart (n : Nat) (inLine : Bool) : Text :=
  if inLine then '\n' :: margin (n + 2) else [' ']

/-- The first key of a mapping that is the value of another key. -/
theorem AfterMark.exists_beforeKey (h : AfterMark l n outer ts inLine)
    (hc : l.cursor.rest = mappingStart n inLine ++ rest) (hrest : StartsToken rest) :
    ∃ s, l.prepare? = some s ∧ s.cursor = l.cursor.advance (mappingStart n inLine) ∧
      BeforeKey s (n + 2) (n :: outer) (.openBlockMapping :: ts) := by
  have hblock : ∀ i ∈ (n :: outer).head?, i < n + 2 := fun i hi => by
    simp only [List.head?_cons, Option.mem_some] at hi
    omega
  have hnone : IsLoose none := fun _ hk => by cases hk
  cases inLine with
  | true =>
    have hmargin : (l.cursor.advance ('\n' :: margin (n + 2))).column = n + 2 := by
      have hcolumn := column_advance_break (v := []) (w := margin (n + 2)) (show isBreak '\n' = true by
        decide) (fun b hb => by rw [List.eq_of_mem_replicate hb]; decide) l.cursor
      exact hcolumn.trans List.length_replicate
    have hprepare := prepare?_eq (settle_line h.flow hc hrest) (by exact h.flow)
      (by rw [h.possible]; rfl : refresh? _ l.possible = some none) fun i hi => by
        simp only [h.indents] at hi
        simp only [hmargin]
        exact Nat.le_of_lt (hblock i hi)
    exact ⟨_, hprepare, rfl, h.flow, rfl, hnone, hmargin, .inr ⟨h.indents, hblock, congrArg _ h.tokens⟩⟩
  | false =>
    have hspace : l.cursor.advance [' '] = l.cursor.skip 1 := advance_singleton (by decide) _
    refine ⟨_, h.prepare?_space hc hrest, rfl, h.flow, h.keyAllowed, h.possible.symm ▸ hnone, ?_,
      .inr ⟨h.indents, hblock, congrArg _ h.tokens⟩⟩
    show (l.cursor.advance [' ']).column = n + 2
    rw [hspace, column_skip, h.next rfl]

theorem writeKey_eq (hfeed : '\n' ∉ key) (n : Nat) :
    writeKey n key = if isLineKey key then lineText (n + 2) key ++ [':']
      else '?' :: ' ' :: (lineText (n + 2) key ++ '\n' :: (margin n ++ [':'])) := by
  rw [writeKey, writeText_eq hfeed]
  simp

/-- **A key is read** with its colon. -/
theorem exists_afterMark_key (hl : l.prepare? = some s) (hs : BeforeKey s n outer ts)
    (hfeed : '\n' ∉ key) (hc : s.cursor.rest = writeKey n key ++ rest)
    (hnext : endsWord rest.head? = true) :
    ∃ l', Reaches l l' ∧ l'.cursor = s.cursor.advance (writeKey n key) ∧
      AfterMark l' n outer (.value :: .scalar key (styleOf key = .plain) :: .key :: ts)
        (isLineKey key) := by
  rw [writeKey_eq hfeed] at hc ⊢
  cases hkey : isLineKey key with
  | true =>
    rw [hkey, if_pos rfl, List.append_assoc] at hc
    exact exists_afterMark_line hl hs hkey (Nat.succ_pos _) hc hnext
  | false =>
    rw [hkey, if_neg (by simp)] at hc
    exact exists_afterMark_marked hl hs hfeed (Nat.succ_pos (n + 1)) (by rw [hc]; simp) hnext

theorem startsToken_writeKey (hfeed : '\n' ∉ key) (n : Nat) (rest : Text) :
    StartsToken (writeKey n key ++ rest) := by
  rw [writeKey_eq hfeed]
  split
  · rw [List.append_assoc]
    exact Token.startsToken_lineText _ _ _
  · exact startsToken_cons (by decide) (by decide) (by decide)

/-- The lines of the entries of a mapping. -/
def entryLines (n : Nat) (entries : List (Text × Outline)) : Text :=
  Text.join (margin n) (writeEntries n entries)

theorem entryLines_singleton (n : Nat) (key : Text) (v : Outline) :
    entryLines n [(key, v)] = writeKey n key ++ writeValue n (isLineKey key) v := by
  simp [entryLines, writeEntries_eq, Text.join]

theorem entryLines_cons (n : Nat) (key : Text) (v : Outline) {entries : List (Text × Outline)}
    (hne : entries ≠ []) :
    entryLines n ((key, v) :: entries) =
      writeKey n key ++ writeValue n (isLineKey key) v ++ margin n ++ entryLines n entries := by
  obtain ⟨e, entries, rfl⟩ := List.exists_cons_of_ne_nil hne
  simp [entryLines, writeEntries_eq, Text.join, List.intercalate_cons_cons]

/-- A text that goes on where a word ends, up to the end of a line. -/
def IsTail (t : Text) : Prop := ∃ b w, t = b :: w ++ ['\n'] ∧ endsWord (some b) = true

variable {entries : List (Text × Outline)}

theorem exists_entryLines_eq (hne : entries ≠ [])
    (hends : ∀ e ∈ entries, ∀ n inLine, IsTail (writeValue n inLine e.2)) (n : Nat) :
    ∃ e ∈ entries, ∃ w, entryLines n entries = writeKey n e.1 ++ w ++ ['\n'] := by
  induction entries with
  | nil => exact absurd rfl hne
  | cons e entries ih =>
    refine ⟨e, List.mem_cons_self, ?_⟩
    obtain ⟨b, w, hw, -⟩ := hends e List.mem_cons_self n (isLineKey e.1)
    by_cases hlast : entries = []
    · subst hlast
      exact ⟨b :: w, by rw [entryLines_singleton, hw, List.append_assoc]⟩
    · obtain ⟨e', -, w', hw'⟩ := ih hlast fun e' he' => hends e' (List.mem_cons_of_mem e he')
      exact ⟨b :: w ++ ['\n'] ++ margin n ++ (writeKey n e'.1 ++ w'), by
        rw [entryLines_cons n e.1 e.2 hlast, hw, hw']; simp only [List.append_assoc]⟩

theorem writeValue_mapping (hne : entries ≠ []) (n : Nat) (inLine : Bool) :
    writeValue n inLine (.mapping entries) = mappingStart n inLine ++ entryLines (n + 2) entries := by
  obtain ⟨e, entries, rfl⟩ := List.exists_cons_of_ne_nil hne
  rw [writeValue]
  · rfl
  · simp

theorem writeKey_ne_nil (n : Nat) (key : Text) : writeKey n key ≠ [] := by
  rw [writeKey]
  split <;> simp

/-- A value starts with a space or on a line of its own, and ends its line. -/
theorem isTail_writeValue {v : Outline} {depth : Nat} (hv : v.IsSound depth) (n : Nat)
    (inLine : Bool) : IsTail (writeValue n inLine v) := by
  induction hv generalizing n inLine with
  | bool value =>
    rw [writeValue]
    cases value
    · exact ⟨' ', "false".toList, rfl, by decide⟩
    · exact ⟨' ', "true".toList, rfl, by decide⟩
  | text h =>
    rw [writeValue, writeText_eq h]
    exact ⟨' ', lineText (n + 2) _, rfl, by decide⟩
  | @mapping depth entries hkeys hdistinct hvalues ih =>
    by_cases hne : entries = []
    · subst hne
      rw [writeValue]
      exact ⟨' ', "\x7b\x7d".toList, rfl, by decide⟩
    · obtain ⟨e, -, w, hw⟩ := exists_entryLines_eq hne ih (n + 2)
      rw [writeValue_mapping hne, hw, mappingStart]
      cases inLine
      · exact ⟨' ', writeKey (n + 2) e.1 ++ w, by simp, by decide⟩
      · exact ⟨'\n', margin (n + 2) ++ (writeKey (n + 2) e.1 ++ w), by simp, by decide⟩

/-- **The entries of a mapping are read** to their end. -/
theorem exists_atEnd_entries {w : Text} (hne : entries ≠ []) (hkeys : ∀ e ∈ entries, '\n' ∉ e.1)
    (hends : ∀ e ∈ entries, ∀ n inLine, IsTail (writeValue n inLine e.2))
    (hvalues : ∀ e ∈ entries, ReadsBack e.2) (hl : l.prepare? = some s)
    (hs : BeforeKey s n outer ts) (hw : entryLines n entries = w ++ ['\n'])
    (hc : s.cursor.rest = w ++ tail) (hafter : AfterValue n tail gap) :
    ∃ l', Reaches l l' ∧
      AtEnd l' n outer ((entryTokens entries).reverse ++ ts) (s.cursor.advance (w ++ gap)) := by
  induction entries generalizing l s ts w with
  | nil => exact absurd rfl hne
  | cons e entries ih =>
    obtain ⟨key, v⟩ := e
    have hkey := hkeys _ List.mem_cons_self
    obtain ⟨b, value, hvalue, hb⟩ := hends _ List.mem_cons_self n (isLineKey key)
    dsimp only at hkey hvalue
    by_cases hlast : entries = []
    · subst hlast
      rw [entryLines_singleton, hvalue, ← List.append_assoc] at hw
      obtain rfl := List.append_cancel_right hw
      rw [List.append_assoc] at hc ⊢
      obtain ⟨l₁, hreach₁, hcursor₁, hl₁⟩ := exists_afterMark_key hl hs hkey hc hb
      obtain ⟨l', hreach, hend⟩ := hvalues _ List.mem_cons_self hl₁ hvalue
        (by rw [hcursor₁]; exact rest_advance hc) hafter
      refine ⟨l', hreach₁.trans hreach, ?_⟩
      rw [hcursor₁, ← advance_append] at hend
      simpa [entryTokens] using hend
    · have hrest := fun e he => hends e (List.mem_cons_of_mem (key, v) he)
      obtain ⟨e', he', more, hmore⟩ := exists_entryLines_eq hlast hrest n
      have hstarts : StartsToken (writeKey n e'.1 ++ more ++ tail) := by
        rw [List.append_assoc]
        exact startsToken_writeKey (hkeys e' (List.mem_cons_of_mem _ he')) n _
      rw [entryLines_cons n key v hlast, hvalue, hmore, ← List.append_assoc] at hw
      obtain rfl := List.append_cancel_right hw
      have hline : AfterValue n ('\n' :: (margin n ++ (writeKey n e'.1 ++ more ++ tail)))
          ('\n' :: margin n) := .line (Nat.le_refl n) hstarts
      have hc' : s.cursor.rest = writeKey n key ++ (b :: value ++
          '\n' :: (margin n ++ (writeKey n e'.1 ++ more ++ tail))) := by rw [hc]; simp
      obtain ⟨l₁, hreach₁, hcursor₁, hl₁⟩ := exists_afterMark_key hl hs hkey hc' hb
      obtain ⟨l₂, hreach₂, hend⟩ := hvalues _ List.mem_cons_self hl₁ hvalue
        (by rw [hcursor₁]; exact rest_advance hc') hline
      rw [hcursor₁, ← advance_append] at hend
      have hnext : (s.cursor.advance (writeKey n key ++ (b :: value ++ '\n' :: margin n))).rest =
          writeKey n e'.1 ++ more ++ tail := rest_advance (by rw [hc']; simp)
      have hcolumn : (s.cursor.advance (writeKey n key ++ (b :: value ++ '\n' :: margin n))).column =
          n := by
        rw [← List.append_assoc,
          column_advance_break (by decide) (fun d hd => by rw [List.eq_of_mem_replicate hd]; decide)]
        exact List.length_replicate
      have hkeyed : writeKey n e'.1 ++ more ++ tail ≠ [] := by simp [writeKey_ne_nil]
      obtain ⟨s', hprepare, hcursor, hs'⟩ := hend.exists_beforeKey (hnext ▸ hkeyed) hcolumn
      obtain ⟨l', hreach, hend'⟩ := ih hlast (fun e he => hkeys e (List.mem_cons_of_mem _ he)) hrest
        (fun e he => hvalues e (List.mem_cons_of_mem _ he)) hprepare hs' hmore (hcursor ▸ hnext)
      refine ⟨l', hreach₁.trans (hreach₂.trans hreach), ?_⟩
      rw [hcursor, ← advance_append] at hend'
      simpa [entryTokens] using hend'

theorem readsBack_mapping (hne : entries ≠ []) (hkeys : ∀ e ∈ entries, '\n' ∉ e.1)
    (hends : ∀ e ∈ entries, ∀ n inLine, IsTail (writeValue n inLine e.2))
    (hvalues : ∀ e ∈ entries, ReadsBack e.2) : ReadsBack (.mapping entries) := by
  intro l n outer ts inLine w tail gap h hw hc hafter
  obtain ⟨e, he, more, hmore⟩ := exists_entryLines_eq hne hends (n + 2)
  rw [writeValue_mapping hne, hmore, ← List.append_assoc] at hw
  obtain rfl := List.append_cancel_right hw
  rw [List.append_assoc] at hc ⊢
  have hstarts : StartsToken (writeKey (n + 2) e.1 ++ more ++ tail) := by
    rw [List.append_assoc]
    exact startsToken_writeKey (hkeys e he) (n + 2) _
  obtain ⟨s, hprepare, hcursor, hs⟩ := h.exists_beforeKey hc hstarts
  obtain ⟨l', hreach, hend⟩ := exists_atEnd_entries hne hkeys hends hvalues hprepare hs hmore
    (by rw [hcursor]; exact rest_advance hc) (hafter.mono (Nat.le_add_right n 2))
  refine ⟨l', hreach, ?_⟩
  have hclosed := hend.close (Nat.lt_add_of_pos_right (by decide))
  rw [hcursor, ← advance_append] at hclosed
  obtain ⟨e, entries, rfl⟩ := List.exists_cons_of_ne_nil hne
  simpa [Outline.tokens] using hclosed

/-- **Values are read** to their end. -/
theorem readsBack_of_isSound {v : Outline} {depth : Nat} (hv : v.IsSound depth) : ReadsBack v := by
  induction hv with
  | bool value => exact readsBack_bool value
  | text h => exact readsBack_text h
  | @mapping depth entries hkeys hdistinct hvalues ih =>
    by_cases hne : entries = []
    · exact hne ▸ readsBack_empty
    · exact readsBack_mapping hne (fun e he => (hkeys e he).noLineEnd)
        (fun e he => isTail_writeValue (hvalues e he)) ih

/-! ### Documents -/

/-- At the end of a document all blocks are closed, whatever the column there. -/
theorem closeBlocks_twice {p : Nat → Bool} (hflow : l.outer = []) :
    (l.closeBlocks p).closeBlocks (fun _ => true) =
      { l with
        indents := []
        tokens := List.replicate l.indents.length .closeBlock ++ l.tokens } := by
  have hfirst := closeBlocks_append (p := p) hflow (List.takeWhile_append_dropWhile (p := p)).symm
    (fun i hi => List.mem_takeWhile_imp hi) (fun i hi => by
      have hhead := List.head?_dropWhile_not p l.indents
      rw [Option.mem_def.1 hi] at hhead
      simpa using hhead)
  have hlength : l.indents.length =
      (l.indents.dropWhile p).length + (l.indents.takeWhile p).length := by
    rw [Nat.add_comm, ← List.length_append, List.takeWhile_append_dropWhile]
  rw [hfirst, closeBlocks_append (by exact hflow) (List.append_nil _).symm (fun _ _ => rfl) (by simp),
    hlength, List.replicate_add, List.append_assoc]

theorem AtEnd.run?_eq {c : Cursor} (h : AtEnd l 0 [] ts c) (hrest : c.rest = []) (bound : Nat) :
    l.run? (bound + 1) = some (.closeBlock :: ts).reverse := by
  obtain ⟨inner, hindents, -, htokens⟩ := h.blocks
  obtain ⟨p, hp, hloose⟩ := exists_refresh? h.loose l.settle.cursor
  have hprepare : l.prepare? = some (({ l.settle with possible := p } : Lexer).closeBlocks
      fun indent => l.settle.cursor.column < indent) := by
    rw [prepare?, dropStale?_eq h.flow hp, Option.map_some]
  have hcursor : ∀ q, (({ l.settle with possible := p } : Lexer).closeBlocks q).cursor.rest = [] :=
    fun q => by
      rw [closeBlocks]
      split <;> exact h.cursor ▸ hrest
  rw [run?_end hprepare (hcursor _), closeBlocks_twice (by exact h.flow), dropKey?_eq (by exact hloose),
    Option.map_some, hindents, List.length_append, ← htokens]
  rfl

/-- The first key of a document, which an empty line may be before. -/
theorem exists_beforeKey_start {lead : Text} (hlead : lead = [] ∨ lead = ['\n'])
    (hrest : StartsToken rest) (hmark : rest.head? ≠ some '\ufeff') :
    ∃ s, ({ cursor := { rest := lead ++ rest } } : Lexer).prepare? = some s ∧
      s.cursor = ({ rest := lead ++ rest } : Cursor).advance lead ∧
      BeforeKey s 0 [] [.openBlockMapping] := by
  have hnone : IsLoose none := fun _ hk => by cases hk
  rcases hlead with rfl | rfl
  · have hsettle : ({ cursor := { rest := rest } } : Lexer).settle = { cursor := { rest := rest } } := by
      have hblank : ∀ b ∈ rest.head?, (decide (b = ' ') || (false && decide (b = '\t'))) = false :=
        fun b hb => by
          have hblank := (hrest.word b hb).1
          simp only [isBlank, Bool.or_eq_false_iff] at hblank
          rw [hblank.1, Bool.false_and, Bool.or_false]
      exact skipToToken_of_noBreak (fun h => hmark h.2) (skipWhile_of_head hblank) hrest.noComment
        (lineBreak?_eq_none fun b hb => (hrest.word b hb).2)
    exact ⟨_, prepare?_eq hsettle rfl rfl (by simp), rfl, rfl, rfl, hnone, rfl,
      .inr ⟨rfl, by simp, rfl⟩⟩
  · exact ⟨_, prepare?_eq (settle_line (n := 0) rfl rfl hrest) rfl rfl (by simp), rfl, rfl, rfl, hnone,
      rfl, .inr ⟨rfl, by simp, rfl⟩⟩

end Lexer

/-! ### Characters -/

theorem isAllowed_of_isPrintable {c : Char} (h : isPrintable c = true) : isAllowed c = true := by
  simp only [isPrintable, Bool.or_eq_true, Bool.and_eq_true, decide_eq_true_eq] at h
  simp only [isAllowed, Bool.or_eq_true, Bool.and_eq_true, decide_eq_true_eq]
  rcases h with (rfl | h) | h
  · simp
  · exact .inl (.inl (.inr h))
  · exact .inr ⟨⟨h.1.1.1, h.1.2⟩, h.2⟩

theorem isPrintable_of_isAlphanum {c : Char} (h : c.isAlphanum = true) : isPrintable c = true := by
  change (decide ('A'.val ≤ c.val ∧ c.val ≤ 'Z'.val) || ('a'.val ≤ c.val && c.val ≤ 'z'.val) ||
    ('0'.val ≤ c.val && c.val ≤ '9'.val)) = true at h
  simp only [Bool.or_eq_true, Bool.and_eq_true, decide_eq_true_eq] at h
  have hrange : ' ' ≤ c ∧ c ≤ '~' := by
    constructor
    · show (32 : UInt32) ≤ c.val
      rcases h with (h | h) | h <;> exact UInt32.le_trans (by decide) h.1
    · show c.val ≤ (126 : UInt32)
      rcases h with (h | h) | h <;> exact UInt32.le_trans h.2 (by decide)
  simp [isPrintable, hrange]

theorem isPrintable_of_mem_doubleQuotedChar {c d : Char} (h : d ∈ doubleQuotedChar c) :
    isPrintable d = true := by
  have hhex : ∀ {width n : Nat}, d ∈ hex width n → isPrintable d = true := fun h =>
    isPrintable_of_isAlphanum (isAlphanum_of_mem_hex h)
  rw [doubleQuotedChar] at h
  split at h
  · next hplain =>
    simp only [Bool.and_eq_true] at hplain
    exact List.mem_singleton.1 h ▸ hplain.1.1.1
  · rcases List.mem_cons.1 h with rfl | h
    · decide
    · split at h
      · next letter hletter =>
        have hall : ∀ e ∈ shortEscapes, isPrintable e.2 = true := by decide
        obtain ⟨before, after, hsplit, -⟩ := List.lookup_eq_some_iff.1 hletter
        exact List.mem_singleton.1 h ▸ hall (c, letter) (by rw [hsplit]; simp)
      · split at h
        · rcases List.mem_cons.1 h with rfl | h
          · decide
          · exact hhex h
        · split at h
          · rcases List.mem_cons.1 h with rfl | h
            · decide
            · exact hhex h
          · rcases List.mem_cons.1 h with rfl | h
            · decide
            · exact hhex h

/-- A text is written in characters that a document may hold. -/
theorem isPrintable_of_mem_lineText {t : Text} {c : Char} {column : Nat} (h : c ∈ lineText column t) :
    isPrintable c = true := by
  rw [lineText] at h
  split at h
  · next hstyle => exact (isPlain_of_styleOf hstyle).printable c h
  · next hstyle =>
    simp only [List.mem_cons, List.mem_append, List.not_mem_nil, or_false] at h
    rcases h with rfl | h | rfl
    · decide
    · rcases mem_singleQuotedFrom h with h | rfl | rfl
      · exact (Token.isSingleQuoted_of_styleOf hstyle).printable c h
      · decide
      · decide
    · decide
  · simp only [List.mem_cons, List.mem_append, List.mem_flatMap, List.not_mem_nil, or_false] at h
    rcases h with rfl | ⟨d, -, h⟩ | rfl
    · decide
    · exact isPrintable_of_mem_doubleQuotedChar h
    · decide

theorem isPrintable_of_mem_margin {c : Char} {n : Nat} (h : c ∈ margin n) : isPrintable c = true := by
  rw [List.eq_of_mem_replicate h]
  decide

theorem isPrintable_of_mem_writeKey {key : Text} {c : Char} {n : Nat} (hfeed : '\n' ∉ key)
    (h : c ∈ writeKey n key) : isPrintable c = true := by
  rw [Lexer.writeKey_eq hfeed] at h
  split at h
  · simp only [List.mem_append, List.mem_singleton] at h
    rcases h with h | rfl
    · exact isPrintable_of_mem_lineText h
    · decide
  · simp only [List.mem_cons, List.mem_append, List.not_mem_nil, or_false] at h
    rcases h with rfl | rfl | h | rfl | h | rfl
    · decide
    · decide
    · exact isPrintable_of_mem_lineText h
    · decide
    · exact isPrintable_of_mem_margin h
    · decide

theorem isPrintable_of_mem_entryLines {entries : List (Text × Outline)} {c : Char} {n : Nat}
    (hkeys : ∀ e ∈ entries, '\n' ∉ e.1)
    (hvalues : ∀ e ∈ entries, ∀ n inLine, ∀ c ∈ writeValue n inLine e.2, isPrintable c = true)
    (h : c ∈ Lexer.entryLines n entries) : isPrintable c = true := by
  rcases Text.mem_join h with h | ⟨t, ht, h⟩
  · exact isPrintable_of_mem_margin h
  · rw [writeEntries_eq] at ht
    obtain ⟨e, he, rfl⟩ := List.mem_map.1 ht
    rcases List.mem_append.1 h with h | h
    · exact isPrintable_of_mem_writeKey (hkeys e he) h
    · exact hvalues e he _ _ c h

theorem isPrintable_of_mem_writeValue {v : Outline} {depth n : Nat} {inLine : Bool} {c : Char}
    (hv : v.IsSound depth) (h : c ∈ writeValue n inLine v) : isPrintable c = true := by
  induction hv generalizing n inLine c with
  | bool value =>
    have hall : ∀ c ∈ " true\n".toList ++ " false\n".toList, isPrintable c = true :=
      List.all_eq_true.1 (by decide)
    rw [writeValue] at h
    refine hall c ?_
    cases value
    · exact List.mem_append_right _ h
    · exact List.mem_append_left _ h
  | text hfeed =>
    rw [writeValue, writeText_eq hfeed] at h
    simp only [List.mem_cons, List.mem_append, List.not_mem_nil, or_false] at h
    rcases h with rfl | h | rfl
    · decide
    · exact isPrintable_of_mem_lineText h
    · decide
  | @mapping depth entries hkeys hdistinct hvalues ih =>
    by_cases hne : entries = []
    · have hall : ∀ c ∈ " \x7b\x7d\n".toList, isPrintable c = true :=
        List.all_eq_true.1 (by decide)
      subst hne
      rw [writeValue] at h
      exact hall c h
    · rw [Lexer.writeValue_mapping hne, List.mem_append, Lexer.mappingStart] at h
      rcases h with h | h
      · split at h
        · rcases List.mem_cons.1 h with rfl | h
          · decide
          · exact isPrintable_of_mem_margin h
        · rw [List.mem_singleton.1 h]
          decide
      · exact isPrintable_of_mem_entryLines (fun e he => (hkeys e he).noLineEnd)
          (fun e he _ _ _ h => ih e he h) h

/-! ### The whole document -/

theorem render_eq (entries : List (Text × Outline)) : render entries = Lexer.entryLines 0 entries := by
  have hjoin : ∀ ts : List Text, Text.join (margin 0) ts = ts.flatten := by
    intro ts
    induction ts with
    | nil => rfl
    | cons t ts ih =>
      cases ts with
      | nil => simp [Text.join]
      | cons t' ts =>
        rw [Text.join, List.intercalate_cons_cons, ← Text.join, ih]
        simp [margin]
  rw [render, Lexer.entryLines, hjoin]

/-- A document ends its last line. -/
theorem exists_eq_render {entries : List (Text × Outline)} {depth : Nat}
    (h : Outline.IsSound depth (.mapping entries)) (hne : entries ≠ []) :
    ∃ t, t ++ ['\n'] = render entries := by
  cases h with
  | mapping hkeys hdistinct hvalues =>
    obtain ⟨e, he, w, hw⟩ := Lexer.exists_entryLines_eq hne
      (fun e he => Lexer.isTail_writeValue (hvalues e he)) 0
    exact ⟨writeKey 0 e.1 ++ w, by rw [render_eq, hw]⟩

/-- **A document is cut into its tokens** when it is read back: as it was written, or with an empty
line before it, or without the end of its last line. -/
theorem tokens?_render {entries : List (Text × Outline)} {depth : Nat} {lead tail t : Text}
    (h : Outline.IsSound depth (.mapping entries)) (hne : entries ≠ [])
    (hlead : lead = [] ∨ lead = ['\n']) (htail : tail = [] ∨ tail = ['\n'])
    (ht : t ++ ['\n'] = render entries) :
    tokens? (lead ++ (t ++ tail)) = some (Outline.mapping entries).tokens := by
  cases h with
  | mapping hkeys hdistinct hvalues =>
    have hfeed : ∀ e ∈ entries, '\n' ∉ e.1 := fun e he => (hkeys e he).noLineEnd
    have hends := fun e he => Lexer.isTail_writeValue (hvalues e he)
    rw [render_eq] at ht
    have hallowed : (lead ++ (t ++ tail)).all isAllowed = true := by
      have hprintable : ∀ c ∈ t ++ ['\n'], isPrintable c = true := fun c hc =>
        isPrintable_of_mem_entryLines hfeed
          (fun e he _ _ _ h => isPrintable_of_mem_writeValue (hvalues e he) h) (ht ▸ hc)
      rw [List.all_eq_true]
      intro c hc
      simp only [List.mem_append] at hc
      rcases hc with hc | hc | hc
      · rcases hlead with rfl | rfl
        · cases hc
        · exact isAllowed_of_isPrintable (hprintable c (List.mem_append_right t hc))
      · exact isAllowed_of_isPrintable (hprintable c (List.mem_append_left _ hc))
      · rcases htail with rfl | rfl
        · cases hc
        · exact isAllowed_of_isPrintable (hprintable c (List.mem_append_right t hc))
    -- the first key is neither a comment nor a byte order mark
    obtain ⟨e, he, w, hw⟩ := Lexer.exists_entryLines_eq hne hends 0
    have hkey : t = writeKey 0 e.1 ++ w := List.append_cancel_right (ht.trans hw)
    have hstarts : StartsToken (t ++ tail) := by
      rw [hkey, List.append_assoc]
      exact Lexer.startsToken_writeKey (hfeed e he) 0 _
    have hmark : (t ++ tail).head? ≠ some '\ufeff' := by
      rw [hkey, List.append_assoc]
      intro hhead
      obtain ⟨c, rest, hc⟩ := List.exists_cons_of_ne_nil (Lexer.writeKey_ne_nil 0 e.1)
      have hprintable := isPrintable_of_mem_writeKey (hfeed e he) (hc ▸ List.mem_cons_self)
      rw [hc] at hhead
      rw [Option.some.inj hhead] at hprintable
      exact absurd hprintable (by decide)
    obtain ⟨s, hprepare, hcursor, hs⟩ := Lexer.exists_beforeKey_start hlead hstarts hmark
    have hrest : s.cursor.rest = t ++ tail := by
      rw [hcursor]
      exact rest_advance rfl
    have hafter : Lexer.AfterValue 0 tail tail := by
      rcases htail with rfl | rfl
      · exact .nothing
      · exact .line (Nat.le_refl 0) startsToken_nil
    obtain ⟨l', ⟨n, hn, hrun⟩, hend⟩ := Lexer.exists_atEnd_entries hne hfeed hends
      (fun e he => Lexer.readsBack_of_isSound (hvalues e he)) hprepare hs ht.symm hrest hafter
    obtain ⟨bound, hbound⟩ : ∃ bound, (lead ++ (t ++ tail)).length + 1 = n + (bound + 1) := by
      have hle : n + l'.cursor.rest.length ≤ (lead ++ (t ++ tail)).length := hn
      exact ⟨(lead ++ (t ++ tail)).length - n, by omega⟩
    rw [tokens?, if_pos hallowed, hbound, hrun, hend.run?_eq (rest_advance (by rw [hrest]; simp))]
    obtain ⟨e, entries, rfl⟩ := List.exists_cons_of_ne_nil hne
    simp [Outline.tokens]

end ActionBundles.Yaml
