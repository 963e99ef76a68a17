import ActionBundles.Proofs.FrontMatter

/-!
# White space and comments

How a text is laid out does not matter to what is read from it. Blank lines and comments may be
put in anywhere; white space at the end of a line may come and go, a carriage return before the line
feed included; and an indented line may be indented in any other way. The model that is read stays
the same, or the irregularity that strict reading stops at, whose line is then counted with the
lines that were put in before it.

Changes of this kind are given line by line as a list of `LineEdit`. Of one line they change neither
the class nor any text that the class holds (`classify_of_isRespaced`, `classify_of_isIdle`), and
the lines that were put in are passed over wherever they stand, which is shown of a whole run by
induction on the edits (`run_edited`).
-/

namespace ActionBundles

/-! ### Edits of lines -/

/-- White space that ends no line. -/
def Text.IsGap (t : Text) : Prop := ∀ c ∈ t, isBlank c = true ∧ c ≠ '\n'

instance : DecidablePred Text.IsGap :=
  List.decidableBAll fun c => Text.isBlank c = true ∧ c ≠ '\n'

/-- The text with a carriage return before each line feed. -/
def Text.withReturns (t : Text) : Text := t.flatMap fun c => if c = '\n' then ['\r', '\n'] else [c]

namespace Line

/-- A blank line or a comment. -/
inductive IsIdle : Text → Prop where
  /-- A line of white space, or of nothing. -/
  | blank {gap : Text} (h : Text.IsGap gap) : IsIdle gap
  /-- A comment, which may be indented. -/
  | comment {gap rest : Text} (h : Text.IsGap gap) (hrest : '\n' ∉ rest) :
    IsIdle (gap ++ '#' :: rest)

/-- Two lines with the same content and any white space around it, except that both are indented or
neither is. -/
inductive IsRespaced : Text → Text → Prop where
  /-- The white space before and after the content, in the one line and in the other. -/
  | intro {lead lead' content trail trail' : Text} (hlead : Text.IsGap lead)
    (hlead' : Text.IsGap lead') (hmargin : lead = [] ↔ lead' = []) (htrail : Text.IsGap trail)
    (htrail' : Text.IsGap trail') :
    IsRespaced (lead ++ (content ++ trail)) (lead' ++ (content ++ trail'))

end Line

/-- What is done to the lines of a text, one after another. -/
inductive LineEdit where
  /-- A line is put in. -/
  | insert (line : Text)
  /-- A line of the text becomes another one. -/
  | keep (line line' : Text)

namespace LineEdit

/-- The line before the edit, if there is one. -/
def old? : LineEdit → Option Text
  | insert _ => none
  | keep line _ => some line

/-- The line after the edit. -/
def new : LineEdit → Text
  | insert line => line
  | keep _ line' => line'

/-- Edits that change nothing but white space and comments. -/
def IsHarmless : LineEdit → Prop
  | insert line => Line.IsIdle line
  | keep line line' => Line.IsRespaced line line'

/-- A text of the lines after the edits. -/
def written (edits : List LineEdit) : Text := Text.join ['\n'] (edits.map new)

/-- The number of lines that are put in before the line of the text which has the index `i`. -/
def insertedBefore : List LineEdit → Nat → Nat
  | [], _ => 0
  | insert _ :: rest, i => insertedBefore rest i + 1
  | keep _ _ :: _, 0 => 0
  | keep _ _ :: rest, i + 1 => insertedBefore rest i

/-- Every line that a line feed ends gets a carriage return. -/
def returns : List Text → List LineEdit
  | [] => []
  | [last] => [keep last last]
  | line :: next :: rest => keep line (line ++ ['\r']) :: returns (next :: rest)

end LineEdit

/-- An error in a text as an error in the text after some edits. -/
def ParseError.shifted (edits : List LineEdit) (e : ParseError) : ParseError :=
  { e with line := e.line + LineEdit.insertedBefore edits (e.line - 1) }

/-! ### Lines -/

namespace Line

variable {raw raw' : Text}

/-- A line is classified by its content and by whether it is indented. -/
theorem classify_congr (htrim : Text.trim raw' = Text.trim raw)
    (hindented : Text.trim raw ≠ [] → isIndented raw' = isIndented raw) :
    classify raw' = classify raw := by
  rw [classify, classify, htrim]
  split
  · rfl
  · rfl
  · next hne _ => exact congrArg (ofContent _) (hindented hne)

theorem isBlank_of_isGap {t : Text} (h : Text.IsGap t) : ∀ c ∈ t, Text.isBlank c = true :=
  fun c hc => (h c hc).1

theorem classify_of_isIdle (h : IsIdle raw) : classify raw = .skip := by
  cases h with
  | blank h =>
    have htrim : Text.trim raw = [] := by
      have hblank := Text.trim_append_of_blank (isBlank_of_isGap h) []
      rwa [List.nil_append] at hblank
    rw [classify, htrim]
  | @comment gap rest h hrest =>
    have htrim : Text.trim (gap ++ '#' :: rest) = '#' :: Text.trimEnd rest := by
      rw [Text.trim, Text.trimStart_append_of_blank (isBlank_of_isGap h),
        Text.trimStart_of_head (by decide)]
      exact Text.trimEnd_append_cons (a := []) (by decide)
    rw [classify, htrim]
    rfl

theorem classify_of_isRespaced (h : IsRespaced raw raw') : classify raw' = classify raw := by
  cases h with
  | @intro lead lead' content trail trail' hlead hlead' hmargin htrail htrail' =>
    have htrim := Text.trim_of_blanks (t := content) (isBlank_of_isGap hlead)
      (isBlank_of_isGap htrail)
    have htrim' := Text.trim_of_blanks (t := content) (isBlank_of_isGap hlead')
      (isBlank_of_isGap htrail')
    refine classify_congr (htrim'.trans htrim.symm) fun hne => ?_
    have hcontent : content ≠ [] := by
      rintro rfl
      exact hne htrim
    cases lead with
    | nil =>
      obtain rfl : lead' = [] := hmargin.1 rfl
      rw [isIndented, isIndented, List.nil_append, List.nil_append,
        List.head?_append_of_ne_nil _ hcontent, List.head?_append_of_ne_nil _ hcontent]
    | cons c lead =>
      cases lead' with
      | nil => cases hmargin.2 rfl
      | cons c' lead' =>
        have hc : Text.isBlank c = true := (hlead c List.mem_cons_self).1
        have hc' : Text.isBlank c' = true := (hlead' c' List.mem_cons_self).1
        show Text.isBlank c' = Text.isBlank c
        rw [hc, hc']

theorem noLineEnd_of_isIdle (h : IsIdle raw) : '\n' ∉ raw := by
  cases h with
  | blank h => exact fun hmem => (h _ hmem).2 rfl
  | comment h hrest =>
    exact List.not_mem_append (fun hmem => (h _ hmem).2 rfl) (by simp [hrest])

theorem noLineEnd_of_isRespaced (h : IsRespaced raw raw') (hraw : '\n' ∉ raw) : '\n' ∉ raw' := by
  cases h with
  | intro hlead hlead' hmargin htrail htrail' =>
    simp only [List.mem_append, not_or] at hraw ⊢
    exact ⟨fun hmem => (hlead' _ hmem).2 rfl, hraw.2.1, fun hmem => (htrail' _ hmem).2 rfl⟩

end Line

/-! ### Runs -/

namespace Progress

variable {mode : ParseMode}

/-- Counting the lines from the next number makes the number of an error the next one. -/
theorem run_succ (p : Progress) (number : Nat) (ls : List Line) :
    p.run mode (number + 1) ls =
      (p.run mode number ls).mapError fun e => { e with line := e.line + 1 } := by
  induction ls generalizing p number with
  | nil => rfl
  | cons line rest ih =>
    rw [run, run]
    cases p.step mode line with
    | error => rfl
    | ok q => exact ih q (number + 1)

/-- The last piece of a text, which is no line if it is empty, may as well count as a blank line. -/
theorem run_closeLines (p : Progress) (number : Nat) (pieces : List Text) :
    p.run mode number ((Text.closeLines pieces).map Line.classify) =
      p.run mode number (pieces.map Line.classify) := by
  induction pieces generalizing p number with
  | nil => rfl
  | cons piece rest ih =>
    cases rest with
    | nil =>
      by_cases h : piece = []
      · subst h
        rfl
      · rw [Text.closeLines, if_neg h]
    | cons next rest =>
      rw [Text.closeLines, List.map_cons, List.map_cons, Line.classify_dropReturn, run, run]
      cases p.step mode (Line.classify piece) with
      | error => rfl
      | ok q => exact ih q (number + 1)

/-- **Edits that change white space and comments change no run**, except for the number of the line
of an error. -/
theorem run_edited {edits : List LineEdit} (h : ∀ e ∈ edits, e.IsHarmless) (p : Progress) :
    p.run mode 0 ((edits.map LineEdit.new).map Line.classify) =
      (p.run mode 0 ((edits.filterMap LineEdit.old?).map Line.classify)).mapError fun e =>
        { e with line := e.line + LineEdit.insertedBefore edits e.line } := by
  induction edits generalizing p with
  | nil => rfl
  | cons edit rest ih =>
    obtain ⟨hedit, hrest⟩ := List.forall_mem_cons.1 h
    cases edit with
    | insert line =>
      have hold : (LineEdit.insert line :: rest).filterMap LineEdit.old? =
          rest.filterMap LineEdit.old? := rfl
      have hpassed (ls : List Line) : p.run mode 0 (.skip :: ls) = p.run mode (0 + 1) ls := rfl
      rw [hold, List.map_cons, List.map_cons, LineEdit.new, Line.classify_of_isIdle hedit, hpassed,
        run_succ, ih hrest]
      cases p.run mode 0 ((rest.filterMap LineEdit.old?).map Line.classify) <;> rfl
    | keep line line' =>
      have hold : (LineEdit.keep line line' :: rest).filterMap LineEdit.old? =
          line :: rest.filterMap LineEdit.old? := rfl
      rw [hold, List.map_cons, List.map_cons, List.map_cons, LineEdit.new,
        Line.classify_of_isRespaced hedit, run, run]
      cases p.step mode (Line.classify line) with
      | error => rfl
      | ok q =>
        dsimp only
        rw [run_succ, run_succ, ih hrest]
        cases q.run mode 0 ((rest.filterMap LineEdit.old?).map Line.classify) with
        | ok => rfl
        | error e =>
          simp only [Except.mapError, LineEdit.insertedBefore, Nat.add_right_comm]

end Progress

/-! ### Carriage returns -/

theorem Text.withReturns_append (a b : Text) :
    withReturns (a ++ b) = withReturns a ++ withReturns b := List.flatMap_append

theorem Text.withReturns_of_not_mem {t : Text} (h : '\n' ∉ t) : withReturns t = t := by
  induction t with
  | nil => rfl
  | cons c t ih =>
    rw [List.mem_cons, not_or] at h
    rw [withReturns, List.flatMap_cons, if_neg (Ne.symm h.1)]
    exact congrArg (c :: ·) (ih h.2)

namespace LineEdit

variable {pieces : List Text}

theorem filterMap_old?_returns (pieces : List Text) : (returns pieces).filterMap old? = pieces := by
  induction pieces with
  | nil => rfl
  | cons piece rest ih =>
    cases rest with
    | nil => rfl
    | cons next rest => exact congrArg (piece :: ·) ih

theorem insertedBefore_returns (pieces : List Text) (i : Nat) :
    insertedBefore (returns pieces) i = 0 := by
  induction pieces generalizing i with
  | nil => rfl
  | cons piece rest ih =>
    cases rest with
    | nil => cases i <;> rfl
    | cons next rest =>
      cases i with
      | zero => rfl
      | succ i => exact ih i

/-- A line may get white space at its end. -/
theorem isHarmless_append {gap : Text} (h : Text.IsGap gap) (line : Text) :
    (keep line (line ++ gap)).IsHarmless := by
  have hnone : Text.IsGap [] := List.forall_mem_nil _
  have hline := @Line.IsRespaced.intro [] [] line [] gap hnone hnone Iff.rfl hnone h
  rwa [List.nil_append, List.nil_append, List.append_nil] at hline

theorem isHarmless_returns (pieces : List Text) : ∀ e ∈ returns pieces, e.IsHarmless := by
  induction pieces with
  | nil => exact List.forall_mem_nil _
  | cons piece rest ih =>
    cases rest with
    | nil =>
      have hsame := isHarmless_append (List.forall_mem_nil _) piece
      rw [List.append_nil] at hsame
      exact List.forall_mem_singleton.2 hsame
    | cons next rest => exact List.forall_mem_cons.2 ⟨isHarmless_append (by decide) piece, ih⟩

theorem written_returns (h : ∀ piece ∈ pieces, '\n' ∉ piece) :
    written (returns pieces) = Text.withReturns (Text.join ['\n'] pieces) := by
  induction pieces with
  | nil => rfl
  | cons piece rest ih =>
    obtain ⟨hpiece, hrest⟩ := List.forall_mem_cons.1 h
    cases rest with
    | nil =>
      rw [returns, written, List.map_singleton, Text.join, Text.join, List.intercalate_singleton,
        List.intercalate_singleton, Text.withReturns_of_not_mem hpiece, new]
    | cons next rest =>
      obtain ⟨first, more, hmore⟩ :
          ∃ first more, (returns (next :: rest)).map new = first :: more := by
        cases rest <;> exact ⟨_, _, rfl⟩
      have hwritten : written (returns (piece :: next :: rest)) =
          piece ++ '\r' :: '\n' :: written (returns (next :: rest)) := by
        rw [returns, written, written, List.map_cons, hmore, new, Text.join, Text.join,
          List.intercalate_cons_cons]
        simp
      have hjoin : Text.join ['\n'] (piece :: next :: rest) =
          piece ++ '\n' :: Text.join ['\n'] (next :: rest) := by
        rw [Text.join, Text.join, List.intercalate_cons_cons]
        simp
      rw [hwritten, ih hrest, hjoin, Text.withReturns_append, Text.withReturns_of_not_mem hpiece]
      rfl

end LineEdit

namespace Model

/-- A text is read as its pieces between line feeds. -/
theorem parse_eq_run (mode : ParseMode) (text : Text) :
    parse mode text =
      (Progress.run mode {} 1 ((text.splitOn '\n').map Line.classify)).map (·.model) := by
  rw [parse, linesOf, Text.lines, Progress.run_closeLines]

/-- The text with the edits made is read like the text, but for the number of the line of an
error. -/
theorem parse_written (mode : ParseMode) {text : Text} {edits : List LineEdit}
    (htext : text.splitOn '\n' = edits.filterMap LineEdit.old?) (h : ∀ e ∈ edits, e.IsHarmless) :
    parse mode (LineEdit.written edits) = (parse mode text).mapError (·.shifted edits) := by
  have hends : ∀ line ∈ edits.map LineEdit.new, '\n' ∉ line := by
    refine List.forall_mem_map.2 fun edit hedit => ?_
    have hharmless := h edit hedit
    cases edit with
    | insert line => exact Line.noLineEnd_of_isIdle hharmless
    | keep line line' =>
      have hline : line ∈ text.splitOn '\n' := htext ▸ List.mem_filterMap.2 ⟨_, hedit, rfl⟩
      exact Line.noLineEnd_of_isRespaced hharmless (Text.not_mem_of_mem_splitOn hline)
  have hne : edits.map LineEdit.new ≠ [] := by
    rw [Ne, List.map_eq_nil_iff]
    rintro rfl
    exact List.splitOn_ne_nil _ _ htext
  have hwritten : (LineEdit.written edits).splitOn '\n' = edits.map LineEdit.new :=
    List.splitOn_intercalate '\n' hends hne
  rw [parse_eq_run, parse_eq_run, hwritten, htext, Progress.run_succ, Progress.run_succ,
    Progress.run_edited h]
  cases Progress.run mode {} 0 ((edits.filterMap LineEdit.old?).map Line.classify) with
  | ok => rfl
  | error e =>
    simp only [Except.mapError, Except.map, ParseError.shifted, Nat.add_sub_cancel,
      Nat.add_right_comm]

/-- Either line end will do. -/
theorem parse_withReturns (mode : ParseMode) (text : Text) :
    parse mode (Text.withReturns text) = parse mode text := by
  have hpieces : ∀ piece ∈ text.splitOn '\n', '\n' ∉ piece := fun piece hpiece =>
    Text.not_mem_of_mem_splitOn hpiece
  have hwritten : LineEdit.written (LineEdit.returns (text.splitOn '\n')) =
      Text.withReturns text := by
    rw [LineEdit.written_returns hpieces, Text.join, List.intercalate_splitOn]
  rw [← hwritten, parse_written mode (LineEdit.filterMap_old?_returns _).symm
    (LineEdit.isHarmless_returns _)]
  cases parse mode text with
  | ok => rfl
  | error e =>
    rw [Except.mapError, ParseError.shifted, LineEdit.insertedBefore_returns, Nat.add_zero]

/-- **Layout does not change what is read.** Let any blank lines and comments be put in between the
lines of a text, and let its lines have any other white space at their ends and, if they are
indented, any other white space before them. Then the same model is read, or reading stops at the
same irregularity, in the line whose number has grown by the number of lines that were put in before
it. In particular all line feeds may become carriage returns and line feeds. -/
theorem parse_relaid (mode : ParseMode) (text : Text) :
    (∀ edits : List LineEdit, text.splitOn '\n' = edits.filterMap LineEdit.old? →
      (∀ e ∈ edits, e.IsHarmless) →
      parse mode (LineEdit.written edits) = (parse mode text).mapError (·.shifted edits)) ∧
    parse mode (Text.withReturns text) = parse mode text :=
  ⟨fun _ htext h => parse_written mode htext h, parse_withReturns mode text⟩

/-- Edits of a text with a name that has a blank in it: a comment and a blank line are put in before
it, and the lines get other white space. -/
def sampleEdits : List LineEdit :=
  [.insert "\t# a comment", .keep "Parameters:" "Parameters: \r", .insert "",
    .keep "  - first: string" "\t- first: string\r", .keep "  - a b\r" "      - a b", .keep "" "  "]

theorem parse_relaid_sampleEdits :
    parse .strict (LineEdit.written sampleEdits) = .error ⟨5, .blankInName "a b"⟩ := by
  have htext : ("Parameters:\n  - first: string\n  - a b\r\n" : Text).splitOn '\n' =
      sampleEdits.filterMap LineEdit.old? := by decide
  have hharmless : ∀ e ∈ sampleEdits, e.IsHarmless :=
    List.forall_mem_cons.2 ⟨@Line.IsIdle.comment "\t" " a comment" (by decide) (by decide),
      List.forall_mem_cons.2 ⟨LineEdit.isHarmless_append (by decide) "Parameters:",
      List.forall_mem_cons.2 ⟨Line.IsIdle.blank (by decide),
      List.forall_mem_cons.2 ⟨@Line.IsRespaced.intro "  " "\t" "- first: string" "" "\r" (by decide)
        (by decide) (by decide) (by decide) (by decide),
      List.forall_mem_cons.2 ⟨@Line.IsRespaced.intro "  " "      " "- a b" "\r" "" (by decide)
        (by decide) (by decide) (by decide) (by decide),
      List.forall_mem_singleton.2 (LineEdit.isHarmless_append (by decide) "")⟩⟩⟩⟩⟩
  have hread : parse .strict "Parameters:\n  - first: string\n  - a b\r\n" =
      .error ⟨3, .blankInName "a b"⟩ := by decide
  exact ((parse_relaid .strict _).1 sampleEdits htext hharmless).trans (by rw [hread]; rfl)

end Model

end ActionBundles
