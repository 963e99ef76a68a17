import ActionBundles.Proofs.Descriptors

/-!
# The header and the document

The checks read a descriptor by its lines: those that hold only a comment are left out before the
document is read, and two of them attest where the descriptor is from. The descriptor of a model
that was read falls apart as it should, whatever texts stand in it: what is left are the lines of
the document (`Descriptor.attests`), and the first and the third line alone are the marks, so that
a descriptor without one of them is not attested.
-/

namespace ActionBundles

namespace Text

/-- A text without the line with a number. -/
def withoutLine (n : Nat) (t : Text) : Text := join ['\n'] ((t.splitOn '\n').eraseIdx n)

theorem join_concat_nil (ls : List Text) : join ['\n'] (ls ++ [[]]) = unlines ls := by
  rw [Descriptor.join_lineFeed (List.concat_ne_nil [] ls), unlines, unlines, List.flatMap_append]
  simp

theorem withoutLine_unlines {ls : List Text} (h : ∀ l ∈ ls, '\n' ∉ l) {n : Nat}
    (hn : n < ls.length) : withoutLine n (unlines ls) = unlines (ls.eraseIdx n) := by
  rw [withoutLine, splitOn_unlines h, List.eraseIdx_append_of_lt_length hn, join_concat_nil]

end Text

theorem Identity.isSegment_slug (m : Model) (file default : Text) :
    IsSegment (resolve m file default).slug :=
  (isSegment_resolve m file (isSegment_of_all (t := "core".toList) (by decide) (by decide))).1

theorem Identity.lineFeed_not_mem_slug (m : Model) (file default : Text) :
    '\n' ∉ (resolve m file default).slug :=
  (isSegment_slug m file default).not_mem (by decide)

theorem Identity.title_resolve (m : Model) (file default : Text) :
    (resolve m file default).title = titleOf (resolve m file default).slug := by
  simp only [resolve]

theorem Identity.lineFeed_not_mem_title (m : Model) (file default : Text) :
    '\n' ∉ (resolve m file default).title := by
  rw [title_resolve]
  exact lineFeed_not_mem_titleOf (lineFeed_not_mem_slug m file default)

namespace Descriptor

/-- Whether a line attests where a descriptor is from. -/
def IsMark (line : Text) : Prop :=
  sourceMark <+: Text.trimStart line ∨ lockMark <+: Text.trimStart line

variable {mark other line : Text}

/-- A line that starts with one mark of a comment does not start with another one. -/
theorem not_prefix_of_mark (hhead : other.head? = some '#') (hlast : other.getLast? ≠ some '\r')
    (h : ¬ mark <+: other) (h' : ¬ other <+: mark) (rest : Text) :
    ¬ mark <+: Text.trimStart (Text.dropReturn (other ++ rest)) := fun hmark =>
  (List.prefix_or_prefix_of_prefix hmark (prefix_trimStart_dropReturn hhead hlast rest)).elim h h'

/-- No mark starts a line of code. -/
theorem not_prefix_of_isCode (hhead : mark.head? = some '#') (h : IsCode line) :
    ¬ mark <+: Text.trimStart (Text.dropReturn line) := by
  rw [Text.dropReturn, if_neg h.noReturn]
  rintro ⟨rest, he⟩
  have hcomment := h.noComment
  cases mark with
  | nil => cases hhead
  | cons c mark =>
    rw [isComment, ← he, List.cons_append, List.head?_cons] at hcomment
    exact of_decide_eq_false hcomment hhead

/-- A text in which one line only starts with a mark lacks the mark without this line. -/
theorem hasLine_withoutLine {ls : List Text} (hls : ∀ line ∈ ls, '\n' ∉ line) {n : Nat}
    (hn : n < ls.length)
    (h : ∀ (k : Nat) (line : Text), ls[k]? = some line →
      mark <+: Text.trimStart (Text.dropReturn line) → k = n) :
    hasLine mark (Text.withoutLine n (Text.unlines ls)) = false := by
  have hkept : ∀ line ∈ ls.eraseIdx n, '\n' ∉ line := fun line hline =>
    hls line ((List.eraseIdx_sublist ls n).subset hline)
  rw [Text.withoutLine_unlines hls hn, hasLine, Text.lines_unlines hkept, List.any_eq_false]
  intro line hline
  obtain ⟨raw, hraw, rfl⟩ := List.mem_map.1 hline
  obtain ⟨k, hk, hat⟩ := List.mem_eraseIdx_iff_getElem?.1 hraw
  rw [List.isPrefixOf_iff_prefix]
  exact fun hmark => hk (h k raw hat hmark)

/-! ### Where the marks are -/

section Lines

variable {m : Model} {identity : Identity} {source : Text} {ls : List Text} {k : Nat}

/-- Of the lines of a descriptor the first names its source and the third forbids editing; no other
line has a mark. -/
theorem prefix_mark_iff (hm : m.IsLinear) (hslug : '\n' ∉ identity.slug)
    (hls : ∀ line ∈ ls, IsCode line)
    (hline : (header m identity source ++ [] :: ls)[k]? = some line) :
    (sourceMark <+: Text.trimStart (Text.dropReturn line) ↔ k = 0) ∧
      (lockMark <+: Text.trimStart (Text.dropReturn line) ↔ k = 2) := by
  obtain ⟨rest, hmodel, -⟩ := exists_modelLine hm hslug
  rw [header, hmodel] at hline
  rcases k with _ | _ | _ | _ | k
  · cases hline
    exact ⟨iff_of_true (prefix_trimStart_dropReturn (by decide) (by decide) source) rfl,
      iff_of_false (not_prefix_of_mark (by decide) (by decide) (by decide) (by decide) source)
        (by decide)⟩
  · cases hline
    exact ⟨iff_of_false (not_prefix_of_mark (by decide) (by decide) (by decide) (by decide) rest)
        (by decide),
      iff_of_false (not_prefix_of_mark (by decide) (by decide) (by decide) (by decide) rest)
        (by decide)⟩
  · cases hline
    exact ⟨iff_of_false (not_prefix_of_mark (by decide) (by decide) (by decide) (by decide) _)
        (by decide),
      iff_of_true (prefix_trimStart_dropReturn (by decide) (by decide) _) rfl⟩
  · cases hline
    exact ⟨iff_of_false (by decide) (by decide), iff_of_false (by decide) (by decide)⟩
  · have hcode : IsCode line := hls line (List.mem_of_getElem? hline)
    exact ⟨iff_of_false (not_prefix_of_isCode (by decide) hcode) (by omega),
      iff_of_false (not_prefix_of_isCode (by decide) hcode) (by omega)⟩

end Lines

/-! ### Reading what was written -/

section Reading

variable {m : Model} {identity : Identity} {source line : Text} {k : Nat}

/-- The first and the third line of a descriptor are its marks. -/
theorem isMark_iff (hm : m.IsLinear) (hslug : '\n' ∉ identity.slug) (htitle : '\n' ∉ identity.title)
    (hsource : '\n' ∉ source) (hline : (Text.lines (render m identity source))[k]? = some line) :
    IsMark line ↔ k = 0 ∨ k = 2 := by
  obtain ⟨ls, hrender, -, hls⟩ := exists_render_eq hm htitle source
  rw [hrender, Text.lines_unlines (lineFeed_not_mem_written hm hslug hsource hls),
    List.getElem?_map] at hline
  obtain ⟨raw, hraw, rfl⟩ := Option.map_eq_some_iff.1 hline
  obtain ⟨hsourceMark, hlockMark⟩ := prefix_mark_iff hm hslug hls hraw
  rw [IsMark, hsourceMark, hlockMark]

/-- A descriptor without one of its marks is not attested. -/
theorem hasProvenance_withoutLine (hm : m.IsLinear) (hslug : '\n' ∉ identity.slug)
    (htitle : '\n' ∉ identity.title) (hsource : '\n' ∉ source) (hk : k = 0 ∨ k = 2) :
    hasProvenance (Text.withoutLine k (render m identity source)) = false := by
  obtain ⟨ls, hrender, -, hls⟩ := exists_render_eq hm htitle source
  have hlines := lineFeed_not_mem_written hm hslug hsource hls
  rw [hrender, hasProvenance]
  rcases hk with rfl | rfl
  · have hlacks : hasLine sourceMark
        (Text.withoutLine 0 (Text.unlines (header m identity source ++ [] :: ls))) = false :=
      hasLine_withoutLine hlines (by simp [header]) fun k line hline =>
        (prefix_mark_iff hm hslug hls hline).1.1
    rw [hlacks, Bool.false_and]
  · have hlacks : hasLine lockMark
        (Text.withoutLine 2 (Text.unlines (header m identity source ++ [] :: ls))) = false :=
      hasLine_withoutLine hlines (by simp [header]) fun k line hline =>
        (prefix_mark_iff hm hslug hls hline).2.1
    rw [hlacks, Bool.and_false]

end Reading

/-- **The checks read what was written**: for a model that was read, what a descriptor is without its
comment lines are the lines of the document, after an empty one; the descriptor is attested; and its
marks, without any of which it is not attested, are its first and its third line. -/
theorem attests {mode : ParseMode} {text : Text} {m : Model} (h : Model.parse mode text = .ok m)
    (file default : Text) {source : Text} (hsource : '\n' ∉ source) :
    let identity := Identity.resolve m file default
    let descriptor := render m identity source
    (Text.lines descriptor).filter (!isComment ·) = [] :: Text.lines (body m identity) ∧
      hasProvenance descriptor = true ∧
      (∀ (k : Nat) (line : Text), (Text.lines descriptor)[k]? = some line →
        (IsMark line ↔ k = 0 ∨ k = 2)) ∧
      ∀ k, k = 0 ∨ k = 2 → hasProvenance (Text.withoutLine k descriptor) = false := by
  have hm : m.IsLinear := Model.isLinear_parse h
  have hslug := Identity.lineFeed_not_mem_slug m file default
  have htitle := Identity.lineFeed_not_mem_title m file default
  exact ⟨filter_lines_render hm hslug htitle hsource, hasProvenance_render hm hslug htitle hsource,
    fun _ _ => isMark_iff hm hslug htitle hsource,
    fun _ => hasProvenance_withoutLine hm hslug htitle hsource⟩

/-- A model whose input has a name that looks like the mark of a header. -/
def sampleMarked : Text := "Model: axiom.git.tag\nParameters:\n- # DO NOT EDIT: string\n"

/-- What is read from it. -/
def sampleMarkedModel : Model where
  metadata := { modelId := "axiom.git.tag" }
  parameters := [{ name := "# DO NOT EDIT", kind := .string, required := true }]

/-- The input with the name of a mark does not stand in for the mark. -/
theorem attests_sampleMarked :
    Model.parse .permissive sampleMarked = .ok sampleMarkedModel ∧ '\n' ∉ "tag.fcm".toList ∧
      hasProvenance (Text.withoutLine 2 (render sampleMarkedModel
        (Identity.resolve sampleMarkedModel "tag.fcm" "core") "tag.fcm")) = false := by
  have hparse : Model.parse .permissive sampleMarked = .ok sampleMarkedModel := by decide
  have hsource : '\n' ∉ "tag.fcm".toList := by decide
  exact ⟨hparse, hsource, (attests hparse "tag.fcm" "core" hsource).2.2.2 2 (.inr rfl)⟩

end Descriptor

end ActionBundles
