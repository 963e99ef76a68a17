import ActionBundles.Proofs.Provenance

/-!
# Texts within comments

The files of a bundle start with comments into which texts are written: the path of the model, its
id and its version. YAML ends a comment at a line feed and at a carriage return, and a model is read
by its line feeds only, so that a carriage return may stand within an id. `Comments.confined_iff`
says when a text leaves its comment: the header of a descriptor is a block of comments exactly if
whatever follows a line end in these texts starts with the sign of a comment; and in the two other
files the path is on the one line meant for it, with nothing else depending on it, exactly if no line
feed is in it.
-/

namespace ActionBundles

namespace Text

/-- What ends a comment of YAML. -/
def isLineEnd (c : Char) : Bool := c = '\n' || c = '\r'

/-- Whether a text stays within the comment that it is written into: whatever follows a line end in
it is a comment again. -/
def StaysComment : Text → Prop
  | [] => True
  | c :: rest => (isLineEnd c = true → rest.head? = some '#') ∧ StaysComment rest

instance decidableStaysComment : (t : Text) → Decidable (StaysComment t)
  | [] => inferInstanceAs (Decidable True)
  | c :: rest =>
    have := decidableStaysComment rest
    inferInstanceAs (Decidable ((isLineEnd c = true → rest.head? = some '#') ∧ StaysComment rest))

variable {a b t : Text}

/-- The start of a comment makes no difference to whether what follows stays in it. -/
theorem staysComment_append_left (h : a.any isLineEnd = false) :
    StaysComment (a ++ b) ↔ StaysComment b := by
  induction a with
  | nil => rfl
  | cons c rest ih =>
    rw [List.any_cons, Bool.or_eq_false_iff] at h
    rw [List.cons_append, StaysComment, ih h.2, h.1]
    simp

theorem staysComment_of_no_lineEnd (h : t.any isLineEnd = false) : StaysComment t := by
  rw [← List.append_nil t, staysComment_append_left h]
  trivial

/-- Two texts with no comment sign where they meet stay in a comment if both of them do. -/
theorem staysComment_append (hb : b.head? ≠ some '#') :
    StaysComment (a ++ b) ↔ StaysComment a ∧ StaysComment b := by
  induction a with
  | nil => exact (and_iff_right trivial).symm
  | cons c rest ih =>
    have hnext : (rest ++ b).head? = some '#' ↔ rest.head? = some '#' := by
      cases rest with
      | nil => exact iff_of_false hb (by simp)
      | cons d rest => rfl
    rw [List.cons_append, StaysComment, StaysComment, hnext, ih, and_assoc]

/-- A line end and the sign of a comment go from one comment to the next. -/
theorem staysComment_append_lineFeed :
    StaysComment (a ++ '\n' :: '#' :: b) ↔ StaysComment a ∧ StaysComment b := by
  have hsign : StaysComment ('\n' :: '#' :: b) ↔ StaysComment b := by
    rw [StaysComment, StaysComment]
    simp [isLineEnd]
  rw [staysComment_append (by simp), hsign]

/-- The pieces of a text between its line ends: the first one starts as the text does, and the others
are comments exactly if the text stays in a comment. -/
theorem exists_splitOnP_eq (t : Text) : ∃ line rest, t.splitOnP isLineEnd = line :: rest ∧
    (line.head? = some '#' ↔ t.head? = some '#') ∧
      ((∀ line ∈ rest, line.head? = some '#') ↔ StaysComment t) := by
  induction t with
  | nil => exact ⟨[], [], by simp, Iff.rfl, by simp [StaysComment]⟩
  | cons c t ih =>
    obtain ⟨line, rest, hsplit, hline, hrest⟩ := ih
    rw [List.splitOnP_cons_eq_if_modifyHead, hsplit, StaysComment]
    cases hc : isLineEnd c with
    | true =>
      refine ⟨[], line :: rest, by simp, iff_of_false (by simp) ?_, ?_⟩
      · intro he
        obtain rfl := Option.some.inj he
        revert hc
        decide
      · rw [List.forall_mem_cons, hline, hrest]
        simp
    | false =>
      refine ⟨c :: line, rest, by simp, by simp, ?_⟩
      rw [hrest]
      simp

theorem forall_splitOnP_iff : (∀ line ∈ t.splitOnP isLineEnd, line.head? = some '#') ↔
    t.head? = some '#' ∧ StaysComment t := by
  obtain ⟨line, rest, hsplit, hline, hrest⟩ := exists_splitOnP_eq t
  rw [hsplit, List.forall_mem_cons, hline, hrest]

/-! ### One line of many -/

/-- In a file that has a text on one of its lines, nothing but this line depends on the text exactly
if the text has no line feed. -/
theorem splitOn_eq_set_iff {file : Text → Text} {ls : List Text} {lead tail rest : Text}
    (hfile : ∀ t, file t = unlines ls ++ ((lead ++ t ++ tail) ++ '\n' :: rest))
    (hls : ∀ l ∈ ls, '\n' ∉ l) (hlead : '\n' ∉ lead) (htail : '\n' ∉ tail) (t : Text) :
    (file t).splitOn '\n' = ((file []).splitOn '\n').set ls.length (lead ++ t ++ tail) ↔
      '\n' ∉ t := by
  have hlines : ∀ t, '\n' ∉ t →
      (file t).splitOn '\n' = ls ++ (lead ++ t ++ tail) :: rest.splitOn '\n' := fun t ht => by
    have hline : '\n' ∉ lead ++ t ++ tail := by
      simp only [List.mem_append, not_or]
      exact ⟨⟨hlead, ht⟩, htail⟩
    rw [hfile, splitOn_unlines_append hls, List.splitOn_append_cons_self,
      List.splitOn_eq_singleton hline, List.singleton_append]
  have hset : ((file []).splitOn '\n').set ls.length (lead ++ t ++ tail) =
      ls ++ (lead ++ t ++ tail) :: rest.splitOn '\n' := by
    rw [hlines [] List.not_mem_nil, List.set_append_right _ _ le_rfl, Nat.sub_self, List.set_cons_zero]
  rw [hset]
  refine ⟨fun he ht => ?_, hlines t⟩
  have hpiece : lead ++ t ++ tail ∈ (file t).splitOn '\n' := by simp [he]
  exact not_mem_of_mem_splitOn hpiece (by simp [ht])

end Text

/-! ### The three files -/

theorem Identity.any_isLineEnd_slug (m : Model) (file default : Text) :
    (resolve m file default).slug.any Text.isLineEnd = false := by
  have hslug : IsSegment (resolve m file default).slug := isSegment_slug m file default
  rw [List.any_eq_false]
  intro c hc hend
  rw [Text.isLineEnd, Bool.or_eq_true, decide_eq_true_eq, decide_eq_true_eq] at hend
  rcases hend with rfl | rfl
  · exact hslug.not_mem (by decide) hc
  · exact hslug.not_mem (by decide) hc

namespace Descriptor

variable {m : Model} {identity : Identity} {source : Text}

/-- The line of the model is a comment, and it stays one if the id and the version do. -/
theorem exists_modelLine_eq_cons (hslug : identity.slug.any Text.isLineEnd = false) :
    ∃ rest, modelLine m identity = '#' :: rest ∧
      (Text.StaysComment rest ↔ Text.StaysComment (Text.trim m.metadata.modelId) ∧
        Text.StaysComment (Text.trim m.metadata.version)) := by
  have hmark : ∀ t, Text.StaysComment (" Model: ".toList ++ t) ↔ Text.StaysComment t := fun t =>
    Text.staysComment_append_left (by decide)
  have hversioned : ∀ id version, Text.StaysComment (" Model: ".toList ++ id ++ " v" ++ version) ↔
      Text.StaysComment id ∧ Text.StaysComment version := fun id version => by
    rw [List.append_assoc, List.append_assoc, hmark, Text.staysComment_append (by simp),
      Text.staysComment_append_left (by decide)]
  have hplain : Text.StaysComment identity.slug := Text.staysComment_of_no_lineEnd hslug
  have hempty : Text.StaysComment [] := trivial
  rw [modelLine]
  generalize Text.trim m.metadata.modelId = id
  generalize Text.trim m.metadata.version = version
  cases id with
  | nil =>
    cases version with
    | nil => exact ⟨" Model: ".toList ++ identity.slug, rfl, by rw [hmark]; simp [hplain, hempty]⟩
    | cons c version =>
      exact ⟨_, rfl, (hversioned identity.slug (c :: version)).trans (by simp [hplain, hempty])⟩
  | cons d id =>
    cases version with
    | nil => exact ⟨" Model: ".toList ++ (d :: id), rfl, by rw [hmark]; simp [hempty]⟩
    | cons c version => exact ⟨_, rfl, hversioned (d :: id) (c :: version)⟩

/-- The header of a descriptor is a block of comments exactly if what is written into it stays there. -/
theorem header_comments_iff (hslug : identity.slug.any Text.isLineEnd = false) :
    (∀ line ∈ (Text.join ['\n'] (header m identity source)).splitOnP Text.isLineEnd,
        line.head? = some '#') ↔
      Text.StaysComment source ∧ Text.StaysComment (Text.trim m.metadata.modelId) ∧
        Text.StaysComment (Text.trim m.metadata.version) := by
  obtain ⟨model, hmodel, hstays⟩ := exists_modelLine_eq_cons (m := m) hslug
  obtain ⟨lock, hlock, hkept⟩ : ∃ lock : Text,
      lockMark ++ " - regenerate with \x60fcm-bridge generate\x60 instead" = '#' :: lock ∧
        Text.StaysComment lock :=
    ⟨(lockMark ++ " - regenerate with \x60fcm-bridge generate\x60 instead").tail, by decide,
      by decide⟩
  have hjoin : Text.join ['\n'] (header m identity source) =
      sourceMark ++ source ++ '\n' :: '#' :: (model ++ '\n' :: '#' :: lock) := by
    rw [header, hmodel, hlock]
    simp [Text.join]
  have hsource : Text.StaysComment (sourceMark ++ source) ↔ Text.StaysComment source :=
    Text.staysComment_append_left (by decide)
  have hhead : (sourceMark ++ source ++ '\n' :: '#' :: (model ++ '\n' :: '#' :: lock)).head? =
      some '#' := rfl
  rw [Text.forall_splitOnP_iff, hjoin, Text.staysComment_append_lineFeed,
    Text.staysComment_append_lineFeed, hsource, hstays]
  simp only [hhead, hkept, true_and, and_true]

/-- The header stands above an empty line. -/
theorem render_eq_header (m : Model) (identity : Identity) (source : Text) :
    render m identity source =
      Text.join ['\n'] (header m identity source) ++ '\n' :: '\n' :: body m identity := by
  simp [render, header, Text.join]

end Descriptor

/-- The comment that names a source outside of descriptors. -/
def sourceComment (source : Text) : Text := sourceMark ++ source ++ " - DO NOT EDIT"

theorem Dockerfile.exists_render_eq (m : Model) (image : Text) :
    ∃ rest, ∀ source, render m image source = sourceComment source ++ '\n' :: rest := by
  have hstart : ∀ source rest : Text,
      "# Generated from ".toList ++ source ++ " - DO NOT EDIT\nFROM ".toList ++ rest =
        sourceComment source ++ '\n' :: ("FROM ".toList ++ rest) := fun source rest => by
    have hbreak : " - DO NOT EDIT\nFROM ".toList ++ rest =
      " - DO NOT EDIT".toList ++ '\n' :: ("FROM ".toList ++ rest) := rfl
    rw [List.append_assoc, hbreak, sourceComment, List.append_assoc _ _ ('\n' :: _)]
    exact rfl
  have hgroup : ∀ start a b c d e : Text, start ++ a ++ b ++ c ++ d ++ e =
      start ++ (a ++ (b ++ (c ++ (d ++ e)))) := fun start a b c d e => by
    simp only [List.append_assoc]
  exact ⟨_, fun source => (hgroup _ _ _ _ _ _).trans (hstart source _)⟩

/-- Only the first line of a build file depends on the source, unless a line feed is in it. -/
theorem Dockerfile.splitOn_render_iff (m : Model) (image source : Text) :
    (render m image source).splitOn '\n' =
        ((render m image []).splitOn '\n').set 0 (sourceComment source) ↔ '\n' ∉ source := by
  obtain ⟨rest, hfile⟩ := exists_render_eq m image
  have hlines : ∀ t, render m image t =
      Text.unlines [] ++ (sourceMark ++ t ++ " - DO NOT EDIT".toList ++ '\n' :: rest) := hfile
  exact Text.splitOn_eq_set_iff hlines (List.forall_mem_nil _) (by decide) (by decide) source

theorem Entrypoint.exists_render_eq (m : Model) (identity : Identity) :
    ∃ rest, ∀ source, render m identity source =
      "#!/usr/bin/env bash".toList ++ '\n' :: (sourceComment source ++ '\n' :: rest) := by
  refine ⟨Text.unlines ((scriptLines m identity []).drop 2), fun source => ?_⟩
  have hlines : scriptLines m identity source = "#!/usr/bin/env bash".toList ::
      sourceComment source :: (scriptLines m identity []).drop 2 := rfl
  have hrender : render m identity source = Text.unlines (scriptLines m identity source) := rfl
  rw [hrender, hlines, Text.unlines_cons, Text.unlines_cons]

/-- Only the second line of an entry point depends on the source, unless a line feed is in it. -/
theorem Entrypoint.splitOn_render_iff (m : Model) (identity : Identity) (source : Text) :
    (render m identity source).splitOn '\n' =
        ((render m identity []).splitOn '\n').set 1 (sourceComment source) ↔ '\n' ∉ source := by
  obtain ⟨rest, hfile⟩ := exists_render_eq m identity
  have hlines : ∀ t, render m identity t = Text.unlines ["#!/usr/bin/env bash".toList] ++
      (sourceMark ++ t ++ " - DO NOT EDIT".toList ++ '\n' :: rest) := fun t => by
    rw [hfile, Text.unlines_cons, List.append_assoc]
    exact rfl
  exact Text.splitOn_eq_set_iff hlines (by decide) (by decide) (by decide) source

/-- **What is written into comments** stays there or not: the header of a descriptor, which stands
above an empty line, is a block of comments exactly if the path of the model, its id and its version
stay comments; and in the two other files a path is on the line meant for it, and nothing else depends
on it, exactly if no line feed is in it. -/
theorem Bundle.comments_hold_iff (m : Model) (file default source : Text) (bytes : Bytes)
    (generatedAt image : Text) :
    let identity := Identity.resolve m file default
    let bundle := Bundle.render m identity source bytes generatedAt image
    let unnamed := Bundle.render m identity [] bytes generatedAt image
    (∃ header, bundle.descriptor = header ++ '\n' :: '\n' :: Descriptor.body m identity ∧
      ((∀ line ∈ header.splitOnP Text.isLineEnd, line.head? = some '#') ↔
        Text.StaysComment source ∧ Text.StaysComment (Text.trim m.metadata.modelId) ∧
          Text.StaysComment (Text.trim m.metadata.version))) ∧
    (bundle.dockerfile.splitOn '\n' =
        (unnamed.dockerfile.splitOn '\n').set 0 (sourceComment source) ↔ '\n' ∉ source) ∧
    (bundle.entrypoint.splitOn '\n' =
        (unnamed.entrypoint.splitOn '\n').set 1 (sourceComment source) ↔ '\n' ∉ source) := by
  exact ⟨⟨_, Descriptor.render_eq_header m _ source,
      Descriptor.header_comments_iff (Identity.any_isLineEnd_slug m file default)⟩,
    Dockerfile.splitOn_render_iff m image source, Entrypoint.splitOn_render_iff m _ source⟩

/-- A model with a carriage return within its id. -/
def sampleReturn : Text := "Model: a\rname: b\n"

/-- What is read from it. -/
def sampleReturnModel : Model where
  metadata := { modelId := "a\rname: b" }

/-- What stands behind the carriage return is no comment in the header. -/
theorem Bundle.line_sampleReturn :
    Model.parse .strict sampleReturn = .ok sampleReturnModel ∧
      "name: b".toList ∈ (Text.join ['\n'] (Descriptor.header sampleReturnModel
        (Identity.resolve sampleReturnModel "m.fcm" "core") "m.fcm")).splitOnP Text.isLineEnd := by
  decide

end ActionBundles
