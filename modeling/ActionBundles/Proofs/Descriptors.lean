import ActionBundles.Bundle.Basic
import ActionBundles.Proofs.ParsedModels
import ActionBundles.Proofs.Plans
import ActionBundles.Proofs.WrittenDocuments
import Mathlib.Data.List.Induction

/-!
# Descriptors that were written

A descriptor that was written for a model is as the checks want it: it has its header, and without
the comment lines it is the document that was written below the header.
-/

namespace ActionBundles

/-! ### Capitals -/

namespace Text

variable {t : Text}

theorem eq_lineFeed_of_ofNat {n : Nat} (h : Char.ofNat n = '\n') : n = 10 := by
  by_cases hvalid : n.isValidChar
  · rw [Char.ofNat, dif_pos hvalid] at h
    exact congrArg Char.toNat h
  · rw [Char.ofNat, dif_neg hvalid] at h
    exact absurd h (by decide)

theorem lineFeed_not_mem_capital {c : Char} (hc : c ≠ '\n') : '\n' ∉ capital c := by
  have hlong : (longCapitals.all fun e => 10 ∉ e.2) = true := by decide
  have hruns : (capitalRuns.all fun r => 10 < r.2.2.2) = true := by decide
  rw [capital]
  split
  · next codes hfind =>
    intro h
    obtain ⟨n, hn, he⟩ := List.mem_map.1 h
    obtain rfl := eq_lineFeed_of_ofNat he
    exact of_decide_eq_true (List.all_eq_true.1 hlong _ (List.mem_of_find?_eq_some hfind)) hn
  · split
    · next first _ _ start hfind =>
      intro h
      have he := eq_lineFeed_of_ofNat (List.mem_singleton.1 h).symm
      have hstart :=
        of_decide_eq_true (List.all_eq_true.1 hruns _ (List.mem_of_find?_eq_some hfind))
      dsimp only at hstart
      omega
    · rw [List.mem_singleton]
      exact hc.symm

theorem lineFeed_not_mem_capitalized (h : '\n' ∉ t) : '\n' ∉ capitalized t := by
  cases t with
  | nil => exact h
  | cons c rest =>
    rw [List.mem_cons, not_or] at h
    rw [capitalized, List.mem_append, not_or]
    exact ⟨lineFeed_not_mem_capital (Ne.symm h.1), h.2⟩

theorem lineFeed_not_mem_humanize (h : '\n' ∉ t) : '\n' ∉ humanize t := by
  refine lineFeed_not_mem_capitalized fun hc => ?_
  obtain ⟨d, hd, he⟩ := List.mem_map.1 (mem_of_mem_trim hc)
  split at he
  · exact absurd he (by decide)
  · exact h (he ▸ hd)

theorem lineFeed_not_mem_join {sep : Text} {ts : List Text} (hsep : '\n' ∉ sep)
    (h : ∀ t ∈ ts, '\n' ∉ t) : '\n' ∉ join sep ts := fun hc => by
  rcases mem_join hc with hc | ⟨t, ht, hc⟩
  · exact hsep hc
  · exact h t ht hc

end Text

theorem Identity.lineFeed_not_mem_titleOf {slug : Text} (h : '\n' ∉ slug) :
    '\n' ∉ titleOf slug := by
  refine Text.lineFeed_not_mem_join (by decide) fun t ht => ?_
  obtain ⟨piece, hpiece, rfl⟩ := List.mem_map.1 ht
  exact Text.lineFeed_not_mem_capitalized fun hc =>
    h (Text.mem_of_mem_splitOn (List.mem_filter.1 hpiece).1 hc)

namespace Descriptor

/-! ### The document -/

theorem mem_assign {α : Type} {entries : List (Text × α)} {name : Text} {value : α} {e : Text × α}
    (h : e ∈ assign entries name value) : e ∈ entries ∨ e = (name, value) := by
  rw [assign] at h
  split at h
  · obtain ⟨e', he', rfl⟩ := List.mem_map.1 h
    split
    · exact .inr rfl
    · exact .inl he'
  · rcases List.mem_append.1 h with h | h
    · exact .inl h
    · exact .inr (List.mem_singleton.1 h)

theorem assignAll_concat {α : Type} (items : List (Text × α)) (item : Text × α) :
    assignAll (items ++ [item]) = assign (assignAll items) item.1 item.2 := List.foldl_concat ..

theorem mem_assignAll {α : Type} {items : List (Text × α)} {e : Text × α}
    (h : e ∈ assignAll items) : e ∈ items := by
  induction items using List.reverseRecOn with
  | nil => exact h
  | append_singleton items item ih =>
    rw [assignAll_concat] at h
    rw [List.mem_append, List.mem_singleton]
    exact (mem_assign h).imp_left ih

theorem lineFeed_not_mem_describeInput {p : Parameter} (h : p.IsLinear) :
    '\n' ∉ describeInput p := by
  have hbase := Text.lineFeed_not_mem_humanize h.name.noLineEnd
  have hkind := h.kind
  rw [describeInput]
  split
  · exact hbase
  · next values he =>
    rw [he] at hkind
    simp only [List.mem_append, not_or]
    exact ⟨⟨hbase, by decide⟩, Text.lineFeed_not_mem_join (by decide) hkind⟩
  · simp only [List.mem_append, not_or]
    exact ⟨hbase, by decide⟩
  · simp only [List.mem_append, not_or]
    exact ⟨hbase, by decide⟩

theorem any_name_iff {α : Type} {entries : List (Text × α)} {name : Text} :
    entries.any (·.1 = name) = true ↔ name ∈ entries.map Prod.fst := by
  simp only [List.any_eq_true, decide_eq_true_eq, List.mem_map]

/-- A name that has a value keeps its place, and any other comes last. -/
theorem map_fst_assign {α : Type} (entries : List (Text × α)) (name : Text) (value : α) :
    (assign entries name value).map Prod.fst =
      if name ∈ entries.map Prod.fst then entries.map Prod.fst
      else entries.map Prod.fst ++ [name] := by
  rw [assign]
  by_cases h : entries.any (·.1 = name) = true
  · rw [if_pos h, if_pos (any_name_iff.1 h), List.map_map]
    refine List.map_congr_left fun e _ => ?_
    rw [Function.comp_apply]
    split
    · next he => exact he.symm
    · rfl
  · rw [if_neg h, if_neg (mt any_name_iff.2 h), List.map_append, List.map_singleton]

/-- The names of what is assigned differ. -/
theorem nodup_assign {α : Type} {entries : List (Text × α)} (h : (entries.map Prod.fst).Nodup)
    (name : Text) (value : α) : ((assign entries name value).map Prod.fst).Nodup := by
  rw [map_fst_assign]
  split
  · exact h
  · next hnew => exact List.nodup_append_comm.1 (List.nodup_cons.2 ⟨hnew, h⟩)

theorem nodup_assignAll {α : Type} (items : List (Text × α)) :
    ((assignAll items).map Prod.fst).Nodup := by
  induction items using List.reverseRecOn with
  | nil => exact List.nodup_nil
  | append_singleton items item ih =>
    rw [assignAll_concat]
    exact nodup_assign ih item.1 item.2

section Outlines

open Yaml

theorem sound_entry {depth : Nat} {key : Text} {value : Outline} (hkey : Text.IsInline key)
    (hvalue : value.IsSound depth) :
    Text.IsInline (key, value).1 ∧ Outline.IsSound depth (key, value).2 := ⟨hkey, hvalue⟩

theorem isSound_mapping {depth : Nat} {entries : List (Text × Outline)}
    (hdistinct : (entries.map Prod.fst).Nodup)
    (h : ∀ e ∈ entries, Text.IsInline e.1 ∧ Outline.IsSound depth e.2) :
    Outline.IsSound (depth + 1) (.mapping entries) :=
  .mapping (fun e he => (h e he).1) hdistinct fun e he => (h e he).2

theorem isSound_inputOutline {input : Input} (h : '\n' ∉ input.description) :
    (inputOutline input).IsSound 1 := by
  have hempty : Outline.IsSound 0 (.text []) := .text List.not_mem_nil
  refine isSound_mapping ?_ (List.forall_mem_cons.2 ⟨sound_entry (by decide) (.text h),
    List.forall_mem_cons.2 ⟨sound_entry (by decide) (.bool _), ?_⟩⟩)
  · split <;> simp only [List.map_cons, List.map_nil] <;> decide
  · split
    · simp
    · exact List.forall_mem_singleton.2 (sound_entry (by decide) hempty)

theorem isSound_outputOutline {description : Text} (h : '\n' ∉ description) :
    (outputOutline description).IsSound 1 :=
  isSound_mapping (List.nodup_singleton _)
    (List.forall_mem_singleton.2 (sound_entry (by decide) (.text h)))

/-- The document of a model that was read can be written on lines. -/
theorem isSound_outline {m : Model} {identity : Identity} (hm : m.IsLinear)
    (htitle : '\n' ∉ identity.title) :
    Outline.IsSound 3 (.mapping (ofModel m identity).outline) := by
  have hinputs : Outline.IsSound 2
      (.mapping ((ofModel m identity).inputs.map fun e => (e.1, inputOutline e.2))) := by
    refine isSound_mapping ?_ (List.forall_mem_map.2 fun e he => ?_)
    · rw [List.map_map]
      exact nodup_assignAll _
    · obtain ⟨p, hp, rfl⟩ := List.mem_map.1 (mem_assignAll he)
      have hlinear := hm.parameters p hp
      exact ⟨hlinear.name, isSound_inputOutline (lineFeed_not_mem_describeInput hlinear)⟩
  have houtputs : Outline.IsSound 2
      (.mapping ((ofModel m identity).outputs.map fun e => (e.1, outputOutline e.2))) := by
    refine isSound_mapping ?_ (List.forall_mem_map.2 fun e he => ?_)
    · rw [List.map_map]
      exact nodup_assignAll _
    · obtain ⟨o, ho, rfl⟩ := List.mem_map.1 (mem_assignAll he)
      have hlinear := hm.outputs o ho
      refine ⟨hlinear.name, isSound_outputOutline ?_⟩
      rw [outputOf]
      cases hdescription : o.description with
      | none => exact Text.lineFeed_not_mem_humanize hlinear.name.noLineEnd
      | some t => exact hlinear.description t hdescription
  have hruns : Outline.IsSound 2
      (.mapping [("using", .text "docker"), ("image", .text "Dockerfile")]) := by
    refine isSound_mapping (by decide) (List.forall_mem_cons.2 ⟨sound_entry (by decide) (.text ?_),
      List.forall_mem_singleton.2 (sound_entry (by decide) (.text ?_))⟩) <;> decide
  have hcapability : '\n' ∉ Text.trim m.capability := fun hc =>
    hm.capability (Text.mem_of_mem_trim hc)
  refine isSound_mapping ?_ (List.forall_mem_cons.2 ⟨sound_entry (by decide) (.text htitle),
    List.forall_mem_cons.2 ⟨sound_entry (by decide) (.text hcapability),
    List.forall_mem_cons.2 ⟨sound_entry (by decide) hinputs,
    List.forall_mem_cons.2 ⟨sound_entry (by decide) houtputs,
    List.forall_mem_singleton.2 (sound_entry (by decide) hruns)⟩⟩⟩⟩)
  simp only [outline, List.map_cons, List.map_nil]
  decide

end Outlines

/-! ### The header -/

/-- What starts a line and does not end with a carriage return starts it still after the line was
cut out of a text. -/
theorem prefix_dropReturn {mark : Text} (h : mark.getLast? ≠ some '\r') (rest : Text) :
    mark <+: Text.dropReturn (mark ++ rest) := by
  rw [Text.dropReturn]
  rcases List.eq_nil_or_concat rest with rfl | ⟨front, c, rfl⟩
  · rw [List.append_nil]
    exact (if_neg h).symm ▸ List.prefix_refl mark
  · rw [List.concat_eq_append, ← List.append_assoc, List.dropLast_concat]
    split
    · exact List.prefix_append mark front
    · exact (List.prefix_append mark front).trans (List.prefix_append _ _)

/-- The start of a comment starts its line, with whatever line ending. -/
theorem prefix_trimStart_dropReturn {mark : Text} (hhead : mark.head? = some '#')
    (hlast : mark.getLast? ≠ some '\r') (rest : Text) :
    mark <+: Text.trimStart (Text.dropReturn (mark ++ rest)) := by
  obtain ⟨more, he⟩ := prefix_dropReturn hlast rest
  cases mark with
  | nil => cases hhead
  | cons c mark =>
    obtain rfl : c = '#' := Option.some.inj hhead
    rw [← he, List.cons_append, Text.trimStart_of_head (by decide)]
    exact List.prefix_append ('#' :: mark) more

theorem isComment_dropReturn {mark : Text} (hhead : mark.head? = some '#')
    (hlast : mark.getLast? ≠ some '\r') (rest : Text) :
    isComment (Text.dropReturn (mark ++ rest)) = true := by
  obtain ⟨more, he⟩ := prefix_trimStart_dropReturn hhead hlast rest
  cases mark with
  | nil => cases hhead
  | cons c mark =>
    rw [isComment, ← he, List.cons_append, List.head?_cons]
    exact decide_eq_true hhead

variable {m : Model} {identity : Identity} {source : Text}

/-- The lines of a header: each is a comment in which no line feed is. -/
structure IsHeaderLine (line : Text) : Prop where
  noLineFeed : '\n' ∉ line
  comment : isComment (Text.dropReturn line) = true

theorem isHeaderLine_of_mark {mark rest : Text} (hhead : mark.head? = some '#')
    (hlast : mark.getLast? ≠ some '\r') (hmark : '\n' ∉ mark) (hrest : '\n' ∉ rest) :
    IsHeaderLine (mark ++ rest) where
  noLineFeed := by
    rw [List.mem_append, not_or]
    exact ⟨hmark, hrest⟩
  comment := isComment_dropReturn hhead hlast rest

theorem exists_modelLine (hm : m.IsLinear) (hslug : '\n' ∉ identity.slug) :
    ∃ rest, modelLine m identity = "# Model: ".toList ++ rest ∧ '\n' ∉ rest := by
  have hfield : ∀ field, '\n' ∉ Text.trim (m.metadata.get field) := fun field hc =>
    hm.metadata field (Text.mem_of_mem_trim hc)
  have hmodelId : '\n' ∉ Text.trim m.metadata.modelId := hfield .modelId
  have hversion : '\n' ∉ Text.trim m.metadata.version := hfield .version
  have hversioned : ∀ id v : Text, '\n' ∉ id → '\n' ∉ v → '\n' ∉ id ++ (" v".toList ++ v) :=
    fun id v hid hv => by
      simp only [List.mem_append, not_or]
      exact ⟨hid, by decide, hv⟩
  rw [modelLine]
  generalize Text.trim m.metadata.modelId = modelId at hmodelId
  generalize Text.trim m.metadata.version = version at hversion
  cases modelId <;> cases version <;> dsimp only
  · exact ⟨_, rfl, hslug⟩
  · exact ⟨_, by rw [List.append_assoc, List.append_assoc], hversioned _ _ hslug hversion⟩
  · exact ⟨_, rfl, hmodelId⟩
  · exact ⟨_, by rw [List.append_assoc, List.append_assoc], hversioned _ _ hmodelId hversion⟩

theorem isHeaderLine_of_mem (hm : m.IsLinear) (hslug : '\n' ∉ identity.slug)
    (hsource : '\n' ∉ source) : ∀ line ∈ header m identity source, IsHeaderLine line := by
  obtain ⟨rest, hmodel, hrest⟩ := exists_modelLine hm hslug
  rw [header, hmodel]
  refine List.forall_mem_cons.2 ⟨?_, List.forall_mem_cons.2 ⟨?_, List.forall_mem_singleton.2 ?_⟩⟩
  · exact isHeaderLine_of_mark (by decide) (by decide) (by decide) hsource
  · exact isHeaderLine_of_mark (by decide) (by decide) (by decide) hrest
  · exact isHeaderLine_of_mark (by decide) (by decide) (by decide) (by decide)

/-- The text of a descriptor in lines: those of the header, an empty one, and code. -/
theorem exists_render_eq (hm : m.IsLinear) (htitle : '\n' ∉ identity.title) (source : Text) :
    ∃ ls, render m identity source = Text.unlines (header m identity source ++ [] :: ls) ∧
      body m identity = Text.unlines ls ∧ ∀ line ∈ ls, IsCode line := by
  obtain ⟨ls, hbody, hls⟩ := Yaml.isSource_render (isSound_outline hm htitle)
  refine ⟨ls, ?_, hbody, hls⟩
  rw [render, body, hbody]
  simp [Text.unlines]

theorem lineFeed_not_mem_written (hm : m.IsLinear) (hslug : '\n' ∉ identity.slug)
    (hsource : '\n' ∉ source) {ls : List Text} (hls : ∀ line ∈ ls, IsCode line) :
    ∀ line ∈ header m identity source ++ [] :: ls, '\n' ∉ line := by
  intro line hline
  rcases List.mem_append.1 hline with hline | hline
  · exact (isHeaderLine_of_mem hm hslug hsource line hline).noLineFeed
  rcases List.mem_cons.1 hline with rfl | hline
  · exact List.not_mem_nil
  · exact (hls line hline).noLineFeed

theorem join_lineFeed {ls : List Text} (h : ls ≠ []) :
    Text.join ['\n'] ls = (Text.unlines ls).dropLast := by
  induction ls with
  | nil => exact absurd rfl h
  | cons l ls ih =>
    cases ls with
    | nil => simp [Text.join, Text.unlines]
    | cons l' ls =>
      have hrest : Text.unlines (l' :: ls) ≠ [] := by simp [Text.unlines]
      have hcons : Text.unlines (l :: l' :: ls) = (l ++ ['\n']) ++ Text.unlines (l' :: ls) := by
        simp [Text.unlines]
      rw [hcons, List.dropLast_append_of_ne_nil hrest, ← ih (List.cons_ne_nil _ _), Text.join,
        List.intercalate_cons_cons]
      rfl

theorem map_dropReturn_of_isCode {ls : List Text} (h : ∀ line ∈ ls, IsCode line) :
    ls.map Text.dropReturn = ls :=
  (List.map_congr_left fun line hline => by
    rw [Text.dropReturn, if_neg (h line hline).noReturn, id]).trans (List.map_id ls)

theorem lines_unlines_of_isCode {ls : List Text} (h : ∀ line ∈ ls, IsCode line) :
    Text.lines (Text.unlines ls) = ls := by
  rw [Text.lines_unlines fun line hline => (h line hline).noLineFeed, map_dropReturn_of_isCode h]

/-- What is left of a descriptor without its comment lines: an empty line, and the lines of the
document that was written below it. -/
theorem filter_lines_render (hm : m.IsLinear) (hslug : '\n' ∉ identity.slug)
    (htitle : '\n' ∉ identity.title) (hsource : '\n' ∉ source) :
    (Text.lines (render m identity source)).filter (!isComment ·) =
      [] :: Text.lines (body m identity) := by
  obtain ⟨ls, hrender, hbody, hls⟩ := exists_render_eq hm htitle source
  have hheader := isHeaderLine_of_mem hm hslug hsource
  have hlines := lineFeed_not_mem_written hm hslug hsource hls
  have hcomments : ((header m identity source).map Text.dropReturn).filter (!isComment ·) = [] := by
    rw [List.filter_eq_nil_iff]
    intro line hline
    obtain ⟨raw, hraw, rfl⟩ := List.mem_map.1 hline
    simp [(hheader raw hraw).comment]
  have hcode : (ls.map Text.dropReturn).filter (!isComment ·) = ls := by
    rw [map_dropReturn_of_isCode hls, List.filter_eq_self]
    intro line hline
    simp [(hls line hline).noComment]
  have hempty : isComment (Text.dropReturn []) = false := by decide
  rw [hrender, Text.lines_unlines hlines, List.map_append, List.filter_append, hcomments,
    List.nil_append, List.map_cons, List.filter_cons, hempty, hcode, hbody,
    lines_unlines_of_isCode hls]
  rfl

/-- **Without its comments** a descriptor is the document that was written below its header, after
an empty line and up to the end of the last line. -/
theorem withoutComments_render (hm : m.IsLinear) (hslug : '\n' ∉ identity.slug)
    (htitle : '\n' ∉ identity.title) (hsource : '\n' ∉ source) :
    withoutComments (render m identity source) = ('\n' :: body m identity).dropLast := by
  obtain ⟨ls, -, hbody, hls⟩ := exists_render_eq hm htitle source
  have hjoin : Text.join ['\n'] ([] :: ls) = (Text.unlines ([] :: ls)).dropLast :=
    join_lineFeed (List.cons_ne_nil _ _)
  rw [withoutComments, filter_lines_render hm hslug htitle hsource, hbody,
    lines_unlines_of_isCode hls]
  exact hjoin

/-- A text has a line that starts with a mark if one of its lines was written so. -/
theorem hasLine_of_mem {mark : Text} (rest : Text) {ls : List Text} (hhead : mark.head? = some '#')
    (hlast : mark.getLast? ≠ some '\r') (hls : ∀ line ∈ ls, '\n' ∉ line) (h : mark ++ rest ∈ ls) :
    hasLine mark (Text.unlines ls) = true := by
  rw [hasLine, Text.lines_unlines hls]
  exact List.any_eq_true.2 ⟨_, List.mem_map_of_mem h,
    List.isPrefixOf_iff_prefix.2 (prefix_trimStart_dropReturn hhead hlast rest)⟩

/-- A descriptor has its header. -/
theorem hasProvenance_render (hm : m.IsLinear) (hslug : '\n' ∉ identity.slug)
    (htitle : '\n' ∉ identity.title) (hsource : '\n' ∉ source) :
    hasProvenance (render m identity source) = true := by
  obtain ⟨ls, hrender, -, hls⟩ := exists_render_eq hm htitle source
  have hlines := lineFeed_not_mem_written hm hslug hsource hls
  rw [hasProvenance, hrender, Bool.and_eq_true]
  refine ⟨hasLine_of_mem source (by decide) (by decide) hlines ?_,
    hasLine_of_mem " - regenerate with \x60fcm-bridge generate\x60 instead" (by decide) (by decide)
      hlines ?_⟩
  · simp [header]
  · simp [header]

end Descriptor

end ActionBundles
