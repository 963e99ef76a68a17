import ActionBundles.Proofs.Comments
import ActionBundles.Proofs.ShellTokens

/-!
# Scripts of models

The entry point of an action is the same script for every model, but for a comment, the words of
three reports and the command that it hands over to. Whatever stands in a model, the shell reads the
reports as single words that are exactly the texts reported, and the command as a name of small
letters, digits and dashes (`Entrypoint.reads_as_written`).
-/

namespace ActionBundles

/-! ### Slugs -/

namespace Identity

/-- A run of small letters and digits. -/
structure IsRun (r : Text) : Prop where
  ne_nil : r ≠ []
  char : ∀ c ∈ r, c.isLower = true ∨ c.isDigit = true

/-- Runs with single dashes between them. -/
def IsDashed (t : Text) : Prop := ∃ rs ≠ [], (∀ r ∈ rs, IsRun r) ∧ t = Text.join ['-'] rs

variable {c : Char} {t raw r : Text}

/-- What is left of letters and digits once capitals are made small. -/
theorem isLower_or_isDigit_of_toLower (h : c.toLower.isAlphanum = true) :
    c.toLower.isLower = true ∨ c.toLower.isDigit = true := by
  change (c.toLower.isUpper || c.toLower.isLower || c.toLower.isDigit) = true at h
  rw [Bool.or_eq_true, Bool.or_eq_true] at h
  rcases h with (h | h) | h
  · -- no capital is left
    exfalso
    replace h : 65 ≤ c.toLower.val ∧ c.toLower.val ≤ 90 := of_decide_eq_true h
    by_cases hcapital : 65 ≤ c.val ∧ c.val ≤ 90
    · have hval : c.toLower.val = c.val + 32 := congrArg Char.val (dif_pos hcapital)
      have hlow : 65 ≤ c.val.toNat := UInt32.le_iff_toNat_le.1 hcapital.1
      have hhigh : c.val.toNat ≤ 90 := UInt32.le_iff_toNat_le.1 hcapital.2
      have hcap : (c.val + 32).toNat ≤ 90 := UInt32.le_iff_toNat_le.1 (hval ▸ h.2)
      have hsum : (c.val + 32).toNat = c.val.toNat + 32 := by
        have hsmall : c.val.toNat + 32 < 2 ^ 32 := by omega
        exact (UInt32.toNat_add _ _).trans (Nat.mod_eq_of_lt hsmall)
      omega
    · have hval : c.toLower.val = c.val := congrArg Char.val (dif_neg hcapital)
      exact hcapital (hval ▸ h)
  · exact .inl h
  · exact .inr h

theorem isRun_of_mem_runs (h : r ∈ runs raw) : IsRun r := by
  obtain ⟨hpiece, hne⟩ := List.mem_filter.1 h
  refine ⟨by simpa using hne, fun c hc => ?_⟩
  obtain ⟨b, hb, rfl⟩ := List.mem_map.1 (Text.mem_of_mem_splitOn hpiece hc)
  have hdash : segmentChar b ≠ '-' := fun he => Text.not_mem_of_mem_splitOn hpiece (he ▸ hc)
  obtain ⟨d, -, rfl⟩ := List.mem_map.1 hb
  rw [segmentChar] at hdash ⊢
  split at hdash
  · next halnum =>
    rw [if_pos halnum]
    exact isLower_or_isDigit_of_toLower halnum
  · exact absurd rfl hdash

/-- A segment is made of its runs, unless there are none. -/
theorem isDashed_segment (h : segment raw ≠ []) : IsDashed (segment raw) :=
  ⟨runs raw, fun hnone => h (by rw [segment, hnone]; rfl), fun _ => isRun_of_mem_runs, rfl⟩

theorem isDashed_of_slugOf? {modelId slug : Text} (h : slugOf? modelId = some slug) :
    IsDashed slug := by
  rw [slugOf?] at h
  split at h
  · cases h
  · next hne =>
    cases h
    exact isDashed_segment hne

/-- Whatever the model says, its slug is made of runs. -/
theorem isDashed_slug (m : Model) (file default : Text) :
    IsDashed (resolve m file default).slug := by
  have hfallback : IsDashed fallbackSlug := ⟨[fallbackSlug], by simp, by
    rw [List.forall_mem_singleton]
    exact ⟨by decide, by simp [fallbackSlug]⟩, rfl⟩
  rw [resolve]
  dsimp only
  cases hslug : (slugOf? m.metadata.modelId).or ((Path.stem? file).bind slugOf?) with
  | none => exact hfallback
  | some slug =>
    rcases Option.or_eq_some_iff.1 hslug with hslug | ⟨-, hslug⟩
    · exact isDashed_of_slugOf? hslug
    · obtain ⟨stem, -, hslug⟩ := Option.bind_eq_some_iff.1 hslug
      exact isDashed_of_slugOf? hslug

theorem IsDashed.char (h : IsDashed t) (hc : c ∈ t) :
    c.isLower = true ∨ c.isDigit = true ∨ c = '-' := by
  obtain ⟨rs, -, hrs, rfl⟩ := h
  rcases Text.mem_join hc with hdash | ⟨r, hr, hc⟩
  · exact .inr (.inr (List.mem_singleton.1 hdash))
  · exact ((hrs r hr).char c hc).imp_right .inl

/-- A text of runs starts with the first character of a run. -/
theorem IsDashed.exists_head (h : IsDashed t) :
    ∃ c rest, t = c :: rest ∧ (c.isLower = true ∨ c.isDigit = true) := by
  obtain ⟨rs, hne, hrs, rfl⟩ := h
  obtain ⟨r, rs, rfl⟩ := List.exists_cons_of_ne_nil hne
  have hr := hrs r List.mem_cons_self
  obtain ⟨c, r, rfl⟩ := List.exists_cons_of_ne_nil hr.ne_nil
  cases rs with
  | nil => exact ⟨c, r ++ [], rfl, hr.char c List.mem_cons_self⟩
  | cons s rs => exact ⟨c, _, rfl, hr.char c List.mem_cons_self⟩

end Identity

/-! ### Words -/

namespace Shell

/-- A text that is read as one word. -/
abbrev IsWord (written : Text) (parts : List Part) : Prop :=
  run .between written = some ([], .word parts .off)

/-- A text that is read as one word, which is the text `t` once its quotes are gone. -/
structure Writes (written : Text) (parts : List Part) (t : Text) : Prop where
  word : IsWord written parts
  literal : literal? parts = some t

/-- The characters of slugs are read as they are. -/
theorem isBare_of_slug {c : Char} (h : c.isLower = true ∨ c.isDigit = true ∨ c = '-') :
    IsBare c := by
  have hmarks : ((['\n', ' ', '\t'] ++ operatorStarts ++ quoteStarts).all fun d =>
      !(d.isLower || d.isDigit || d = '-')) = true := by decide
  have hc : c ∉ ['\n', ' ', '\t'] ++ operatorStarts ++ quoteStarts := fun hmem => by
    have hnot := List.all_eq_true.1 hmarks c hmem
    rw [← or_assoc, ← Bool.or_eq_true, ← decide_eq_true_eq (p := c = '-'), ← Bool.or_eq_true] at h
    rw [h] at hnot
    cases hnot
  rw [List.mem_append, List.mem_append, not_or, not_or] at hc
  refine ⟨?_, hc.2⟩
  simpa [endsWord, and_assoc] using hc.1

theorem isWord_slug {slug : Text} (h : Identity.IsDashed slug) : IsWord slug (slug.map .bare) := by
  obtain ⟨c, rest, rfl, hc⟩ := h.exists_head
  refine run_between_bare (fun d hd => isBare_of_slug (h.char hd)) (List.cons_ne_nil c rest) ?_
  rw [List.head?_cons, Ne, Option.some_inj]
  rintro rfl
  exact absurd hc (by decide)

/-- A text with a blank in it is written with quotes. -/
theorem writes_quote {t : Text} (h : ' ' ∈ t) : Writes (quote t) (t.map .quoted) t :=
  ⟨run_quote (List.any_eq_true.2 ⟨' ', h, by decide⟩), literal?_quoted t⟩

end Shell

namespace Entrypoint

open Shell

variable {m : Model} {slug source : Text}

/-- The text of a model has a blank in it, unless neither its id nor its version says anything. -/
theorem modelText_cases (m : Model) : ' ' ∈ modelText m ∨ modelText m = "Model:".toList := by
  obtain ⟨said, hsaid⟩ : ∃ said, modelText m = Text.trimEnd ("Model: ".toList ++ said) :=
    ⟨Text.trim m.metadata.modelId ++ ' ' :: Text.trim m.metadata.version, by
      rw [modelText, List.append_assoc]⟩
  rw [hsaid, Text.trimEnd, List.reverse_append, List.dropWhile_append]
  split
  · exact .inr (by decide)
  · refine .inl ?_
    rw [List.reverse_append, List.reverse_reverse]
    exact List.mem_append_left _ (by decide)

theorem exists_writes_modelText (m : Model) :
    ∃ parts, Writes (quote (modelText m)) parts (modelText m) := by
  rcases modelText_cases m with h | h
  · exact ⟨_, writes_quote h⟩
  · rw [h]
    exact ⟨"Model:".toList.map .bare, by decide, by decide⟩

/-- The lines of a script, for its comment and the words that come from the model. -/
def frame (slug comment title model notice : Text) : List Text :=
  [ "#!/usr/bin/env bash",
    comment,
    "set -euo pipefail",
    "",
    "echo " ++ title,
    "echo " ++ model,
    "echo \"Arguments: $*\"",
    "",
    "if command -v " ++ slug ++ " >/dev/null 2>&1; then",
    "    exec " ++ slug ++ " \"$@\"",
    "fi",
    "",
    "echo " ++ notice ++ " >&2",
    "exit 0" ]

theorem lineFeed_not_mem_frame {comment title model notice : Text} (hslug : '\n' ∉ slug)
    (hcomment : '\n' ∉ comment) (htitle : '\n' ∉ title) (hmodel : '\n' ∉ model)
    (hnotice : '\n' ∉ notice) : ∀ line ∈ frame slug comment title model notice, '\n' ∉ line := by
  simp [frame, hslug, hcomment, htitle, hmodel, hnotice]

/-- The tokens of these lines. -/
def frameTokens (slug : Text) (title model notice : List Part) : List (List Token) :=
  [ [.lineEnd],
    [.lineEnd],
    [.bare "set", .bare "-euo", .bare "pipefail", .lineEnd],
    [.lineEnd],
    [.bare "echo", .word title, .lineEnd],
    [.bare "echo", .word model, .lineEnd],
    [.bare "echo", .word ("Arguments: ".toList.map .quoted ++ [.parameter '*']), .lineEnd],
    [.lineEnd],
    [.bare "if", .bare "command", .bare "-v", .bare slug, .operator ">", .bare "/dev/null",
      .bare "2", .operator ">&", .bare "1", .operator ";", .bare "then", .lineEnd],
    [.bare "exec", .bare slug, .word [.parameter '@'], .lineEnd],
    [.bare "fi", .lineEnd],
    [.lineEnd],
    [.bare "echo", .word notice, .operator ">&", .bare "2", .lineEnd],
    [.bare "exit", .bare "0", .lineEnd] ]

/-- A word of the model within a line that is the same for all models. -/
theorem isLine_of_isWord {before written : Text} {parts : List Part} {ts us : List Token}
    (after : Text) (hbefore : run .between before = some (ts, .between)) (h : IsWord written parts)
    (hafter : run (.word parts .off) (after ++ ['\n']) = some (us, .between)) :
    IsLine (before ++ written ++ after) (ts ++ us) := by
  rw [IsLine, List.append_assoc, List.append_assoc]
  exact run_append hbefore (run_append h hafter)

theorem run_comment {t : Text} (h : '\n' ∉ t) : run .comment (t ++ ['\n']) =
    some ([.lineEnd], .between) := by
  induction t with
  | nil => rfl
  | cons c t ih =>
    rw [List.mem_cons, not_or] at h
    exact run_cons (by simp [Place.step, Ne.symm h.1]) (ih h.2)

theorem isLine_sourceComment (h : '\n' ∉ source) : IsLine (sourceComment source) [.lineEnd] := by
  have hcomment : '\n' ∉ " Generated from ".toList ++ source ++ " - DO NOT EDIT".toList := by
    simp [h]
  exact run_cons rfl (run_comment hcomment)

/-- The lines of a script are read as tokens one by one. -/
theorem isLine_frame {title model notice : Text} {titleParts modelParts noticeParts : List Part}
    (hsource : '\n' ∉ source) (hslug : IsWord slug (slug.map .bare)) (htitle : IsWord title titleParts)
    (hmodel : IsWord model modelParts) (hnotice : IsWord notice noticeParts) :
    List.Forall₂ IsLine (frame slug (sourceComment source) title model notice)
      (frameTokens slug titleParts modelParts noticeParts) := by
  have hecho : run .between "echo ".toList = some ([.bare "echo"], .between) := by decide
  have hif : run .between "if command -v ".toList =
      some ([.bare "if", .bare "command", .bare "-v"], .between) := by decide
  have hexec : run .between "    exec ".toList = some ([.bare "exec"], .between) := by decide
  have htitle := isLine_of_isWord [] hecho htitle (run_lineEnd titleParts)
  have hmodel := isLine_of_isWord [] hecho hmodel (run_lineEnd modelParts)
  have hnotice := isLine_of_isWord " >&2".toList hecho hnotice rfl
  have hcommand := isLine_of_isWord " >/dev/null 2>&1; then".toList hif hslug rfl
  have hhand := isLine_of_isWord " \"$@\"".toList hexec hslug rfl
  rw [List.append_nil] at htitle hmodel
  rw [frame, frameTokens]
  refine .cons (by decide) <| .cons (isLine_sourceComment hsource) <| .cons (by decide) <|
    .cons (by decide) <| .cons htitle <| .cons hmodel <| .cons (by decide) <| .cons (by decide) <|
    .cons hcommand <| .cons hhand <| .cons (by decide) <| .cons (by decide) <| .cons hnotice <|
    .cons (by decide) .nil

theorem lineFeed_not_mem_quote {t : Text} (h : '\n' ∉ t) : '\n' ∉ quote t := by
  have hquoted : '\n' ∉ t.flatMap quoteChar := fun hmem => by
    obtain ⟨c, hc, hmem⟩ := List.mem_flatMap.1 hmem
    rw [quoteChar] at hmem
    split at hmem
    · exact absurd hmem (by decide)
    · exact h (List.mem_singleton.1 hmem ▸ hc)
  rw [quote]
  split
  · simp [hquoted]
  · exact h

theorem lineFeed_not_mem_modelText (h : m.IsLinear) : '\n' ∉ modelText m := fun hmem => by
  have hid : '\n' ∉ m.metadata.modelId := h.metadata .modelId
  have hversion : '\n' ∉ m.metadata.version := h.metadata .version
  have hmem := (Text.trimEnd_prefix _).subset hmem
  simp only [List.mem_append, List.mem_cons] at hmem
  rcases hmem with (hmem | hmem) | hmem | hmem
  · exact absurd hmem (by decide)
  · exact hid (Text.mem_of_mem_trim hmem)
  · exact absurd hmem (by decide)
  · exact hversion (Text.mem_of_mem_trim hmem)

/-- The lines of the script of a model. -/
theorem splitOn_render {identity : Identity} (hm : m.IsLinear) (hslug : '\n' ∉ identity.slug)
    (htitle : '\n' ∉ identity.title) (hsource : '\n' ∉ source) :
    (render m identity source).splitOn '\n' =
      frame identity.slug (sourceComment source) (quote ("Action: " ++ identity.title))
        (quote (modelText m)) (quote (Entrypoint.notice identity.slug)) ++ [[]] := by
  have hcomment : '\n' ∉ sourceComment source := by
    rw [sourceComment, List.mem_append, List.mem_append, not_or, not_or]
    exact ⟨⟨by decide, hsource⟩, by decide⟩
  have htitle : '\n' ∉ "Action: ".toList ++ identity.title := by simp [htitle]
  have hnotice : '\n' ∉ Entrypoint.notice identity.slug := by simp [Entrypoint.notice, hslug]
  have hframe := lineFeed_not_mem_frame hslug hcomment (lineFeed_not_mem_quote htitle)
    (lineFeed_not_mem_quote (lineFeed_not_mem_modelText hm)) (lineFeed_not_mem_quote hnotice)
  exact Text.splitOn_unlines hframe

/-- What the shell makes of the script of a model. -/
theorem tokens?_render {identity : Identity} {titleParts modelParts noticeParts : List Part}
    (hslug : Identity.IsDashed identity.slug) (hsource : '\n' ∉ source)
    (htitle : IsWord (quote ("Action: " ++ identity.title)) titleParts)
    (hmodel : IsWord (quote (modelText m)) modelParts)
    (hnotice : IsWord (quote (Entrypoint.notice identity.slug)) noticeParts) :
    tokens? (render m identity source) =
      some (frameTokens identity.slug titleParts modelParts noticeParts).flatten :=
  tokens?_unlines (isLine_frame hsource (isWord_slug hslug) htitle hmodel hnotice)

/-- **Nothing in a model runs in its script.** The script has the same lines for all models but for
the comment, the three reports and the two lines with the slug. The shell reads it as the same
tokens for all models but for the words of the reports and the slug. Each of these words is exactly
the text that is reported, and the slug is a name of small letters, digits and dashes that does not
start with a dash. -/
theorem reads_as_written {mode : ParseMode} {text : Text} (h : Model.parse mode text = .ok m)
    (file default : Text) (hsource : '\n' ∉ source) :
    let identity := Identity.resolve m file default
    let script := render m identity source
    let slug := identity.slug
    (∃ title model notice : Text, ∃ titleParts modelParts noticeParts : List Part,
      script.splitOn '\n' = frame slug (sourceComment source) title model notice ++ [[]] ∧
      tokens? script = some (frameTokens slug titleParts modelParts noticeParts).flatten ∧
      Writes title titleParts ("Action: " ++ identity.title) ∧
      Writes model modelParts (modelText m) ∧
      Writes notice noticeParts (Entrypoint.notice slug)) ∧
    slug ≠ [] ∧ slug.head? ≠ some '-' ∧
      ∀ c ∈ slug, c.isLower = true ∨ c.isDigit = true ∨ c = '-' := by
  intro identity script slug
  have hdashed : Identity.IsDashed slug := Identity.isDashed_slug m file default
  refine ⟨?_, ?_⟩
  · obtain ⟨modelParts, hmodel⟩ := exists_writes_modelText m
    have htitle : Writes _ _ ("Action: ".toList ++ identity.title) := writes_quote (by simp)
    have hnotice : Writes _ _ (Entrypoint.notice slug) :=
      writes_quote (by simp [Entrypoint.notice])
    have hlines := splitOn_render (Model.isLinear_parse h)
      (Identity.lineFeed_not_mem_slug m file default)
      (Identity.lineFeed_not_mem_title m file default) hsource
    exact ⟨_, _, _, _, modelParts, _, hlines,
      tokens?_render hdashed hsource htitle.word hmodel.word hnotice.word, htitle, hmodel, hnotice⟩
  · obtain ⟨c, rest, hslug, hc⟩ := hdashed.exists_head
    refine ⟨by simp [hslug], fun hhead => ?_, fun d hd => hdashed.char hd⟩
    rw [hslug, List.head?_cons, Option.some_inj] at hhead
    subst hhead
    exact absurd hc (by decide)

/-- A model whose id and version look like commands. -/
def sampleHostile : Text := "Model: a';$(id) \x60id\x60\\\nVersion: \"&1\n"

/-- What is read from it. -/
def sampleHostileModel : Model where
  metadata := { modelId := "a';$(id) \x60id\x60\\", version := "\"&1" }

/-- The shell reports them as they are. -/
theorem reads_as_written_sampleHostile :
    Model.parse .strict sampleHostile = .ok sampleHostileModel ∧ '\n' ∉ "m.fcm".toList ∧
      ∃ title model notice : Text, ∃ titleParts modelParts noticeParts : List Part,
        (render sampleHostileModel (Identity.resolve sampleHostileModel "m.fcm" "core")
          "m.fcm").splitOn '\n' =
            frame "a-id-id" (sourceComment "m.fcm") title model notice ++ [[]] ∧
        tokens? (render sampleHostileModel (Identity.resolve sampleHostileModel "m.fcm" "core")
          "m.fcm") = some (frameTokens "a-id-id" titleParts modelParts noticeParts).flatten ∧
        Writes title titleParts "Action: A Id Id" ∧
        Writes model modelParts "Model: a';$(id) \x60id\x60\\ \"&1" := by
  have hparse : Model.parse .strict sampleHostile = .ok sampleHostileModel := by decide
  have hsource : '\n' ∉ "m.fcm".toList := by decide
  have hidentity : Identity.resolve sampleHostileModel "m.fcm" "core" =
      ⟨"a-id-id".toList, "A Id Id".toList, "core".toList⟩ := by decide
  have hmodel : modelText sampleHostileModel = "Model: a';$(id) \x60id\x60\\ \"&1".toList := by decide
  obtain ⟨⟨title, model, notice, titleParts, modelParts, noticeParts, hlines, htokens, htitle,
    hwritten, -⟩, -⟩ := reads_as_written hparse "m.fcm" "core" hsource
  rw [hidentity] at hlines htokens htitle
  rw [hmodel] at hwritten
  rw [hidentity]
  exact ⟨hparse, hsource, title, model, notice, titleParts, modelParts, noticeParts, hlines, htokens,
    htitle, hwritten⟩

end Entrypoint

end ActionBundles
