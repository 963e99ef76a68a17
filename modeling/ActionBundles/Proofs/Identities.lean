import ActionBundles.Proofs.Scripts
import ActionBundles.Proofs.WrittenModels

/-!
# Identities in normal form

Ids and file names are arbitrary text; slugs and declared domains are not. They are made of runs of
small letters and digits with single dashes between them (`Identity.IsDashed`), and whatever makes
slugs and domains of texts leaves a text of this form as it is (`Identity.segment_of_isDashed`,
`Identity.slugOf?_of_isDashed`). The title of such a slug capitalises its runs and can be undone
(`Identity.slugOfTitle_titleOf`), so that no two slugs share a title.
-/

namespace ActionBundles

/-! ### Capitals of small letters -/

namespace Text

/-- No character of ASCII has a long capital form. -/
theorem find?_longCapitals {c : Char} (h : c.toNat < 128) :
    longCapitals.find? (·.1 = c.toNat) = none := by
  have hlong : (longCapitals.all fun e => 128 ≤ e.1) = true := by decide
  refine List.find?_eq_none.2 fun e he heq => ?_
  have hcode : 128 ≤ e.1 := of_decide_eq_true (List.all_eq_true.1 hlong e he)
  have hsame : e.1 = c.toNat := of_decide_eq_true heq
  omega

/-- A digit has no capital form. -/
theorem capital_of_isDigit {c : Char} (h : c.isDigit = true) : capital c = [c] := by
  have hc := toNat_of_isDigit h
  have hruns : (capitalRuns.all fun r => 97 ≤ r.1) = true := by decide
  have hnone : capitalRuns.find? (fun r =>
      r.1 ≤ c.toNat && c.toNat ≤ r.2.1 && (c.toNat - r.1) % r.2.2.1 = 0) = none := by
    refine List.find?_eq_none.2 fun r hr hfound => ?_
    have hfirst : 97 ≤ r.1 := of_decide_eq_true (List.all_eq_true.1 hruns r hr)
    simp only [Bool.and_eq_true, decide_eq_true_eq] at hfound
    omega
  rw [capital, find?_longCapitals (by omega), hnone]

/-- A small letter of ASCII has a single capital, of which it is the small form. -/
theorem exists_capital_of_isLower {c : Char} (h : c.isLower = true) :
    ∃ d, capital c = [d] ∧ d.isAlphanum = true ∧ d.toLower = c := by
  obtain ⟨hlow, hhigh⟩ := toNat_of_isLower h
  have hfound : capitalRuns.find? (fun r =>
      r.1 ≤ c.toNat && c.toNat ≤ r.2.1 && (c.toNat - r.1) % r.2.2.1 = 0) =
        some (0x61, 0x7A, 1, 0x41) := by
    rw [capitalRuns, List.find?_cons_of_pos]
    simp [Nat.mod_one, hlow, hhigh]
  have hletters : ∀ k < 26, (Char.ofNat (0x41 + k)).isAlphanum = true ∧
      (Char.ofNat (0x41 + k)).toLower = Char.ofNat (0x61 + k) := by decide
  obtain ⟨halnum, hlower⟩ := hletters (c.toNat - 0x61) (by omega)
  refine ⟨Char.ofNat (0x41 + (c.toNat - 0x61)), ?_, halnum, ?_⟩
  · rw [capital, find?_longCapitals (by omega), hfound]
  · rw [hlower, Nat.add_sub_cancel' hlow, Char.ofNat_toNat]

/-- Characters may be replaced before texts are joined. -/
theorem map_join (f : Char → Char) (sep : Text) (ts : List Text) :
    (join sep ts).map f = join (sep.map f) (ts.map (·.map f)) := by
  induction ts with
  | nil => rfl
  | cons t ts ih =>
    cases ts with
    | nil => simp [join]
    | cons s ts =>
      simp only [join, List.map_cons] at ih ⊢
      rw [List.intercalate_cons_cons, List.intercalate_cons_cons, List.map_append, List.map_append,
        ih]

end Text

namespace Identity

variable {c : Char} {t r : Text}

/-! ### Texts of runs -/

theorem IsRun.toLower (h : IsRun r) (hc : c ∈ r) : c.toLower = c := by
  refine dif_neg fun hcapital => ?_
  have hlow : 65 ≤ c.toNat := UInt32.le_iff_toNat_le.1 hcapital.1
  have hhigh : c.toNat ≤ 90 := UInt32.le_iff_toNat_le.1 hcapital.2
  rcases h.char c hc with hlower | hdigit
  · have hsmall := Text.toNat_of_isLower hlower
    omega
  · have hsmall := Text.toNat_of_isDigit hdigit
    omega

theorem IsRun.isAlphanum (h : IsRun r) (hc : c ∈ r) : c.isAlphanum = true := by
  rcases h.char c hc with hlower | hdigit
  · show (c.isUpper || c.isLower || c.isDigit) = true
    rw [hlower, Bool.or_true, Bool.true_or]
  · show (c.isAlpha || c.isDigit) = true
    rw [hdigit, Bool.or_true]

theorem IsRun.not_mem (h : IsRun r) (hc : c.isAlphanum = false) : c ∉ r := fun hmem => by
  rw [h.isAlphanum hmem] at hc
  cases hc

theorem IsDashed.ne_nil (h : IsDashed t) : t ≠ [] := by
  obtain ⟨c, rest, rfl, -⟩ := h.exists_head
  exact List.cons_ne_nil c rest

theorem IsDashed.isAlphanum_or (h : IsDashed t) (hc : c ∈ t) : c.isAlphanum = true ∨ c = '-' := by
  obtain ⟨rs, -, hrs, rfl⟩ := h
  rcases Text.mem_join hc with hdash | ⟨r, hr, hc⟩
  · exact .inr (List.mem_singleton.1 hdash)
  · exact .inl ((hrs r hr).isAlphanum hc)

theorem IsDashed.toLower (h : IsDashed t) (hc : c ∈ t) : c.toLower = c := by
  obtain ⟨rs, -, hrs, rfl⟩ := h
  rcases Text.mem_join hc with hdash | ⟨r, hr, hc⟩
  · rw [List.mem_singleton.1 hdash]
    rfl
  · exact (hrs r hr).toLower hc

theorem IsDashed.trim (h : IsDashed t) : Text.trim t = t := by
  have hblank : ∀ c ∈ t, Text.isBlank c = false := fun c hc =>
    Line.isBlank_of_isKeyPart <| by
      rcases h.isAlphanum_or hc with halnum | rfl
      · simp [Line.isKeyPart, halnum]
      · rfl
  exact Text.trim_eq_self (fun c hc => hblank c (List.mem_of_head? hc))
    fun c hc => hblank c (List.mem_of_getLast? hc)

/-- The runs that dashes stand between are found again by cutting at dashes. -/
theorem splitOn_join_runs {rs : List Text} (hne : rs ≠ []) (hrs : ∀ r ∈ rs, IsRun r) :
    (Text.join ['-'] rs).splitOn '-' = rs ∧ rs.filter (· ≠ []) = rs :=
  ⟨List.splitOn_intercalate '-' (fun r hr => (hrs r hr).not_mem (by decide)) hne,
    List.filter_eq_self.2 fun r hr => decide_eq_true (hrs r hr).ne_nil⟩

/-! ### Fixed points -/

/-- A text of runs is its own segment. -/
theorem segment_of_isDashed (h : IsDashed t) : segment t = t := by
  have hlower : ∀ c ∈ t, c.toLower = c := fun c hc => h.toLower hc
  have hchar : ∀ c ∈ t, segmentChar c = c := fun c hc => by
    rcases h.isAlphanum_or hc with halnum | rfl
    · exact if_pos halnum
    · rfl
  have hruns : runs t = (t.splitOn '-').filter (· ≠ []) := by
    rw [runs, h.trim, Text.asciiLower, (List.map_congr_left hlower).trans (List.map_id' t),
      (List.map_congr_left hchar).trans (List.map_id' t)]
  obtain ⟨rs, hne, hrs, rfl⟩ := h
  obtain ⟨hcut, hfull⟩ := splitOn_join_runs hne hrs
  rw [segment, hruns, hcut, hfull]

/-- A text of runs is its own slug. -/
theorem slugOf?_of_isDashed (h : IsDashed t) : slugOf? t = some t := by
  have hdot : '.' ∉ t := fun hc => by
    rcases h.isAlphanum_or hc with hc | hc <;> revert hc <;> decide
  have hlast : Text.afterLast '.' t = t := by
    rw [Text.afterLast, List.splitOn_eq_singleton hdot]
    rfl
  rw [slugOf?, h.trim, hlast, segment_of_isDashed h]
  obtain ⟨c, rest, rfl⟩ := List.exists_cons_of_ne_nil h.ne_nil
  rfl

theorem domainOf_of_ne_nil {declared : Text} (h : segment declared ≠ []) (slug default : Text) :
    domainOf declared slug default = segment declared := by
  obtain ⟨c, rest, hsegment⟩ := List.exists_cons_of_ne_nil h
  rw [domainOf, hsegment]

/-! ### Titles -/

/-- The slug that a title is made of: small letters for capitals, dashes for spaces. -/
def slugOfTitle (title : Text) : Text :=
  (Text.asciiLower title).map fun c => if c = ' ' then '-' else c

theorem slugOfTitle_append (a b : Text) :
    slugOfTitle (a ++ b) = slugOfTitle a ++ slugOfTitle b := by
  rw [slugOfTitle, Text.asciiLower, List.map_append, List.map_append]
  rfl

theorem slugOfTitle_join (ts : List Text) :
    slugOfTitle (Text.join [' '] ts) = Text.join ['-'] (ts.map slugOfTitle) := by
  simp only [slugOfTitle, Text.asciiLower, Text.map_join, List.map_map]
  rfl

/-- The capital form of a character of a run. -/
theorem IsRun.exists_capital (h : IsRun r) (hc : c ∈ r) :
    ∃ d, Text.capital c = [d] ∧ d.isAlphanum = true ∧ d.toLower = c := by
  rcases h.char c hc with hlower | hdigit
  · exact Text.exists_capital_of_isLower hlower
  · exact ⟨c, Text.capital_of_isDigit hdigit, h.isAlphanum hc, h.toLower hc⟩

/-- The word of a run in a title has letters and digits only and is the run in small letters. -/
theorem IsRun.capitalized (h : IsRun r) :
    (∀ c ∈ Text.capitalized r, c.isAlphanum = true) ∧ slugOfTitle (Text.capitalized r) = r := by
  obtain ⟨c, rest, rfl⟩ := List.exists_cons_of_ne_nil h.ne_nil
  obtain ⟨d, hcapital, halnum, hlower⟩ := h.exists_capital List.mem_cons_self
  have hspace : ∀ b ∈ c :: rest, (if b = ' ' then '-' else b) = b := fun b hb =>
    if_neg fun he => h.not_mem (by decide) (he ▸ hb)
  have hrest : slugOfTitle rest = rest := by
    have hsmall : ∀ b ∈ rest, b.toLower = b := fun b hb => h.toLower (List.mem_cons_of_mem c hb)
    have hplain : ∀ b ∈ rest, (if b = ' ' then '-' else b) = b := fun b hb =>
      hspace b (List.mem_cons_of_mem c hb)
    rw [slugOfTitle, Text.asciiLower, (List.map_congr_left hsmall).trans (List.map_id' rest),
      (List.map_congr_left hplain).trans (List.map_id' rest)]
  rw [Text.capitalized, hcapital]
  constructor
  · rintro b (_ | ⟨_, hb⟩)
    · exact halnum
    · exact h.isAlphanum (List.mem_cons_of_mem c hb)
  · have hfirst : slugOfTitle [d] = [c] := by
      rw [slugOfTitle, Text.asciiLower, List.map_singleton, List.map_singleton, hlower,
        hspace c List.mem_cons_self]
    rw [slugOfTitle_append, hfirst, hrest, List.singleton_append]

theorem titleOf_of_isDashed (h : IsDashed t) : ∃ rs : List Text, (∀ r ∈ rs, IsRun r) ∧
    t = Text.join ['-'] rs ∧ titleOf t = Text.join [' '] (rs.map Text.capitalized) := by
  obtain ⟨rs, hne, hrs, rfl⟩ := h
  obtain ⟨hcut, hfull⟩ := splitOn_join_runs hne hrs
  exact ⟨rs, hrs, rfl, by rw [titleOf, hcut, hfull]⟩

/-- The title of a slug gives the slug back. -/
theorem slugOfTitle_titleOf (h : IsDashed t) : slugOfTitle (titleOf t) = t := by
  obtain ⟨rs, hrs, rfl, htitle⟩ := titleOf_of_isDashed h
  have hwords : ∀ r ∈ rs, slugOfTitle (Text.capitalized r) = r := fun r hr =>
    (hrs r hr).capitalized.2
  have hback : (rs.map Text.capitalized).map slugOfTitle = rs := by
    rw [List.map_map]
    exact (List.map_congr_left hwords).trans (List.map_id' rs)
  rw [htitle, slugOfTitle_join, hback]

theorem isAlphanum_or_of_mem_titleOf (h : IsDashed t) (hc : c ∈ titleOf t) :
    c.isAlphanum = true ∨ c = ' ' := by
  obtain ⟨rs, hrs, -, htitle⟩ := titleOf_of_isDashed h
  rw [htitle] at hc
  rcases Text.mem_join hc with hspace | ⟨word, hword, hc⟩
  · exact .inr (List.mem_singleton.1 hspace)
  · obtain ⟨r, hr, rfl⟩ := List.mem_map.1 hword
    exact .inl ((hrs r hr).capitalized.1 c hc)

/-! ### Identities -/

/-- An identity in normal form: the slug is made of runs and is its own slug, and the title spells it
with letters, digits and spaces. -/
structure IsNormal (i : Identity) : Prop where
  slug : IsDashed i.slug
  fixed : slugOf? i.slug = some i.slug
  title : slugOfTitle i.title = i.slug
  plain : ∀ c ∈ i.title, c.isAlphanum = true ∨ c = ' '

theorem isNormal_resolve (m : Model) (source default : Text) :
    (resolve m source default).IsNormal := by
  have hslug := isDashed_slug m source default
  have htitle := title_resolve m source default
  refine ⟨hslug, slugOf?_of_isDashed hslug, ?_, fun c hc => ?_⟩
  · rw [htitle]
    exact slugOfTitle_titleOf hslug
  · rw [htitle] at hc
    exact isAlphanum_or_of_mem_titleOf hslug hc

theorem domain_resolve_of_ne_nil {m : Model} (h : segment m.metadata.domain ≠ [])
    (source default : Text) :
    (resolve m source default).domain = segment m.metadata.domain := by
  rw [resolve]
  exact domainOf_of_ne_nil h _ _

/-- **Identities are in normal form**, whatever the model and its file are called. Two of them have
the same title exactly if they have the same slug. A domain that is declared, and not by marks
alone, is in the normal form of slugs and stays as it is when it is declared itself. -/
theorem resolve_in_normal_form (m : Model) (source default : Text) :
    (resolve m source default).IsNormal ∧
      (∀ (m' : Model) (source' default' : Text),
        (resolve m' source' default').title = (resolve m source default).title ↔
          (resolve m' source' default').slug = (resolve m source default).slug) ∧
      (segment m.metadata.domain ≠ [] →
        (resolve m source default).domain = segment m.metadata.domain ∧
          IsDashed (segment m.metadata.domain) ∧
          segment (segment m.metadata.domain) = segment m.metadata.domain) := by
  have hnormal := isNormal_resolve m source default
  refine ⟨hnormal, fun m' source' default' => ⟨fun htitle => ?_, fun hslug => ?_⟩, fun hdomain => ?_⟩
  · rw [← (isNormal_resolve m' source' default').title, htitle, hnormal.title]
  · rw [title_resolve, title_resolve, hslug]
  · have hdashed := isDashed_segment hdomain
    exact ⟨domain_resolve_of_ne_nil hdomain _ _, hdashed, segment_of_isDashed hdashed⟩

/-- A model whose id and domain are written with marks, capitals and letters beyond ASCII. -/
def sampleMarked : Model :=
  { metadata := { modelId := " axiom.Git.__Créate-Commit2 ", domain := " Git / Hub! " } }

theorem resolve_in_normal_form_sampleMarked :
    segment sampleMarked.metadata.domain ≠ [] ∧
      resolve sampleMarked "axioms/x.fcm" "core" =
        { slug := "cr-ate-commit2", title := "Cr Ate Commit2", domain := "git-hub" } ∧
      slugOfTitle "Cr Ate Commit2" = "cr-ate-commit2" ∧ segment "git-hub" = "git-hub" := by
  have hresolve : resolve sampleMarked "axioms/x.fcm" "core" =
      { slug := "cr-ate-commit2", title := "Cr Ate Commit2", domain := "git-hub" } := by
    decide
  have hsegment : segment sampleMarked.metadata.domain = "git-hub" := by decide
  have hform := resolve_in_normal_form sampleMarked "axioms/x.fcm" "core"
  refine ⟨by rw [hsegment]; decide, hresolve, ?_, ?_⟩
  · have htitle := hform.1.title
    rwa [hresolve] at htitle
  · have hfixed := (hform.2.2 (by rw [hsegment]; decide)).2.2
    rwa [hsegment] at hfixed

end Identity

end ActionBundles
