import ActionBundles.Proofs.ManifestHistory
import ActionBundles.Proofs.Publication
import ActionBundles.Proofs.SamePlace
import ActionBundles.Proofs.Verdicts

/-!
# What is planned for a model

A plan is made of the bytes that are found at the path on record for its model (`Plan.Made`), also
if the model was given by another path. Under the default configuration its bundle is placed two
levels below the directory of the actions, under names that are segments.
-/

namespace ActionBundles

open ActionBundles.Action

/-! ### Segments -/

namespace Identity

/-- A text of letters, digits and dashes that is not empty. -/
structure IsSegment (t : Text) : Prop where
  ne_nil : t ≠ []
  char : ∀ c ∈ t, c.isAlphanum = true ∨ c = '-'

variable {t : Text}

theorem IsSegment.not_mem (h : IsSegment t) {c : Char}
    (hc : ¬ (c.isAlphanum = true ∨ c = '-')) : c ∉ t := fun hmem => hc (h.char c hmem)

theorem isSegment_of_all (hne : t ≠ []) (h : (t.all fun c => c.isAlphanum || c = '-') = true) :
    IsSegment t :=
  ⟨hne, fun c hc => by simpa using List.all_eq_true.1 h c hc⟩

theorem IsSegment.isStep (h : IsSegment t) : Path.isStep t = true := by
  have hdot : '.' ∉ t := h.not_mem (by decide)
  exact Path.isStep_iff.2 ⟨h.ne_nil, fun he => hdot (by simp [he]), fun he => hdot (by simp [he]),
    h.not_mem (by decide)⟩

theorem isSegment_segment {raw : Text} (h : segment raw ≠ []) : IsSegment (segment raw) :=
  ⟨h, fun _ => mem_segment⟩

theorem isSegment_of_slugOf? {modelId slug : Text} (h : slugOf? modelId = some slug) :
    IsSegment slug := by
  rw [slugOf?] at h
  generalize hraw : Text.afterLast '.' (Text.trim modelId) = raw at h
  cases hsegment : segment raw with
  | nil =>
    rw [hsegment] at h
    cases h
  | cons c rest =>
    rw [hsegment] at h
    cases h
    exact hsegment ▸ isSegment_segment (by simp [hsegment])

theorem isSegment_word : ∀ e ∈ domainWords, IsSegment e.2 := by
  have hall : (domainWords.all fun e => e.2 ≠ [] &&
      e.2.all fun c => c.isAlphanum || c = '-') = true := by decide
  intro e he
  obtain ⟨hne, hchars⟩ := (Bool.and_eq_true _ _).mp (List.all_eq_true.1 hall e he)
  exact isSegment_of_all (of_decide_eq_true hne) hchars

theorem isSegment_domainOf (declared slug : Text) {default : Text} (h : IsSegment default) :
    IsSegment (domainOf declared slug default) := by
  have hdeclared : segment declared ≠ [] → IsSegment (segment declared) := isSegment_segment
  rw [domainOf]
  cases hsegment : segment declared with
  | nil =>
    cases hword : classify? slug with
    | none => exact h
    | some domain =>
      obtain ⟨e, he, rfl⟩ := Option.map_eq_some_iff.1 hword
      exact isSegment_word e (List.mem_of_find?_eq_some he)
  | cons c rest =>
    rw [hsegment] at hdeclared
    exact hdeclared (List.cons_ne_nil c rest)

/-- Whatever the model says, its slug is a segment, and its domain if the default is one. -/
theorem isSegment_resolve (m : Model) (source : Text) {default : Text} (h : IsSegment default) :
    IsSegment (resolve m source default).slug ∧ IsSegment (resolve m source default).domain := by
  rw [resolve]
  refine ⟨?_, isSegment_domainOf _ _ h⟩
  cases hslug : (slugOf? m.metadata.modelId).or ((Path.stem? source).bind slugOf?) with
  | none =>
    show IsSegment fallbackSlug
    exact isSegment_of_all (by decide) (by decide)
  | some slug =>
    rcases Option.or_eq_some_iff.1 hslug with hslug | ⟨-, hslug⟩
    · exact isSegment_of_slugOf? hslug
    · obtain ⟨stem, -, hslug⟩ := Option.bind_eq_some_iff.1 hslug
      exact isSegment_of_slugOf? hslug

end Identity

/-! ### What a model is read from -/

theorem Text.utf8_of_ofUtf8? {bytes : Bytes} {text : Text} (h : Text.ofUtf8? bytes = some text) :
    text.utf8 = bytes := by
  obtain ⟨s, hs, rfl⟩ := Option.map_eq_some_iff.1 h
  have hbytes : s.toByteArray = bytes.toByteArray := by
    rw [String.fromUTF8?] at hs
    split at hs
    · cases hs
      rfl
    · cases hs
  have hstored : (Text.utf8 s.toList).toByteArray = s.toByteArray := by
    rw [← String.utf8Encode_toList]
    simp [utf8, List.utf8Encode]
  exact List.toByteArray_inj.1 (hstored.trans hbytes)

theorem Model.read_of_readText {path : Text} {d : Disk} {text : Text}
    (h : Model.readText path d = .ok text) : d.read path = .ok text.utf8 := by
  rw [Model.readText] at h
  cases hread : d.read path with
  | error e =>
    rw [hread] at h
    cases e <;> cases h
  | ok bytes =>
    rw [hread] at h
    cases htext : Text.ofUtf8? bytes with
    | none =>
      simp only [htext] at h
      cases h
    | some text' =>
      simp only [htext] at h
      cases h
      rw [Text.utf8_of_ofUtf8? htext]

namespace Layout

variable {l : Layout} {d : Disk} {a : Address} {path rel : Text} {bytes : Bytes}

/-- What is read from a file in the project is read at its path from the root as well. -/
theorem read_resolve_of_relative (hl : l.root = Path.ofAddress a)
    (hroot : d.tree.get? a = some .directory) (h : l.relative path = .ok rel)
    (hread : d.read path = .ok bytes) : d.read (l.resolve rel) = .ok bytes := by
  have ha := Tree.isWay_of_get? hroot
  obtain ⟨hwants, before, n, hsteps, hdot⟩ :=
    Disk.steps_of_isFile (Disk.isFile_iff.2 ⟨bytes, hread⟩)
  obtain ⟨names, hcomponents, hrel⟩ := relative_eq_ok h
  obtain ⟨hundotted, hnames⟩ := Path.undotted_of_components_append hcomponents
  have hsingle : Path.undotted [n] = [n] := by simp [Path.undotted, hdot]
  have hrootSteps : Path.undotted (Path.steps l.root) = a.reverse := by
    rw [hl, Path.steps_ofAddress ha]
    exact Path.undotted_of_isStep fun k hk => ha k (List.mem_reverse.1 hk)
  rw [hsteps, Path.undotted_append, hsingle, hrootSteps] at hundotted
  have hn : Path.isStep n = true := by
    have hmem : n ∈ a.reverse ++ names :=
      hundotted ▸ List.mem_append_right _ (List.mem_singleton_self n)
    rcases List.mem_append.1 hmem with hmem | hmem
    · exact ha n (List.mem_reverse.1 hmem)
    · exact hnames n hmem
  by_cases hne : rel = []
  · -- then the path would lead to the root, which is no file
    have hnil : names = [] := by
      rw [← Path.steps_join hnames, ← hrel, hne]
      rfl
    have habs := Path.isAbsolute_of_components_append hcomponents
    rw [hnil, List.append_nil, ← Path.steps_ofAddress ha] at hundotted
    rw [hl] at habs
    have hfind := Disk.find_congr (d := d) hn hsteps hundotted.symm hwants
      (Path.wantsDirectory_ofAddress ha) (Path.undotted_undotted before).symm habs
    rw [Disk.read, hfind, Disk.find_of_get? hroot (by simp)] at hread
    cases hread
  · have hfind := find_resolve_of_steps (d := d) hn hsteps hwants h hne
    rw [Disk.read, hfind]
    exact hread

end Layout

/-! ### Places of bundles -/

namespace Project

/-- The project at an address with the default configuration but for the way models are read. -/
def standard (a : Address) (mode : ParseMode) : Project :=
  ⟨.ofConfig (Path.ofAddress a) { mode }, { mode }⟩

/-- The directory of the actions of such a project. -/
def actionsAddress (a : Address) : Address := ("actions" : Text) :: a

/-- Where the bundle of an action is, as seen from the project. -/
def bundleAddress (domain slug : Text) : Address := [slug, domain, "actions"]

theorem bundleAddress_append (domain slug : Text) (a : Address) :
    bundleAddress domain slug ++ a = slug :: domain :: actionsAddress a := rfl

variable {a : Address} {mode : ParseMode} {domain slug : Text}

theorem artifact_standard : (standard a mode).layout.artifact domain slug =
    Path.ofRelative (bundleAddress domain slug) := by
  rw [bundleAddress, Path.ofRelative_cons (by simp), Path.ofRelative_cons (by simp),
    Path.ofRelative_singleton]
  show Config.trimSlashes "actions".toList ++ _ = _
  rw [show Config.trimSlashes "actions".toList = "actions".toList by decide]
  simp

theorem not_suffix_of_length {b x : Address} (h : b.length = x.length) (hne : b ≠ x) : ¬ b <:+ x :=
  fun hs => hne (hs.eq_of_length h)

theorem apart_actions (a : Address) : Address.Apart (bridgeAddress a) (actionsAddress a) := by
  have hne : bridgeAddress a ≠ actionsAddress a := fun he => absurd (List.cons.inj he).1 (by decide)
  have hlength : (bridgeAddress a).length = (actionsAddress a).length := by
    rw [bridgeAddress, actionsAddress, List.length_cons, List.length_cons]
  exact ⟨not_suffix_of_length hlength hne, not_suffix_of_length hlength.symm hne.symm⟩

/-- A bundle can be put under names that are segments. -/
theorem place_bundleAddress (hdomain : Identity.IsSegment domain)
    (hslug : Identity.IsSegment slug) : Place a (bundleAddress domain slug) where
  isWay := by
    have hactions : Path.IsWay ["actions".toList] := List.forall_mem_singleton.2 (by decide)
    exact (hactions.cons hdomain.isStep).cons hslug.isStep
  nul := by
    refine List.forall_mem_cons.2 ⟨hslug.not_mem (by decide), ?_⟩
    exact List.forall_mem_cons.2 ⟨hdomain.not_mem (by decide), by decide⟩
  ne_nil := List.cons_ne_nil _ _
  apart := by
    refine ⟨fun hs => (apart_actions a).not_suffix [slug, domain] hs, fun hs => ?_⟩
    exact (apart_actions a).2 ((List.suffix_append [slug, domain] _).trans hs)

/-! ### Plans -/

variable {occasion : Occasion} {path : Text} {d : Disk} {plan : Plan}

/-- What a plan is made of. -/
structure Plan.Made (d : Disk) (a : Address) (time : Text) (plan : Plan) : Prop where
  slug : Identity.IsSegment plan.identity.slug
  domain : Identity.IsSegment plan.identity.domain
  artifact : plan.artifact =
    Path.ofRelative (bundleAddress plan.identity.domain plan.identity.slug)
  bundle : ∃ model bytes image, d.read (Path.join (Path.ofAddress a) plan.source) = .ok bytes ∧
    plan.bundle = .render model plan.identity plan.source bytes time image

theorem made_of_plan (hroot : d.tree.get? a = some .directory)
    (h : (standard a mode).plan occasion path d = .ok plan) : plan.Made d a occasion.time := by
  rw [Project.plan] at h
  obtain ⟨file, -, h⟩ := exists_of_bind_eq_ok h
  obtain ⟨source, hsource, h⟩ := exists_of_bind_eq_ok h
  obtain ⟨text, htext, h⟩ := exists_of_bind_eq_ok h
  obtain ⟨model, -, h⟩ := exists_of_bind_eq_ok h
  cases h
  have hdefault : Identity.IsSegment (standard a mode).config.defaultDomain := by
    show Identity.IsSegment "core".toList
    exact Identity.isSegment_of_all (by decide) (by decide)
  obtain ⟨hslug, hdomain⟩ := Identity.isSegment_resolve model file hdefault
  refine ⟨hslug, hdomain, artifact_standard, model, text.utf8, _, ?_, rfl⟩
  have hrelative : (standard a mode).layout.relative file = .ok source := by
    cases hrel : (standard a mode).layout.relative file with
    | error e =>
      rw [hrel] at hsource
      cases hsource
    | ok rel =>
      rw [hrel] at hsource
      cases hsource
      rfl
  have hread : d.read ((standard a mode).layout.resolve source) = .ok text.utf8 :=
    Layout.read_resolve_of_relative rfl hroot hrelative (Model.read_of_readText htext)
  exact hread

end Project

end ActionBundles
