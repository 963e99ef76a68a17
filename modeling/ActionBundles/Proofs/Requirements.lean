import ActionBundles.Bundle.Dockerfile
import ActionBundles.Proofs.ChoiceSpellings
import ActionBundles.Proofs.InterfaceKeys
import ActionBundles.Proofs.Respacing
import ActionBundles.Proofs.WrittenModels

/-!
# Spellings of requirements

What a model requires can be written in three ways: after the key with commas, in square brackets,
or as items in lines of their own. The reader keeps something else in each case, and after the last
one it takes further items. Still the build file that comes of the text is the same, and it is the
same for all lists with the same set of words, whatever the case of their letters
(`Dockerfile.render_requiring`).

After the spelled lines two runs differ in what they hold under the key and in whether the key takes
items. `Progress.AgreesBut` says that they differ in nothing else that matters. It is kept by every
line that both runs take, as long as no item follows at once (`Progress.AgreesBut.step`), and one run
takes a line exactly if the other one does.
-/

namespace ActionBundles

/-! ### Lists with commas -/

namespace Text

/-- Texts in one line. -/
def listed (ts : List Text) : Text := join ", " ts

variable {t : Text} {ts : List Text}

theorem listed_singleton (t : Text) : listed [t] = t := by simp [listed, join]

theorem listed_cons_cons (t u : Text) (ts : List Text) :
    listed (t :: u :: ts) = (t ++ [',', ' ']) ++ listed (u :: ts) := by
  rw [listed, join, List.intercalate_cons_cons]
  rfl

/-- A list has no blanks around it. -/
theorem trim_listed (hne : ts ≠ []) (h : ∀ t ∈ ts, t ≠ [] ∧ trim t = t) :
    listed ts ≠ [] ∧ trim (listed ts) = listed ts := by
  induction ts with
  | nil => exact absurd rfl hne
  | cons t ts ih =>
    obtain ⟨ht, htrim⟩ := h t (by simp)
    cases ts with
    | nil =>
      rw [listed_singleton]
      exact ⟨ht, htrim⟩
    | cons u ts =>
      obtain ⟨hrest, hresttrim⟩ := ih (List.cons_ne_nil u ts) fun t ht => h t (by simp [ht])
      rw [listed_cons_cons]
      refine ⟨by simp [ht], ?_⟩
      have hstart : trimStart ((t ++ [',', ' ']) ++ listed (u :: ts)) =
          (t ++ [',', ' ']) ++ listed (u :: ts) := trimStart_eq_self fun c hc => by
        rw [List.append_assoc, List.head?_append_of_ne_nil _ ht] at hc
        exact isBlank_head_trim (htrim.symm ▸ hc)
      rw [trim, hstart, trimEnd_append_of_trimmed hrest hresttrim]

/-- The pieces between the commas are the texts again, but for blanks. -/
theorem map_trim_splitOn_listed {gap : Text} (hgap : ∀ c ∈ gap, isBlank c = true) (hne : ts ≠ [])
    (h : ∀ t ∈ ts, ',' ∉ t) : ((gap ++ listed ts).splitOn ',').map trim = ts.map trim := by
  induction ts generalizing gap with
  | nil => exact absurd rfl hne
  | cons t ts ih =>
    have htrim : trim (gap ++ t) = trim t := by rw [trim, trimStart_append_of_blank hgap, trim]
    have hpiece : (gap ++ t).splitOn ',' = [gap ++ t] := List.splitOn_eq_singleton <|
      List.not_mem_append (not_mem_of_blank hgap (by decide)) (h t (by simp))
    cases ts with
    | nil => rw [listed_singleton, hpiece, List.map_singleton, htrim, List.map_singleton]
    | cons u ts =>
      have hspace : ∀ c ∈ ([' '] : Text), isBlank c = true :=
        List.forall_mem_singleton.2 (by decide)
      have hrest := ih hspace (List.cons_ne_nil u ts) fun t ht => h t (by simp [ht])
      have hcut : gap ++ listed (t :: u :: ts) =
          (gap ++ t) ++ ',' :: ([' '] ++ listed (u :: ts)) := by simp [listed_cons_cons]
      rw [hcut, List.splitOn_append_cons_self, hpiece, List.map_append, hrest, List.map_singleton,
        htrim]
      rfl

theorem trimMatches_eq_self {p : Char → Bool} (h : ∀ c ∈ t, p c = false) : trimMatches p t = t := by
  have hkeep : ∀ u : Text, (∀ c ∈ u, p c = false) → u.dropWhile p = u := fun u hu => by
    match u with
    | [] => rfl
    | c :: u => exact List.dropWhile_cons_of_neg (by simp [hu c (by simp)])
  rw [trimMatches, hkeep t h, hkeep _ fun c hc => h c (List.mem_reverse.1 hc), List.reverse_reverse]

end Text

/-! ### Spellings -/

namespace Dockerfile

/-- How requirements are written. -/
inductive Spelling where
  /-- With commas between them. -/
  | commas
  /-- With commas between them and square brackets around them. -/
  | brackets
  /-- As items in lines of their own. -/
  | items
  deriving DecidableEq

/-- A word that any spelling can hold. -/
structure IsToken (t : Text) : Prop where
  nonempty : t ≠ []
  isInline : Text.IsInline t
  isBare : ∀ c ∈ t, c ∉ [',', '"', '\'', '[', ']']

instance (t : Text) : Decidable (IsToken t) :=
  have : Decidable (∀ c ∈ t, c ∉ [',', '"', '\'', '[', ']']) :=
    List.decidableBAll (· ∉ [',', '"', '\'', '[', ']']) t
  decidable_of_iff (t ≠ [] ∧ Text.IsInline t ∧ ∀ c ∈ t, c ∉ [',', '"', '\'', '[', ']'])
    ⟨fun h => ⟨h.1, h.2.1, h.2.2⟩, fun h => ⟨h.nonempty, h.isInline, h.isBare⟩⟩

/-- Words, at least one, that any spelling can hold. -/
structure AreTokens (ts : List Text) : Prop where
  nonempty : ts ≠ []
  isToken : ∀ t ∈ ts, IsToken t

instance (ts : List Text) : Decidable (AreTokens ts) :=
  decidable_of_iff (ts ≠ [] ∧ ∀ t ∈ ts, IsToken t) ⟨fun h => ⟨h.1, h.2⟩, fun h => ⟨h.1, h.2⟩⟩

/-- Two lists name the same words, in any order, any number of times and in any case of the letters
of ASCII. -/
def SameWords (ts us : List Text) : Prop :=
  ∀ x, x ∈ ts.map Text.asciiLower ↔ x ∈ us.map Text.asciiLower

instance (ts us : List Text) : Decidable (SameWords ts us) :=
  decidable_of_iff (ts.map Text.asciiLower ⊆ us.map Text.asciiLower ∧
      us.map Text.asciiLower ⊆ ts.map Text.asciiLower)
    ⟨fun h _ => ⟨fun hx => h.1 hx, fun hx => h.2 hx⟩,
      fun h => ⟨fun x hx => (h x).1 hx, fun x hx => (h x).2 hx⟩⟩

/-- The key of the requirements. -/
def requirementsKey : Text := "requirements"

namespace Spelling

/-- The lines of requirements behind `margin`. -/
def write (margin : Text) (ts : List Text) : Spelling → List Text
  | commas => [margin ++ Line.writeEntry requirementsKey (Text.listed ts)]
  | brackets => [margin ++ Line.writeEntry requirementsKey ('[' :: (Text.listed ts ++ [']']))]
  | items => (margin ++ Line.writeKey requirementsKey) :: ts.map fun t => margin ++ Line.writeItem t

/-- What is kept under the key. -/
def value (ts : List Text) : Spelling → InterfaceValue
  | commas => .text (Text.listed ts)
  | brackets | items => .list ts

/-- The key that takes the items that follow. -/
def openKey : Spelling → Option Text
  | items => some requirementsKey
  | commas | brackets => none

end Spelling

variable {ts us : List Text} {margin : Text}

theorem mem_listed {c : Char} (hc : c ∈ Text.listed ts) (hsep : c ∉ [',', ' ']) :
    ∃ t ∈ ts, c ∈ t := (Text.mem_join hc).resolve_left hsep

theorem isInline_listed (h : AreTokens ts) :
    Text.listed ts ≠ [] ∧ Text.IsInline (Text.listed ts) := by
  obtain ⟨hlisted, htrim⟩ := Text.trim_listed h.nonempty fun t ht =>
    ⟨(h.isToken t ht).nonempty, (h.isToken t ht).isInline.trimmed⟩
  refine ⟨hlisted, fun hmem => ?_, htrim⟩
  obtain ⟨t, ht, hmem⟩ := mem_listed hmem (by decide)
  exact (h.isToken t ht).isInline.noLineEnd hmem

theorem isInline_bracketed (h : AreTokens ts) :
    Text.IsInline ('[' :: (Text.listed ts ++ [']'])) where
  noLineEnd := by simp [(isInline_listed h).2.noLineEnd]
  trimmed := by
    refine Text.trim_eq_self (fun c hc => ?_) fun c hc => ?_
    · cases hc
      decide
    · rw [← List.cons_append, List.getLast?_concat] at hc
      cases hc
      decide

/-- The pieces of a list between its commas. -/
theorem cut_listed (h : AreTokens ts) :
    ((Text.listed ts).splitOn ',').map Text.trim = ts := by
  have hblank : ∀ c ∈ ([] : Text), Text.isBlank c = true := List.forall_mem_nil _
  have hcut : ((Text.listed ts).splitOn ',').map Text.trim = ts.map Text.trim :=
    Text.map_trim_splitOn_listed hblank h.nonempty fun t ht hmem =>
      (h.isToken t ht).isBare _ hmem (by simp)
  rw [hcut]
  exact (List.map_congr_left fun t ht => (h.isToken t ht).isInline.trimmed).trans (List.map_id' ts)

theorem filter_of_areTokens (h : AreTokens ts) : ts.filter (· ≠ []) = ts :=
  List.filter_eq_self.2 fun t ht => decide_eq_true (h.isToken t ht).nonempty

/-- Every spelling holds the words themselves. -/
theorem items_value (h : AreTokens ts) (k : Spelling) :
    (k.value ts).items = ts := by
  cases k with
  | commas =>
    show (((Text.listed ts).splitOn ',').map Text.trim).filter (· ≠ []) = ts
    rw [cut_listed h, filter_of_areTokens h]
  | brackets => rfl
  | items => rfl

theorem read_commas (h : AreTokens ts) :
    InterfaceValue.read (Text.listed ts) = Spelling.commas.value ts := by
  refine InterfaceValue.read_text fun inner hinner => ?_
  have hopen : '[' ∈ Text.listed ts := hinner ▸ List.mem_cons_self
  obtain ⟨t, ht, hmem⟩ := mem_listed hopen (by decide)
  exact (h.isToken t ht).isBare _ hmem (by simp)

theorem read_brackets (h : AreTokens ts) :
    InterfaceValue.read ('[' :: (Text.listed ts ++ [']'])) = Spelling.brackets.value ts := by
  have hquotes : ∀ t ∈ ts, Text.trimMatches (fun c => c = '"' || c = '\'') t = t := fun t ht =>
    Text.trimMatches_eq_self fun c hc => by
      have hbare := (h.isToken t ht).isBare c hc
      simp_all
  have hpieces : ((Text.listed ts).splitOn ',').map
      (fun item => Text.trimMatches (fun c => c = '"' || c = '\'') (Text.trim item)) = ts := by
    conv_rhs => rw [← (List.map_congr_left hquotes).trans (List.map_id' ts), ← cut_listed h]
    rw [List.map_map]
    rfl
  rw [InterfaceValue.read_bracketed, hpieces, filter_of_areTokens h]
  rfl

/-! ### Their lines -/

/-- The key opens no section and names nothing else, so that it may stand at the margin. -/
theorem ofKeyValue_requirementsKey (value text : Text) (indented : Bool) :
    Line.ofKeyValue requirementsKey value text indented =
      .entry requirementsKey value text indented := by
  have hsection : Section.ofKey? requirementsKey = none := by decide
  have hfield : MetadataField.ofKey? requirementsKey = none := by decide
  have hcapability : requirementsKey ≠ ("Capability" : Text) := by decide
  rw [Line.ofKeyValue, hsection, ite_self, hfield]
  simp only [if_neg hcapability, ite_self]

theorem classify_requirements (hm : Text.IsGap margin) {value : Text}
    (hv : Text.trim value = value) :
    ∃ text, Line.classify (margin ++ Line.writeEntry requirementsKey value) =
      .entry requirementsKey value text (!margin.isEmpty) := by
  have hkey : Line.IsKey requirementsKey := by decide
  obtain ⟨text, hclass, -⟩ := Line.classify_writeEntry (Line.isBlank_of_isGap hm) hkey hv
  exact ⟨text, hclass.trans (ofKeyValue_requirementsKey ..)⟩

/-- The build file of a model depends on its image and on the known packages that it requires. -/
theorem render_congr {m n : Model} (hpackages : packages m = packages n)
    (himage : m.interface.get? "image" = n.interface.get? "image") (image source : Text) :
    render m image source = render n image source := by
  have htext : m.interfaceText? "image" = n.interfaceText? "image" := by
    rw [Model.interfaceText?, Model.interfaceText?, himage]
  unfold render
  rw [hpackages, htext]

theorem packages_congr {m n : Model}
    (h : m.interface.get? requirementsKey = n.interface.get? requirementsKey) :
    packages m = packages n := by
  have hkey : requirementsKey = "requirements" := rfl
  rw [packages, packages, ← hkey, h]

end Dockerfile

/-! ### Runs that differ in the requirements -/

namespace Progress

open Dockerfile (requirementsKey)

variable {mode : ParseMode} {p p' q q' : Progress} {line : Line} {rest : List Line}

/-- Two runs that have the lines `rest` before them and agree but for how the requirements are held:
either no item that follows can tell, or the runs take all of them for the same key, which has the
same value in both if it is that of the requirements. -/
structure AgreesBut (rest : List Line) (p q : Progress) : Prop where
  place : q.place = p.place
  others : ∀ key, key ≠ requirementsKey →
    q.model.interface.get? key = p.model.interface.get? key
  packages : Dockerfile.packages q.model = Dockerfile.packages p.model
  openKey : (q.openKey = p.openKey ∧ (p.openKey = some requirementsKey →
      q.model.interface.get? requirementsKey = p.model.interface.get? requirementsKey)) ∨
    (p.place = .under .interface ∧ itemsAfter rest = [])

/-- What runs agree in is kept if the interfaces are, whatever else a line does. -/
theorem AgreesBut.kept (h : p.AgreesBut (line :: rest) q) (hplace : q'.place = p'.place)
    (hp : p'.model.interface = p.model.interface) (hq : q'.model.interface = q.model.interface)
    (hopenKey : (q'.openKey = none ∧ p'.openKey = none) ∨
      (q'.openKey = q.openKey ∧ p'.openKey = p.openKey ∧ (p.place = .under .interface →
        p'.place = .under .interface ∧ itemsAfter (line :: rest) = itemsAfter rest))) :
    p'.AgreesBut rest q' where
  place := hplace
  others key hkey := by rw [hp, hq, h.others key hkey]
  packages := by
    have hkept {r r' : Progress} (hr : r'.model.interface = r.model.interface) :
        Dockerfile.packages r'.model = Dockerfile.packages r.model :=
      Dockerfile.packages_congr (by rw [hr])
    rw [hkept hq, h.packages, hkept hp]
  openKey := by
    rcases hopenKey with ⟨hq', hp'⟩ | ⟨hq', hp', hstay⟩
    · exact .inl ⟨hq'.trans hp'.symm, fun hsome => by rw [hp'] at hsome; cases hsome⟩
    · rw [hq', hp', hp, hq]
      refine h.openKey.imp_right fun ⟨hinterface, hitems⟩ => ?_
      obtain ⟨hplace', hafter⟩ := hstay hinterface
      exact ⟨hplace', hafter ▸ hitems⟩

/-- The same value is given to a key. -/
theorem AgreesBut.setInterface (h : p.AgreesBut (line :: rest) q) (key value : Text) :
    (p.setInterface key value).AgreesBut rest (q.setInterface key value) := by
  have hset (r : Progress) : r.setInterface key value =
      { r with
        openKey := if value = [] then some key else none
        model := { r.model with
          interface := r.model.interface.insert key (declared value []) } } := by
    rw [Progress.setInterface, declared]
    split <;> rfl
  have hget (r : Progress) (other : Text) : (r.setInterface key value).model.interface.get? other =
      if other = key then some (declared value []) else r.model.interface.get? other := by
    simp [hset, Dict.get?_insert]
  refine ⟨by rw [hset, hset]; exact h.place, fun other hother => ?_, ?_,
    .inl ⟨by rw [hset, hset], ?_⟩⟩
  · rw [hget, hget, h.others other hother]
  · by_cases hkey : requirementsKey = key
    · exact Dockerfile.packages_congr (by rw [hget, hget, if_pos hkey, if_pos hkey])
    · rw [Dockerfile.packages_congr (n := q.model) (by rw [hget, if_neg hkey]), h.packages,
        Dockerfile.packages_congr (m := p.model) (by rw [hget, if_neg hkey])]
  · intro hopenKey
    have hkey : requirementsKey = key := by
      rw [hset] at hopenKey
      dsimp only at hopenKey
      split at hopenKey
      · exact (Option.some.inj hopenKey).symm
      · cases hopenKey
    rw [hget, hget, if_pos hkey, if_pos hkey]

/-- The same item is added under a key. -/
theorem AgreesBut.pushInterfaceItem (h : p.AgreesBut (line :: rest) q) {key : Text}
    (hkey : p.openKey = some key) (hopenKey : q.openKey = p.openKey)
    (hvalue : p.openKey = some requirementsKey →
      q.model.interface.get? requirementsKey = p.model.interface.get? requirementsKey)
    (text : Text) :
    (p.pushInterfaceItem key text).AgreesBut rest (q.pushInterfaceItem key text) := by
  have hget {r r' : Progress} {other : Text}
      (hsame : r'.model.interface.get? other = r.model.interface.get? other) :
      (r'.pushInterfaceItem key text).model.interface.get? other =
        (r.pushInterfaceItem key text).model.interface.get? other := by
    rw [Progress.pushInterfaceItem, Progress.pushInterfaceItem, Dict.get?_modify, Dict.get?_modify,
      hsame]
  refine ⟨h.place, fun other hother => hget (h.others other hother), ?_,
    .inl ⟨hopenKey, fun hrequired => hget (hvalue hrequired)⟩⟩
  by_cases hrequired : key = requirementsKey
  · exact Dockerfile.packages_congr (hget (hvalue (hrequired ▸ hkey)))
  · have hother (r : Progress) : (r.pushInterfaceItem key text).model.interface.get?
        requirementsKey = r.model.interface.get? requirementsKey := by
      rw [Progress.pushInterfaceItem, Dict.get?_modify,
        if_neg fun heq => hrequired (Std.LawfulEqOrd.eq_of_compare heq)]
    rw [Dockerfile.packages_congr (hother q), h.packages, Dockerfile.packages_congr (hother p).symm]

/-- What is met where a run agrees is met by the other. -/
theorem meet_congr {α β : Type} {cause : Irregularity} {a b : α} (h : mode.meet cause a = .ok b)
    (c : β) : a = b ∧ mode.meet cause c = .ok c := by
  cases mode with
  | permissive => exact ⟨Except.ok.inj h, rfl⟩
  | strict => cases h

theorem AgreesBut.takeItem {text : Text} {s : Section} (h : p.AgreesBut (.item text :: rest) q)
    (hplace : p.place = .under s) (hp : p.takeItem mode text s = .ok p') :
    ∃ q', q.takeItem mode text s = .ok q' ∧ p'.AgreesBut rest q' := by
  -- outside of the interface an item changes nothing that counts
  have hstay (hs : s ≠ .interface) : p.place = .under .interface →
      p.place = .under .interface ∧ itemsAfter (.item text :: rest) = itemsAfter rest := fun hin =>
    absurd (Place.under.inj (hplace.symm.trans hin)) hs
  cases s with
  | parameters =>
    obtain ⟨item, hitem, hp⟩ := exists_of_bind_eq_ok hp
    cases hp
    have hq : q.takeItem mode text .parameters = .ok
        { q with model := { q.model with parameters := q.model.parameters ++ item.toList } } := by
      rw [Progress.takeItem, hitem]
      rfl
    exact ⟨_, hq, h.kept h.place rfl rfl (.inr ⟨rfl, rfl, hstay (by decide)⟩)⟩
  | outputs =>
    obtain ⟨item, hitem, hp⟩ := exists_of_bind_eq_ok hp
    cases hp
    have hq : q.takeItem mode text .outputs = .ok
        { q with model := { q.model with outputs := q.model.outputs ++ item.toList } } := by
      rw [Progress.takeItem, hitem]
      rfl
    exact ⟨_, hq, h.kept h.place rfl rfl (.inr ⟨rfl, rfl, hstay (by decide)⟩)⟩
  | dependencies | patterns =>
    cases hp
    exact ⟨_, rfl, h.kept h.place rfl rfl (.inr ⟨rfl, rfl, hstay (by decide)⟩)⟩
  | interface =>
    rcases h.openKey with ⟨hopenKey, hvalue⟩ | ⟨-, hitems⟩
    · rw [Progress.takeItem] at hp ⊢
      rw [hopenKey]
      cases hkey : p.openKey with
      | some key =>
        rw [hkey] at hp
        cases hp
        exact ⟨_, rfl, h.pushInterfaceItem hkey hopenKey hvalue text⟩
      | none =>
        rw [hkey] at hp
        obtain ⟨rfl, hq⟩ := meet_congr hp q
        refine ⟨q, hq, h.place, h.others, h.packages, .inl ⟨hopenKey, hvalue⟩⟩
    · cases hitems

/-- What one run takes the other one takes, and they agree as before. -/
theorem AgreesBut.step (h : p.AgreesBut (line :: rest) q) (hp : p.step mode line = .ok p') :
    ∃ q', q.step mode line = .ok q' ∧ p'.AgreesBut rest q' := by
  cases line with
  | skip =>
    cases hp
    exact ⟨q, rfl, h.kept h.place rfl rfl (.inr ⟨rfl, rfl, fun hin => ⟨hin, rfl⟩⟩)⟩
  | metadata | capability | heading =>
    cases hp
    exact ⟨_, rfl, h.kept rfl rfl rfl (.inl ⟨rfl, rfl⟩)⟩
  | item text =>
    rw [Progress.step] at hp ⊢
    rw [h.place]
    cases hplace : p.place with
    | under s =>
      rw [hplace] at hp
      exact h.takeItem hplace hp
    | _ =>
      rw [hplace] at hp
      obtain ⟨rfl, hq⟩ := meet_congr hp q
      exact ⟨q, hq, h.kept h.place rfl rfl (.inr ⟨rfl, rfl, by simp [hplace]⟩)⟩
  | entry key value text indented =>
    rw [Progress.step] at hp ⊢
    rw [h.place]
    by_cases hinterface : p.place = .under .interface
    · rw [hinterface] at hp ⊢
      cases hp
      exact ⟨_, rfl, h.setInterface key value⟩
    have hout {p' : Progress} : p.place = .under .interface → p'.place = .under .interface ∧
        itemsAfter (.entry key value text indented :: rest) = itemsAfter rest :=
      fun hin => absurd hin hinterface
    split at hp
    · cases indented with
      | true =>
        cases hp
        exact ⟨_, rfl, h.kept h.place rfl rfl (.inr ⟨rfl, rfl, hout⟩)⟩
      | false =>
        obtain ⟨rfl, hq⟩ := meet_congr hp { q with place := .start }
        exact ⟨_, hq, h.kept rfl rfl rfl (.inr ⟨rfl, rfl, hout⟩)⟩
    · next hplace => exact absurd hplace hinterface
    · obtain ⟨rfl, hq⟩ := meet_congr hp q
      exact ⟨q, hq, h.kept h.place rfl rfl (.inr ⟨rfl, rfl, hout⟩)⟩
  | prose text indented =>
    rw [Progress.step] at hp ⊢
    rw [h.place]
    split at hp
    · next hplace =>
      cases indented with
      | true =>
        cases hp
        exact ⟨_, rfl, h.kept h.place rfl rfl (.inr ⟨rfl, rfl, by simp [hplace]⟩)⟩
      | false =>
        obtain ⟨rfl, hq⟩ := meet_congr hp { q with place := .start }
        exact ⟨_, hq, h.kept rfl rfl rfl (.inr ⟨rfl, rfl, by simp [hplace]⟩)⟩
    · obtain ⟨rfl, hq⟩ := meet_congr hp q
      exact ⟨q, hq, h.kept h.place rfl rfl (.inr ⟨rfl, rfl, fun hin => ⟨hin, rfl⟩⟩)⟩

/-- Runs that agree go on alike. -/
theorem AgreesBut.run {number number' : Nat} (h : p.AgreesBut rest q)
    (hp : p.run mode number rest = .ok p') :
    ∃ q', q.run mode number' rest = .ok q' ∧ p'.AgreesBut [] q' := by
  induction rest generalizing p q number number' with
  | nil =>
    cases hp
    exact ⟨q, rfl, h⟩
  | cons line rest ih =>
    obtain ⟨r, hr, hp⟩ := exists_of_run_cons hp
    obtain ⟨s, hs, hagrees⟩ := h.step hr
    obtain ⟨q', hq, hend⟩ := ih hagrees hp
    refine ⟨q', ?_, hend⟩
    rw [Progress.run, hs]
    exact hq

/-! ### Reading a spelling -/

variable {ts us : List Text} {margin : Text}

open Dockerfile (AreTokens SameWords Spelling)

/-- Where a run stands after requirements. -/
def given (p : Progress) (k : Spelling) (ts : List Text) : Progress :=
  { p with
    openKey := k.openKey
    model := { p.model with interface := p.model.interface.insert requirementsKey (k.value ts) } }

theorem get?_given (p : Progress) (k : Spelling) (ts : List Text) (key : Text) :
    (p.given k ts).model.interface.get? key =
      if key = requirementsKey then some (k.value ts) else p.model.interface.get? key := by
  simp [given, Dict.get?_insert]

/-- A key line of requirements is read as a value. -/
theorem reads_entry (hplace : p.place = .under .interface) (hm : Text.IsGap margin) {value : Text}
    (hne : value ≠ []) (hv : Text.trim value = value) {k : Spelling} (hk : k.openKey = none)
    (hread : InterfaceValue.read value = k.value ts) :
    Reads mode p [Line.classify (margin ++ Line.writeEntry requirementsKey value)]
      (p.given k ts) := by
  obtain ⟨text, hclass⟩ := Dockerfile.classify_requirements hm hv
  refine .cons ?_ (.nil _)
  rw [hclass, Progress.step, hplace]
  show Except.ok (p.setInterface requirementsKey value) = _
  rw [Progress.setInterface, if_neg hne, hread, given, hk]

/-- The lines of a spelling are read as the words. -/
theorem reads_write (hplace : p.place = .under .interface) (hm : Text.IsGap margin)
    (h : AreTokens ts) (k : Spelling) :
    Reads mode p ((k.write margin ts).map Line.classify) (p.given k ts) := by
  cases k with
  | commas =>
    obtain ⟨hlisted, hinline⟩ := Dockerfile.isInline_listed h
    exact reads_entry hplace hm hlisted hinline.trimmed rfl (Dockerfile.read_commas h)
  | brackets =>
    exact reads_entry hplace hm (List.cons_ne_nil _ _) (Dockerfile.isInline_bracketed h).trimmed
      rfl (Dockerfile.read_brackets h)
  | items =>
    have hkey : Line.classify (margin ++ Line.writeKey requirementsKey) =
        .entry requirementsKey [] (Line.writeKey requirementsKey) (!margin.isEmpty) :=
      (Line.classify_writeKey (Line.isBlank_of_isGap hm) (by decide)).trans
        (Dockerfile.ofKeyValue_requirementsKey ..)
    have hitems : (ts.map fun t => margin ++ Line.writeItem t).map Line.classify =
        ts.map .item := by
      rw [List.map_map]
      exact List.map_congr_left fun t ht =>
        Line.classify_writeItem (Line.isBlank_of_isGap hm) (h.isToken t ht).isInline
    rw [Spelling.write, List.map_cons, hkey, hitems]
    refine .cons (q := p.given .items []) ?_ (reads_items (p.given .items) fun before t _ => ?_)
    · rw [Progress.step, hplace]
      rfl
    · rw [Progress.step, given, hplace]
      show Except.ok (pushInterfaceItem _ requirementsKey t) = _
      rw [pushInterfaceItem]
      dsimp only
      rw [Spelling.value, insert_list_modify, given, hplace]
      rfl

/-- What is installed of the requirements: the packages that are named, in any case of letters. -/
theorem packages_given (p : Progress) (h : AreTokens ts) (k : Spelling) :
    Dockerfile.packages (p.given k ts).model =
      Dockerfile.knownPackages.filter (· ∈ ts.map Text.asciiLower) := by
  have hkey : (p.given k ts).model.interface.get? "requirements" = some (k.value ts) :=
    (get?_given p k ts requirementsKey).trans (if_pos rfl)
  have htrim : (ts.map fun t => Text.asciiLower (Text.trim t)) = ts.map Text.asciiLower :=
    List.map_congr_left fun t ht => by rw [(h.isToken t ht).isInline.trimmed]
  rw [Dockerfile.packages, hkey]
  dsimp only
  rw [Dockerfile.items_value h, htrim]

/-- After two spellings of the same words the runs agree, if no item follows. -/
theorem agreesBut_given (hplace : p.place = .under .interface) (hts : AreTokens ts)
    (hus : AreTokens us) (hsame : SameWords ts us) (k k' : Spelling)
    (hrest : itemsAfter rest = []) : (p.given k ts).AgreesBut rest (p.given k' us) where
  place := rfl
  others key hkey := by rw [get?_given, get?_given, if_neg hkey, if_neg hkey]
  packages := by
    rw [packages_given p hts, packages_given p hus]
    exact List.filter_congr fun x _ => by simp only [hsame x]
  openKey := .inr ⟨hplace, hrest⟩

end Progress

/-! ### Whole models -/

namespace Progress

variable {mode : ParseMode} {p q : Progress} {a b : List Line} {number : Nat}

/-- A run over lines and more lines. -/
theorem run_append (p : Progress) (number : Nat) (a b : List Line) :
    p.run mode number (a ++ b) =
      (p.run mode number a).bind fun q => q.run mode (number + a.length) b := by
  induction a generalizing p number with
  | nil => rfl
  | cons line a ih =>
    rw [List.cons_append, run, run]
    cases p.step mode line with
    | error => rfl
    | ok q =>
      show q.run mode (number + 1) (a ++ b) = (q.run mode (number + 1) a).bind _
      rw [ih, List.length_cons, Nat.add_assoc, Nat.add_comm 1]

end Progress

namespace Dockerfile

variable {mode : ParseMode} {before after ts us : List Text} {margin margin' : Text}

/-- A text with requirements, between other lines. -/
def requiring (before : List Text) (margin : Text) (k : Spelling) (ts after : List Text) : Text :=
  Text.join ['\n'] (before ++ (k.write margin ts ++ after))

/-- Lines between which requirements belong to the interface, and get no more items. -/
structure AreAround (before after : List Text) : Prop where
  lineEnds : ∀ line ∈ before ++ after, '\n' ∉ line
  governed : governor? (before.map Line.classify) = some (.heading .interface)
  noItem : itemsAfter (after.map Line.classify) = []

theorem noLineEnd_write (hm : Text.IsGap margin) (h : AreTokens ts) (k : Spelling) :
    ∀ line ∈ k.write margin ts, '\n' ∉ line := by
  have hmargin {line : Text} (hline : '\n' ∉ line) : '\n' ∉ margin ++ line :=
    List.not_mem_append (fun hmem => (hm _ hmem).2 rfl) hline
  have hkey : Line.IsKey requirementsKey := by decide
  cases k with
  | commas =>
    exact List.forall_mem_singleton.2 <| hmargin <|
      Line.noLineEnd_writeEntry hkey (isInline_listed h).2
  | brackets =>
    exact List.forall_mem_singleton.2 <| hmargin <|
      Line.noLineEnd_writeEntry hkey (isInline_bracketed h)
  | items =>
    refine List.forall_mem_cons.2 ⟨hmargin (Line.noLineEnd_writeKey hkey), ?_⟩
    refine List.forall_mem_map.2 fun t ht => hmargin ?_
    simp [Line.writeItem, (h.isToken t ht).isInline.noLineEnd]

/-- The classes of the lines of a text with requirements. -/
theorem classify_requiring (ha : AreAround before after) (hm : Text.IsGap margin)
    (h : AreTokens ts) (k : Spelling) :
    ((requiring before margin k ts after).splitOn '\n').map Line.classify =
      before.map Line.classify ++
        ((k.write margin ts).map Line.classify ++ after.map Line.classify) := by
  have hends : ∀ line ∈ before ++ (k.write margin ts ++ after), '\n' ∉ line := by
    obtain ⟨hbefore, hafter⟩ := List.forall_mem_append.1 ha.lineEnds
    exact List.forall_mem_append.2
      ⟨hbefore, List.forall_mem_append.2 ⟨noLineEnd_write hm h k, hafter⟩⟩
  have hlines : before ++ (k.write margin ts ++ after) ≠ [] := by
    cases k <;> simp [Spelling.write]
  rw [requiring, Text.join, List.splitOn_intercalate _ hends hlines, List.map_append,
    List.map_append]

theorem AreAround.place {p : Progress} (ha : AreAround before after)
    (hp : Progress.run mode {} 1 (before.map Line.classify) = .ok p) :
    p.place = .under .interface := by
  have haccounts := (Progress.accounts_start mode).run hp
  rw [List.nil_append] at haccounts
  exact (haccounts.place .interface).2 ha.governed

/-- A text with requirements is read up to them, and on from what they leave. -/
theorem parse_requiring (ha : AreAround before after) (hm : Text.IsGap margin) (h : AreTokens ts)
    (k : Spelling) (mode : ParseMode) :
    ∃ number, Model.parse mode (requiring before margin k ts after) =
      ((Progress.run mode {} 1 (before.map Line.classify)).bind fun p =>
        (p.given k ts).run mode number (after.map Line.classify)).map (·.model) := by
  refine ⟨1 + (before.map Line.classify).length + ((k.write margin ts).map Line.classify).length, ?_⟩
  rw [Model.parse_eq_run, classify_requiring ha hm h k, Progress.run_append]
  cases hp : Progress.run mode {} 1 (before.map Line.classify) with
  | error => rfl
  | ok p =>
    show ((p.run mode _ _).map _ : Except ParseError Model) = _
    rw [Progress.run_append, (Progress.reads_write (ha.place hp) hm h k).run]
    rfl

/-- What can be read with one spelling of requirements can be read with another, and comes to the
same build file. -/
theorem exists_parse_requiring (ha : AreAround before after) (hm : Text.IsGap margin)
    (hm' : Text.IsGap margin') (hts : AreTokens ts) (hus : AreTokens us)
    (hsame : SameWords ts us) (k k' : Spelling) {m : Model}
    (hparse : Model.parse mode (requiring before margin k ts after) = .ok m) :
    ∃ m', Model.parse mode (requiring before margin' k' us after) = .ok m' ∧
      ∀ image source, render m image source = render m' image source := by
  obtain ⟨number, hfirst⟩ := parse_requiring ha hm hts k mode
  obtain ⟨number', hsecond⟩ := parse_requiring ha hm' hus k' mode
  rw [hfirst] at hparse
  cases hp : Progress.run mode {} 1 (before.map Line.classify) with
  | error e =>
    rw [hp] at hparse
    cases hparse
  | ok p =>
    rw [hp] at hparse hsecond
    have hagrees := Progress.agreesBut_given (ha.place hp) hts hus hsame k k' ha.noItem
    change ((p.given k ts).run mode number _).map _ = _ at hparse
    cases hq : (p.given k ts).run mode number (after.map Line.classify) with
    | error e =>
      rw [hq] at hparse
      cases hparse
    | ok q =>
      rw [hq] at hparse
      cases hparse
      obtain ⟨q', hq', hend⟩ := hagrees.run hq
      refine ⟨q'.model, hsecond.trans (congrArg (Except.map (·.model)) hq'), ?_⟩
      exact render_congr hend.packages.symm (hend.others "image" (by decide)).symm

/-- **All spellings of requirements come to the same build file.** Whatever model is around them, and
in both modes, it does not matter whether requirements are written with commas, in brackets or as
items, with what indentation, in what order, how often and in what case of letters: if one text can
be read, the other one can, and their build files are the same. -/
theorem render_requiring (ha : AreAround before after) (hm : Text.IsGap margin)
    (hm' : Text.IsGap margin') (hts : AreTokens ts) (hus : AreTokens us) (hsame : SameWords ts us)
    (k k' : Spelling) (mode : ParseMode) (image source : Text) :
    (Model.parse mode (requiring before margin k ts after)).toOption.map
        (render · image source) =
      (Model.parse mode (requiring before margin' k' us after)).toOption.map
        (render · image source) := by
  have hsome {x y : Except ParseError Model}
      (h : ∀ m, x = .ok m → ∃ m', y = .ok m' ∧ ∀ image source, render m image source =
        render m' image source) {built : Text} :
      x.toOption.map (render · image source) = some built →
        y.toOption.map (render · image source) = some built := by
    intro hx
    obtain ⟨m, hm, rfl⟩ := Option.map_eq_some_iff.1 hx
    obtain ⟨m', hm', hrender⟩ := h m (eq_ok_of_toOption hm)
    rw [hm', hrender]
    rfl
  refine Option.ext fun built => ⟨hsome fun m => ?_, hsome fun m => ?_⟩
  · exact exists_parse_requiring ha hm hm' hts hus hsame k k'
  · exact exists_parse_requiring ha hm' hm hus hts (fun x => (hsame x).symm) k' k

/-- The lines around requirements in a text with an image and a list of its own. -/
def linesBefore : List Text := ["Model: a", "Interface:", "  image: alpine:3"]

/-- A comment, and a key that takes items. -/
def linesAfter : List Text := ["  # needed to build", "  tags:", "  - x", "Dependencies:", "- b"]

theorem render_requiring_sampleLines :
    (Model.parse .strict
        (requiring linesBefore "  " .items ["jq", "Git", "unknown", "jq"] linesAfter)).toOption.map
          (render · "image" "a.fcm") =
      (Model.parse .strict
        (requiring linesBefore "\t" .brackets ["UNKNOWN", "git", "JQ"] linesAfter)).toOption.map
          (render · "image" "a.fcm") ∧
    (Model.parse .strict
        (requiring linesBefore "  " .items ["jq", "Git", "unknown", "jq"] linesAfter)).toOption.map
          packages = some (["git", "jq"] : List Text) := by
  have ha : AreAround linesBefore linesAfter :=
    ⟨by decide, by decide, by decide⟩
  have hitems : AreTokens ["jq", "Git", "unknown", "jq"] := by decide
  have hbrackets : AreTokens ["UNKNOWN", "git", "JQ"] := by decide
  exact ⟨render_requiring ha (by decide) (by decide) hitems hbrackets (by decide) _ _ _ _ _,
    by decide⟩

end Dockerfile

end ActionBundles
