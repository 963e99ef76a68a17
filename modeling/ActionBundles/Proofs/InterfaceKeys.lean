import ActionBundles.Proofs.Headings

/-!
# The keys of the interface

What the interface of a model says has a meaning that speaks of the lines alone. A key line is a
line `key: value` that is governed by the heading of the interface. The interface has the keys of
the key lines, and the last key line of a key gives its value: the value written there or, where
none is, the list of the items that follow, up to the next key line and the next line that governs.

The reader goes through three things at once: its place, the key that takes items, and the interface
so far. `Progress.Declares` says of all three what the lines so far make of them: a key takes items
exactly if its key line has no value and nothing after it ends its list, and every key has the value
of its last key line so far.
-/

namespace ActionBundles

/-! ### Key lines -/

/-- Whether a line ends the list of an interface key: another key does, and a line that governs. -/
def Line.endsList : Line → Bool
  | .metadata _ _ | .capability _ | .heading _ | .entry _ _ _ _ => true
  | _ => false

/-- The texts of the items after a key line, up to the line that ends its list. -/
def itemsAfter (after : List Line) : List Text :=
  (after.takeWhile fun line => !line.endsList).filterMap Line.itemText?

/-- No line ends the list of the key line before these. -/
def StaysOpen (after : List Line) : Prop := ∀ line ∈ after, line.endsList = false

/-- Among the lines `ls`, the line between `before` and `after` is a key line of the interface. -/
structure IsKeyLine (ls before : List Line) (key value : Text) (after : List Line) : Prop where
  split : ∃ text indented, ls = before ++ .entry key value text indented :: after
  governed : governor? before = some (.heading .interface)

/-- A key line after which no other one has its key. -/
structure IsLastKeyLine (ls before : List Line) (key value : Text) (after : List Line) : Prop
    extends IsKeyLine ls before key value after where
  last : ∀ before' value' after', IsKeyLine ls before' key value' after' →
    before'.length ≤ before.length

/-- The value that a key line gives its key. -/
def declared (value : Text) (after : List Line) : InterfaceValue :=
  if value = [] then .list (itemsAfter after) else .read value

section KeyLines

variable {ls before before' after after' : List Line} {line : Line} {key key' value value' : Text}

theorem StaysOpen.concat_iff : StaysOpen (after ++ [line]) ↔
    StaysOpen after ∧ line.endsList = false := by
  simp [StaysOpen, or_imp, forall_and]

theorem itemText?_of_endsList (h : line.endsList = true) : line.itemText? = none := by
  cases line with
  | item => cases h
  | _ => rfl

theorem itemsAfter_concat_of_staysOpen (h : StaysOpen after) :
    itemsAfter (after ++ [line]) = itemsAfter after ++ line.itemText?.toList := by
  have hall : ∀ line ∈ after, (!line.endsList) = true := fun line hline => by rw [h line hline]; rfl
  rw [itemsAfter, itemsAfter, List.takeWhile_append_of_pos hall,
    List.takeWhile_eq_self_iff.2 hall, List.filterMap_append]
  congr 1
  cases hends : line.endsList with
  | true => rw [itemText?_of_endsList hends]; simp [hends]
  | false => cases hitem : line.itemText? <;> simp [hends, hitem]

theorem itemsAfter_concat_of_not_staysOpen (h : ¬ StaysOpen after) (line : Line) :
    itemsAfter (after ++ [line]) = itemsAfter after := by
  have hcut : (after.takeWhile fun line => !line.endsList).length ≠ after.length := fun hlength => by
    have hself := (List.takeWhile_prefix fun line : Line => !line.endsList).eq_of_length hlength
    refine h fun line hline => ?_
    simpa using List.takeWhile_eq_self_iff.1 hself line hline
  rw [itemsAfter, List.takeWhile_append, if_neg hcut, itemsAfter]

/-- A line after a key line changes what the key line declares only if the list of the key line is
still open and the line is an item. -/
theorem declared_concat (h : value = [] → StaysOpen after → line.itemText? = none) :
    declared value (after ++ [line]) = declared value after := by
  rw [declared, declared]
  by_cases hvalue : value = []
  · rw [if_pos hvalue, if_pos hvalue]
    by_cases hopen : StaysOpen after
    · rw [itemsAfter_concat_of_staysOpen hopen, h hvalue hopen, Option.toList_none, List.append_nil]
    · rw [itemsAfter_concat_of_not_staysOpen hopen]
  · rw [if_neg hvalue, if_neg hvalue]

/-- Where a key line stands says all about it. -/
theorem IsKeyLine.eq_of_length (h : IsKeyLine ls before key value after)
    (h' : IsKeyLine ls before' key' value' after') (hlength : before'.length = before.length) :
    before' = before ∧ key' = key ∧ value' = value ∧ after' = after := by
  obtain ⟨text, indented, hsplit⟩ := h.split
  obtain ⟨text', indented', hsplit'⟩ := h'.split
  obtain ⟨hbefore, hrest⟩ := List.append_inj (hsplit'.symm.trans hsplit) hlength
  simp only [List.cons.injEq, Line.entry.injEq] at hrest
  exact ⟨hbefore, hrest.1.1, hrest.1.2.1, hrest.2⟩

/-- After a key line whose list stays open there is no other key line. -/
theorem IsKeyLine.length_le (h : IsKeyLine ls before key value after) (hopen : StaysOpen after)
    (h' : IsKeyLine ls before' key' value' after') : before'.length ≤ before.length := by
  obtain ⟨text, indented, hsplit⟩ := h.split
  obtain ⟨text', indented', hsplit'⟩ := h'.split
  rcases List.append_eq_append_iff.1 (hsplit.symm.trans hsplit') with
    ⟨between, rfl, hrest⟩ | ⟨between, rfl, -⟩
  · cases between with
    | nil => rw [List.append_nil]
    | cons first between =>
      have hafter : after = between ++ .entry key' value' text' indented' :: after' :=
        (List.cons.inj hrest).2
      have hends := hopen (.entry key' value' text' indented') (by simp [hafter])
      cases hends
  · simp

/-- With one more line there is one more key line at most. -/
theorem isKeyLine_concat_iff : IsKeyLine (ls ++ [line]) before key value after ↔
    (∃ after', after = after' ++ [line] ∧ IsKeyLine ls before key value after') ∨
      after = [] ∧ before = ls ∧ (∃ text indented, line = .entry key value text indented) ∧
        governor? ls = some (.heading .interface) := by
  constructor
  · rintro ⟨⟨text, indented, hsplit⟩, hgoverned⟩
    rcases List.eq_nil_or_concat after with rfl | ⟨after', last, rfl⟩
    · obtain ⟨rfl, hline⟩ := List.append_inj' hsplit rfl
      exact .inr ⟨rfl, rfl, ⟨text, indented, List.singleton_injective hline⟩, hgoverned⟩
    · rw [List.concat_eq_append, ← List.cons_append, ← List.append_assoc] at hsplit
      obtain ⟨rfl, hline⟩ := List.append_inj' hsplit rfl
      rw [List.singleton_injective hline]
      exact .inl ⟨after', List.concat_eq_append, ⟨text, indented, rfl⟩, hgoverned⟩
  · rintro (⟨after', rfl, ⟨text, indented, rfl⟩, hgoverned⟩ |
      ⟨rfl, rfl, ⟨text, indented, rfl⟩, hgoverned⟩)
    · exact ⟨⟨text, indented, by simp⟩, hgoverned⟩
    · exact ⟨⟨text, indented, rfl⟩, hgoverned⟩

theorem IsLastKeyLine.of_concat (h : IsLastKeyLine (ls ++ [line]) before key value after)
    (hafter : after ≠ []) :
    ∃ after', after = after' ++ [line] ∧ IsLastKeyLine ls before key value after' := by
  rcases isKeyLine_concat_iff.1 h.toIsKeyLine with ⟨after', rfl, hline⟩ | ⟨rfl, -⟩
  · exact ⟨after', rfl, hline, fun before' value' rest hother =>
      h.last before' value' (rest ++ [line]) (isKeyLine_concat_iff.2 (.inl ⟨rest, rfl, hother⟩))⟩
  · exact absurd rfl hafter

/-- A key with a key line has a last one. -/
theorem IsKeyLine.exists_last (h : IsKeyLine ls before key value after) :
    ∃ before value after, IsLastKeyLine ls before key value after := by
  by_contra! hnone
  -- without a last one there are key lines as far down as one likes
  have hfar (n : Nat) : ∃ before value after, IsKeyLine ls before key value after ∧
      n ≤ before.length := by
    induction n with
    | zero => exact ⟨before, value, after, h, Nat.zero_le _⟩
    | succ n ih =>
      obtain ⟨before, value, after, hline, hn⟩ := ih
      by_contra! hno
      exact hnone before value after ⟨hline, fun before' value' after' hline' =>
        (Nat.lt_succ_iff.1 (hno before' value' after' hline')).trans hn⟩
  obtain ⟨before, value, after, hline, hlength⟩ := hfar ls.length
  obtain ⟨text, indented, rfl⟩ := hline.split
  simp at hlength

/-- A line is no key line where it stands. -/
def NoKeyLine (ls : List Line) (line : Line) : Prop :=
  governor? ls = some (.heading .interface) → ∀ key value text indented,
    line ≠ .entry key value text indented

theorem NoKeyLine.isKeyLine_concat_iff (h : NoKeyLine ls line) :
    IsKeyLine (ls ++ [line]) before key value after ↔
      ∃ after', after = after' ++ [line] ∧ IsKeyLine ls before key value after' := by
  refine ActionBundles.isKeyLine_concat_iff.trans (or_iff_left ?_)
  rintro ⟨-, -, ⟨text, indented, rfl⟩, hgoverned⟩
  exact h hgoverned _ _ _ _ rfl

end KeyLines

namespace Progress

variable {mode : ParseMode} {p q : Progress} {ls : List Line} {line : Line}

/-- The key that takes items and the interface are what the lines so far make of them. -/
structure Declares (p : Progress) (ls : List Line) : Prop where
  openKey : ∀ key, p.openKey = some key ↔
    ∃ before after, IsKeyLine ls before key [] after ∧ StaysOpen after
  keys : ∀ key, p.model.interface.get? key ≠ none ↔
    ∃ before value after, IsKeyLine ls before key value after
  values : ∀ before key value after, IsLastKeyLine ls before key value after →
    p.model.interface.get? key = some (declared value after)

theorem declares_start : Declares {} [] where
  openKey key := by
    refine iff_of_false nofun ?_
    rintro ⟨before, after, ⟨⟨text, indented, hsplit⟩, -⟩, -⟩
    simp at hsplit
  keys key := by
    refine iff_of_false (fun h => h rfl) ?_
    rintro ⟨before, value, after, ⟨⟨text, indented, hsplit⟩, -⟩⟩
    simp at hsplit
  values before key value after h := by
    obtain ⟨text, indented, hsplit⟩ := h.split
    simp at hsplit

/-- A line that is no key line and that no key takes leaves the interface as it is. -/
theorem Declares.kept (h : p.Declares ls) (hline : NoKeyLine ls line)
    (hitem : line.itemText? = none ∨ p.openKey = none)
    (hopenKey : ∀ key, q.openKey = some key ↔ p.openKey = some key ∧ line.endsList = false)
    (hinterface : q.model.interface = p.model.interface) : q.Declares (ls ++ [line]) where
  openKey key := by
    rw [hopenKey, h.openKey]
    constructor
    · rintro ⟨⟨before, after, hkey, hopen⟩, hends⟩
      exact ⟨before, after ++ [line], hline.isKeyLine_concat_iff.2 ⟨after, rfl, hkey⟩,
        StaysOpen.concat_iff.2 ⟨hopen, hends⟩⟩
    · rintro ⟨before, after, hkey, hopen⟩
      obtain ⟨after', rfl, hbefore⟩ := hline.isKeyLine_concat_iff.1 hkey
      obtain ⟨hopen, hends⟩ := StaysOpen.concat_iff.1 hopen
      exact ⟨⟨before, after', hbefore, hopen⟩, hends⟩
  keys key := by
    rw [hinterface, h.keys]
    constructor
    · rintro ⟨before, value, after, hkey⟩
      exact ⟨before, value, after ++ [line], hline.isKeyLine_concat_iff.2 ⟨after, rfl, hkey⟩⟩
    · rintro ⟨before, value, after, hkey⟩
      obtain ⟨after', -, hbefore⟩ := hline.isKeyLine_concat_iff.1 hkey
      exact ⟨before, value, after', hbefore⟩
  values before key value after hkey := by
    have hafter : after ≠ [] := by
      obtain ⟨after', rfl, -⟩ := hline.isKeyLine_concat_iff.1 hkey.toIsKeyLine
      simp
    obtain ⟨after', rfl, hbefore⟩ := hkey.of_concat hafter
    rw [hinterface, h.values _ _ _ _ hbefore, declared_concat]
    rintro rfl hopen
    refine hitem.resolve_right fun hnone => ?_
    have hsome := (h.openKey key).2 ⟨before, after', hbefore.toIsKeyLine, hopen⟩
    rw [hnone] at hsome
    cases hsome

/-- A key line gives its key a new value, and opens its list or none. -/
theorem Declares.setInterface {key value text : Text} {indented : Bool} (h : p.Declares ls)
    (hgoverned : governor? ls = some (.heading .interface)) :
    (p.setInterface key value).Declares (ls ++ [.entry key value text indented]) := by
  have hnew : IsKeyLine (ls ++ [.entry key value text indented]) ls key value [] :=
    ⟨⟨text, indented, rfl⟩, hgoverned⟩
  have hinterface : (p.setInterface key value).model.interface =
      p.model.interface.insert key (declared value []) := by
    rw [Progress.setInterface, declared]
    split <;> rfl
  have hget (other : Text) : (p.setInterface key value).model.interface.get? other =
      if other = key then some (declared value []) else p.model.interface.get? other := by
    simp [hinterface, Dict.get?_insert]
  refine ⟨fun other => ?_, fun other => ?_, fun before other value' after hkey => ?_⟩
  · have hopenKey : (p.setInterface key value).openKey = some other ↔ value = [] ∧ key = other := by
      rw [Progress.setInterface]
      split <;> simp [*]
    rw [hopenKey]
    constructor
    · rintro ⟨rfl, rfl⟩
      exact ⟨ls, [], hnew, List.forall_mem_nil _⟩
    · rintro ⟨before, after, hkey, hopen⟩
      rcases isKeyLine_concat_iff.1 hkey with ⟨after', rfl, -⟩ | ⟨-, -, ⟨_, _, hentry⟩, -⟩
      · cases (StaysOpen.concat_iff.1 hopen).2
      · cases hentry
        exact ⟨rfl, rfl⟩
  · rw [hget]
    split
    · next heq =>
      subst heq
      exact iff_of_true (Option.some_ne_none _) ⟨ls, value, [], hnew⟩
    · next hne =>
      rw [h.keys]
      constructor
      · rintro ⟨before, value', after, hkey⟩
        exact ⟨before, value', _, isKeyLine_concat_iff.2 (.inl ⟨after, rfl, hkey⟩)⟩
      · rintro ⟨before, value', after, hkey⟩
        rcases isKeyLine_concat_iff.1 hkey with ⟨after', -, hbefore⟩ | ⟨-, -, ⟨_, _, hentry⟩, -⟩
        · exact ⟨before, value', after', hbefore⟩
        · cases hentry
          exact absurd rfl hne
  · rw [hget]
    rcases List.eq_nil_or_concat after with rfl | hafter
    · rcases isKeyLine_concat_iff.1 hkey.toIsKeyLine with ⟨after', hnil, -⟩ | ⟨-, -, ⟨_, _, hentry⟩, -⟩
      · simp at hnil
      · cases hentry
        rw [if_pos rfl]
    · obtain ⟨after', rfl, hbefore⟩ := hkey.of_concat (by
        obtain ⟨_, _, rfl⟩ := hafter
        simp)
      have hne : other ≠ key := by
        rintro rfl
        have hlast := hkey.last _ _ _ hnew
        obtain ⟨_, _, rfl⟩ := hbefore.split
        simp at hlast
      rw [if_neg hne, h.values _ _ _ _ hbefore, declared_concat fun _ _ => rfl]

/-- The key that takes items takes the next one. -/
theorem Declares.pushInterfaceItem {key text : Text} (h : p.Declares ls)
    (hkey : p.openKey = some key) :
    (p.pushInterfaceItem key text).Declares (ls ++ [.item text]) := by
  obtain ⟨before, after, hline, hopen⟩ := (h.openKey key).1 hkey
  have hlast : IsLastKeyLine ls before key [] after :=
    ⟨hline, fun _ _ _ hother => hline.length_le hopen hother⟩
  have hno : NoKeyLine ls (.item text) := fun _ => by simp
  have hget (other : Text) : (p.pushInterfaceItem key text).model.interface.get? other =
      if other = key then some (declared [] (after ++ [.item text]))
      else p.model.interface.get? other := by
    rw [Progress.pushInterfaceItem, Dict.get?_modify]
    by_cases hsame : other = key
    · rw [hsame, if_pos rfl, if_pos Std.ReflCmp.compare_self, h.values _ _ _ _ hlast, declared,
        declared, itemsAfter_concat_of_staysOpen hopen]
      rfl
    · rw [if_neg hsame, if_neg fun heq => hsame (Std.LawfulEqOrd.eq_of_compare heq).symm]
  refine ⟨fun other => ?_, fun other => ?_, fun before' other value after' hother => ?_⟩
  · show p.openKey = some other ↔ _
    rw [h.openKey]
    constructor
    · rintro ⟨before', after', hother, hopen'⟩
      exact ⟨before', _, hno.isKeyLine_concat_iff.2 ⟨after', rfl, hother⟩,
        StaysOpen.concat_iff.2 ⟨hopen', rfl⟩⟩
    · rintro ⟨before', after', hother, hopen'⟩
      obtain ⟨rest, rfl, hbefore⟩ := hno.isKeyLine_concat_iff.1 hother
      exact ⟨before', rest, hbefore, (StaysOpen.concat_iff.1 hopen').1⟩
  · have hkept : (p.pushInterfaceItem key text).model.interface.get? other ≠ none ↔
        p.model.interface.get? other ≠ none := by
      rw [hget]
      split
      · next hsame => simp [hsame, h.values _ _ _ _ hlast]
      · rfl
    rw [hkept, h.keys]
    constructor
    · rintro ⟨before', value, after', hother⟩
      exact ⟨before', value, _, hno.isKeyLine_concat_iff.2 ⟨after', rfl, hother⟩⟩
    · rintro ⟨before', value, after', hother⟩
      obtain ⟨rest, -, hbefore⟩ := hno.isKeyLine_concat_iff.1 hother
      exact ⟨before', value, rest, hbefore⟩
  · have hafter : after' ≠ [] := by
      obtain ⟨rest, rfl, -⟩ := hno.isKeyLine_concat_iff.1 hother.toIsKeyLine
      simp
    obtain ⟨rest, rfl, hbefore⟩ := hother.of_concat hafter
    rw [hget]
    by_cases hsame : other = key
    · subst hsame
      obtain ⟨-, -, rfl, rfl⟩ := hlast.eq_of_length hbefore.toIsKeyLine
        (le_antisymm (hlast.last _ _ _ hbefore.toIsKeyLine) (hbefore.last _ _ _ hline))
      rw [if_pos rfl]
    · rw [if_neg hsame, h.values _ _ _ _ hbefore, declared_concat]
      rintro rfl hopen'
      have hsome := (h.openKey other).2 ⟨before', rest, hbefore.toIsKeyLine, hopen'⟩
      rw [hkey] at hsome
      exact absurd (Option.some.inj hsome).symm hsame

theorem Declares.takesItem {text : Text} {s : Section} (h : p.Declares ls) (hin : p.KeyInside)
    (hplace : p.place = .under s) (hq : p.TakesItem mode text s q) :
    q.Declares (ls ++ [.item text]) := by
  have hno : NoKeyLine ls (.item text) := fun _ => by simp
  have hends : (Line.item text).endsList = false := rfl
  cases hq with
  | parameter | output | dependency | pattern =>
    exact h.kept hno (.inr (hin (by simp [hplace]))) (by simp [hends]) rfl
  | keyed hkey => exact h.pushInterfaceItem hkey
  | keyless hkey => exact h.kept hno (.inr hkey) (by simp [hends]) rfl

/-- One more line, and the interface is what the lines so far make of it. -/
theorem Declares.step (h : p.Declares ls) (ha : p.Accounts mode ls) (hin : p.KeyInside)
    (hq : p.step mode line = .ok q) : q.Declares (ls ++ [line]) := by
  -- away from the interface no line with a key is a key line
  have hno {key value text : Text} {indented : Bool} (hplace : p.place ≠ .under .interface) :
      NoKeyLine ls (.entry key value text indented) := fun hgoverned =>
    absurd ((ha.place .interface).2 hgoverned) hplace
  cases takes_of_step hq with
  | skip | metadata | capability | heading | proseOn | proseEnd | strayProse =>
    exact h.kept (fun _ => by simp) (.inl rfl) (by simp [Line.endsList, continueCapability]) rfl
  | item hplace hq => exact h.takesItem hin hplace hq
  | strayItem hplace =>
    exact h.kept (fun _ => by simp) (.inr (hin (hplace _)))
      (by simp [Line.endsList]) rfl
  | setting hplace => exact h.setInterface ((ha.place .interface).1 hplace)
  | entryOn hplace | entryEnd hplace =>
    have hother : p.place ≠ .under .interface := by simp [hplace]
    exact h.kept (hno hother) (.inl rfl) (by simp [continueCapability, hin hother]) rfl
  | strayEntry _ hother =>
    exact h.kept (hno hother) (.inl rfl) (by simp [hin hother]) rfl

theorem Declares.run {number : Nat} {rest : List Line} (h : p.Declares ls)
    (ha : p.Accounts mode ls) (hin : p.KeyInside) (hq : p.run mode number rest = .ok q) :
    q.Declares (ls ++ rest) := by
  induction rest generalizing p ls number with
  | nil =>
    cases hq
    rwa [List.append_nil]
  | cons line rest ih =>
    obtain ⟨p', hstep, hq⟩ := exists_of_run_cons hq
    have hrest := ih (h.step ha hin hstep) (ha.step hstep) (hin.step hstep) hq
    rwa [List.append_assoc, List.singleton_append] at hrest

end Progress

/-! ### Whole models -/

theorem InterfaceValue.read_bracketed (inner : Text) :
    read ('[' :: (inner ++ [']'])) = .list (((inner.splitOn ',').map fun item =>
      Text.trimMatches (fun c => c = '"' || c = '\'') (Text.trim item)).filter (· ≠ [])) := by
  have hinner : (Text.stripStart? "[" ('[' :: (inner ++ [']']))).bind (Text.stripEnd? ']') =
      some inner := by
    have hstart : Text.stripStart? "[" ('[' :: (inner ++ [']'])) = some (inner ++ [']']) := rfl
    rw [hstart, Option.bind_some, Text.stripEnd?]
    simp
  rw [read, hinner]

/-- **What the interface says.** The keys of the interface are those of the key lines, each of which
has a last one. Where that line has a value, the key has the list between the brackets or the text;
where it has none, the key has the list of the items after the line, up to the next key line and the
next line of metadata, capability or heading. -/
theorem Model.interface_parse {mode : ParseMode} {text : Text} {m : Model}
    (h : parse mode text = .ok m) :
    (∀ key, m.interface.get? key ≠ none ↔
      ∃ before value after, IsKeyLine (linesOf text) before key value after) ∧
    (∀ key, m.interface.get? key ≠ none →
      ∃ before value after, IsLastKeyLine (linesOf text) before key value after) ∧
    ∀ before key value after, IsLastKeyLine (linesOf text) before key value after →
      (value = [] → m.interface.get? key = some (.list (itemsAfter after))) ∧
      (∀ inner, value = '[' :: (inner ++ [']']) →
        m.interface.get? key = some (.list (((inner.splitOn ',').map fun item =>
          Text.trimMatches (fun c => c = '"' || c = '\'') (Text.trim item)).filter (· ≠ [])))) ∧
      (value ≠ [] → (∀ inner, value ≠ '[' :: (inner ++ [']'])) →
        m.interface.get? key = some (.text value)) := by
  obtain ⟨q, hq, rfl⟩ := exists_run_of_parse h
  have hdeclares := Progress.declares_start.run (Progress.accounts_start mode)
    Progress.keyInside_start hq
  rw [List.nil_append] at hdeclares
  refine ⟨hdeclares.keys, fun key hkey => ?_, fun before key value after hlast => ?_⟩
  · obtain ⟨before, value, after, hline⟩ := (hdeclares.keys key).1 hkey
    exact hline.exists_last
  · have hvalue := hdeclares.values _ _ _ _ hlast
    refine ⟨?_, ?_, fun hne htext => ?_⟩
    · rintro rfl
      exact hvalue
    · rintro inner rfl
      rw [hvalue, declared, if_neg (List.cons_ne_nil _ _), InterfaceValue.read_bracketed]
    · rw [hvalue, declared, if_neg hne, InterfaceValue.read_text htext]

/-- A text that gives a key twice, once with items, has a key that looks like a heading's, and comes
back to the section of the interface without a key. -/
def Model.sampleKeys : Text :=
  Text.unlines ["Interface:", "  tool: x", "  tags:", "  - a", "  # tool:", "  - b",
    "  tool: [\"y\", z]", "  - lost", "Interface:", "  - lost", "  Model:", "  - c"]

/-- The model in that text. -/
def Model.keyed : Model where
  interface := ⟨[("Model", .list ["c"]), ("tags", .list ["a", "b"]), ("tool", .list ["y", "z"])],
    by decide⟩

theorem Model.interface_parse_sampleKeys :
    parse .permissive sampleKeys = .ok keyed ∧
      ∃ before value after, IsLastKeyLine (linesOf sampleKeys) before "tags" value after :=
  have h : parse .permissive sampleKeys = .ok keyed := by decide
  ⟨h, (interface_parse h).2.1 "tags" (by decide)⟩

end ActionBundles
