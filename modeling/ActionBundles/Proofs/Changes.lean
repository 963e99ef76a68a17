import ActionBundles.Proofs.Confined
import ActionBundles.Proofs.Landing

/-!
# What changes in files and directories

`Tree.Confined` says which addresses may change. `Tree.Changed` says more: directories never go and
are made only where nothing was, and files come, change and go only at some addresses. So a file
elsewhere is as it was, and no other file is new. Each action of the file system keeps this if the
address at which its path lands may change (`Path.LandsAt`), with whatever dots the path is written.
-/

namespace ActionBundles

open ActionBundles.Action

variable {files dirs : Address → Prop} {a x : Address} {t₀ t : Tree} {d : Disk} {path : Text}

/-- `t` is what becomes of `t₀` in a project at `a` without links where files come and go at `files`
alone and directories are made at `dirs` alone. -/
structure Tree.Changed (files dirs : Address → Prop) (a : Address) (t₀ t : Tree) : Prop where
  kept : ∀ x node, t₀.get? x = some node → node = .directory ∨ ¬ files x → t.get? x = some node
  new : ∀ x node, t.get? x = some node → t₀.get? x = some node ∨
    node = .directory ∧ dirs x ∨ files x ∧ ∃ content mode, node = .file content mode
  root : t.get? a = some .directory
  noLinks : t.NoLinksIn a

namespace Tree.Changed

variable {n : Text} {dir : Address}

theorem refl (hroot : t.get? a = some .directory) (hno : t.NoLinksIn a) :
    t.Changed files dirs a t :=
  ⟨fun _ _ h _ => h, fun _ _ h => .inl h, hroot, hno⟩

theorem mono {files' dirs' : Address → Prop} (h : t₀.Changed files dirs a t)
    (hfiles : ∀ x, files x → files' x) (hdirs : ∀ x, dirs x → dirs' x) :
    t₀.Changed files' dirs' a t where
  kept x node hx hstay := h.kept x node hx (hstay.imp_right fun hnot hf => hnot (hfiles x hf))
  new x node hx := (h.new x node hx).imp_right
    (Or.imp (And.imp_right (hdirs x)) (And.imp_left (hfiles x)))
  root := h.root
  noLinks := h.noLinks

theorem trans {t₁ t₂ : Tree} (h₁ : t₀.Changed files dirs a t₁) (h₂ : t₁.Changed files dirs a t₂) :
    t₀.Changed files dirs a t₂ where
  kept x node hx hstay := h₂.kept x node (h₁.kept x node hx hstay) hstay
  new x node hx := by
    rcases h₂.new x node hx with hx | hnew
    · exact h₁.new x node hx
    · exact .inr hnew
  root := h₂.root
  noLinks := h₂.noLinks

/-- A file elsewhere is there if and only if it was. -/
theorem get?_file_iff (h : t₀.Changed files dirs a t) (hx : ¬ files x) (content : Bytes)
    (mode : Bool) :
    t.get? x = some (.file content mode) ↔ t₀.get? x = some (.file content mode) := by
  refine ⟨fun hfile => ?_, fun hfile => h.kept x _ hfile (.inr hx)⟩
  rcases h.new x _ hfile with hfile | ⟨hdir, -⟩ | ⟨hf, -⟩
  · exact hfile
  · cases hdir
  · exact absurd hf hx

theorem directory (h : t₀.Changed files dirs a t) (hx : t₀.get? x = some .directory) :
    t.get? x = some .directory := h.kept x _ hx (.inl rfl)

/-! ### Changes of a tree -/

/-- A directory is made where nothing was. -/
theorem makeDirectory (h : t₀.Changed files dirs a t) (hnone : t.get? (n :: dir) = none)
    (hd : dirs (n :: dir)) : t₀.Changed files dirs a (t.set n dir .directory) where
  kept x node hx hstay := by
    have hnow := h.kept x node hx hstay
    rw [get?_set, if_neg, hnow]
    rintro ⟨-, rfl⟩
    cases hnone.symm.trans hnow
  new x node hx := by
    rw [get?_set] at hx
    split at hx
    · next heq =>
      cases hx
      exact .inr (.inl ⟨rfl, heq.2 ▸ hd⟩)
    · exact h.new x node hx
  root := by
    rw [get?_set, if_neg, h.root]
    rintro ⟨-, rfl⟩
    cases hnone.symm.trans h.root
  noLinks := h.noLinks.set (by simp)

/-- A file is written. It takes the place of no directory. -/
theorem write (h : t₀.Changed files dirs a t) (hf : files (n :: dir)) (content : Bytes)
    (mode : Bool) : t₀.Changed files dirs a (t.set n dir (.file content mode)) := by
  have hdirectory : ∀ y, t.get? y = some .directory →
      (t.set n dir (.file content mode)).get? y = some .directory := gains_set.directory
  refine ⟨fun x node hx hstay => ?_, fun x node hx => ?_, hdirectory a h.root,
    h.noLinks.set (by simp)⟩
  · have hnow := h.kept x node hx hstay
    rcases hstay with rfl | hnot
    · exact hdirectory x hnow
    · rw [get?_set, if_neg, hnow]
      rintro ⟨-, rfl⟩
      exact hnot hf
  · rw [get?_set] at hx
    split at hx
    · next heq =>
      cases hx
      exact .inr (.inr ⟨heq.2 ▸ hf, content, mode, rfl⟩)
    · exact h.new x node hx

/-- A file is removed. -/
theorem remove (h : t₀.Changed files dirs a t) (hf : files x)
    (hne : t.get? x ≠ some .directory) : t₀.Changed files dirs a (t.prune x) := by
  have hget := get?_prune_of_ne_directory hne
  refine ⟨fun y node hy hstay => ?_, fun y node hy => h.new y node (get?_of_prune hy), ?_,
    h.noLinks.prune x⟩
  · have hnow := h.kept y node hy hstay
    rw [hget, if_neg, hnow]
    rintro rfl
    rcases hstay with rfl | hnot
    · exact hne hnow
    · exact hnot hf
  · rw [hget, if_neg, h.root]
    rintro rfl
    exact hne h.root

/-- A directory that was not there before goes with everything in it. -/
theorem removeOwn {r : Address}
    (h : t₀.Changed (fun x => r <:+ x ∨ files x) (fun x => r <:+ x ∨ dirs x) a t)
    (hvacant : ∀ x, r <:+ x → t₀.get? x = none) (hroot : ¬ r <:+ a) :
    t₀.Changed files dirs a (t.prune r) where
  kept x node hx hstay := by
    have hout : ¬ r <:+ x := fun hs => by cases (hvacant x hs).symm.trans hx
    rw [get?_prune_of_not_suffix hout]
    exact h.kept x node hx (hstay.imp_right fun hnot hf => hf.elim hout hnot)
  new x node hx := by
    rw [get?_prune] at hx
    split at hx
    · cases hx
    · next hout =>
      rcases h.new x node hx with hx | ⟨rfl, hs | hd⟩ | ⟨hs | hf, hfile⟩
      · exact .inl hx
      · by_cases hnil : x = []
        · subst hnil
          exact .inl rfl
        · exact absurd ⟨hnil, hs⟩ hout
      · exact .inr (.inl ⟨rfl, hd⟩)
      · obtain ⟨content, mode, rfl⟩ := hfile
        have hnil : x ≠ [] := fun he => by
          subst he
          cases hx
        exact absurd ⟨hnil, hs⟩ hout
      · exact .inr (.inr ⟨hf, hfile⟩)
  root := by
    rw [get?_prune_of_not_suffix hroot]
    exact h.root
  noLinks := h.noLinks.prune r

end Tree.Changed

/-! ### Where paths land -/

namespace Path

theorem staysBelow_dot (depth : Nat) (ms : List Text) :
    staysBelow depth (ms ++ [['.']]) = staysBelow depth ms := by
  induction ms generalizing depth with
  | nil => simp [staysBelow]
  | cons m ms ih =>
    rw [List.cons_append, staysBelow, staysBelow, ih, ih, ih]

/-- An absolute path that starts in the directory `a`, never leads above it and lands at `x`. -/
def LandsAt (a : Address) (path : Text) (x : Address) : Prop :=
  isAbsolute path = true ∧ ∃ ms, steps path = a.reverse ++ ms ∧ staysBelow 0 ms = true ∧
    x = landing [] ms ++ a

theorem staysBelow_of_isStep {ms : List Text} (h : ∀ m ∈ ms, isStep m = true) (depth : Nat) :
    staysBelow depth ms = true := by
  have hmem : ['.', '.'] ∉ ms := fun hdots => (isStep_iff.1 (h _ hdots)).2.2.1 rfl
  have hbelow : staysBelow depth (ms ++ []) = true := staysBelow_append hmem rfl
  simpa using hbelow

theorem landsAt_ofAddress (h : IsWay x) (hx : a <:+ x) : LandsAt a (ofAddress x) x := by
  obtain ⟨b, rfl⟩ := hx
  have hb : IsWay b := fun n hn => h n (List.mem_append_left _ hn)
  exact ⟨isAbsolute_ofAddress _, b.reverse, by rw [steps_ofAddress h, List.reverse_append],
    staysBelow_of_isStep (fun m hm => hb m (List.mem_reverse.1 hm)) 0, by
      rw [landing_reverse hb, List.append_nil]⟩

/-- The path of an address has only the directories above it on its way. -/
theorem LandsAt.suffix {path' : Text} {y : Address} (hway : IsWay x) (hx : a <:+ x)
    (hpath : steps path' <+: steps (ofAddress x)) (h : LandsAt a path' y) : y <:+ x := by
  obtain ⟨-, ms, hsteps, -, rfl⟩ := h
  obtain ⟨b, rfl⟩ := hx
  rw [hsteps, steps_ofAddress hway, List.reverse_append, List.prefix_append_right_inj] at hpath
  have hstep : ∀ m ∈ ms, isStep m = true := fun m hm =>
    hway m (List.mem_append_left _ (List.mem_reverse.1 (hpath.subset hm)))
  obtain ⟨e, he⟩ : ms.reverse <:+ b := by simpa using List.reverse_suffix.2 hpath
  rw [landing_of_isStep hstep, List.append_nil]
  exact ⟨e, by rw [← List.append_assoc, he]⟩

section Within

variable {r : Address} {ms : List Text} (hx : a <:+ r) (hway : IsWay r)
  (hsteps : steps path = r.reverse ++ ms) (hs : staysBelow 0 ms = true)

include hx hway hsteps hs

/-- A path that goes on from a directory below `a`, and never leads above that. -/
theorem landsAt_of_steps (habs : isAbsolute path = true) :
    LandsAt a path (landing [] ms ++ r) := by
  obtain ⟨b, rfl⟩ := hx
  have hb : IsWay b := fun n hn => hway n (List.mem_append_left _ hn)
  refine ⟨habs, b.reverse ++ ms, by rw [hsteps, List.reverse_append, List.append_assoc],
    staysBelow_append (fun hdots => ?_) hs, ?_⟩
  · exact (isStep_iff.1 (hb _ (List.mem_reverse.1 hdots))).2.2.1 rfl
  · rw [landing_append, landing_reverse hb, List.append_nil, ← List.nil_append b,
      landing_below (c := []) hs, List.nil_append, List.append_assoc]

/-- All that is on the way of such a path is above the directory or in it. -/
theorem LandsAt.suffix_or_suffix {path' : Text} {y : Address}
    (hpath : steps path' <+: steps path) (h : LandsAt a path' y) : y <:+ r ∨ r <:+ y := by
  obtain ⟨-, ms', hsteps', -, rfl⟩ := h
  obtain ⟨b, rfl⟩ := hx
  have hb : IsWay b := fun n hn => hway n (List.mem_append_left _ hn)
  rw [hsteps', hsteps, List.reverse_append, List.append_assoc,
    List.prefix_append_right_inj] at hpath
  rcases List.prefix_or_prefix_of_prefix hpath (List.prefix_append b.reverse ms) with
    habove | ⟨more, rfl⟩
  · left
    have hstep : ∀ m ∈ ms', isStep m = true := fun m hm =>
      hb m (List.mem_reverse.1 (habove.subset hm))
    obtain ⟨e, he⟩ : ms'.reverse <:+ b := by simpa using List.reverse_suffix.2 habove
    rw [landing_of_isStep hstep, List.append_nil]
    exact ⟨e, by rw [← List.append_assoc, he]⟩
  · right
    rw [List.prefix_append_right_inj] at hpath
    obtain ⟨rest, rfl⟩ := hpath
    rw [landing_append, landing_reverse hb, List.append_nil, ← List.nil_append b,
      landing_below (c := []) (staysBelow_of_append hs), List.nil_append, List.append_assoc]
    exact List.suffix_append _ _

end Within

end Path

namespace Disk

section Landing

variable (hroot : d.tree.get? a = some .directory) (hno : d.tree.NoLinksIn a)
  (h : Path.LandsAt a path x)

include hroot hno h

theorem address_of_openForWriting_lands {spot : Spot} (hopen : d.openForWriting path = .ok spot) :
    spot.address = x := by
  obtain ⟨habs, ms, hsteps, hs, rfl⟩ := h
  have hfollow := (openForWriting_eq_ok hopen).1
  rw [hsteps] at hfollow
  exact address_of_follow habs hroot hno hs hfollow

theorem address_of_place_lands {spot : Spot} (hplace : d.place path = .ok spot) :
    spot.address = x := by
  obtain ⟨habs, ms, hsteps, hs, rfl⟩ := h
  rw [place, hsteps] at hplace
  exact address_of_follow habs hroot hno hs hplace

theorem address_of_find_lands {y : Address} {node : Node} (hfind : d.find path = .ok (y, node)) :
    y = x := by
  obtain ⟨habs, ms, hsteps, hs, rfl⟩ := h
  have hentry : d.follow true path (Tree.stepsOf path) = .ok (.entry y node) := by
    rw [find] at hfind
    split at hfind
    · cases hfind
    · cases hfind
    · next heq =>
      cases hfind
      exact heq
  rw [Tree.stepsOf, hsteps] at hentry
  split at hentry
  · rw [List.append_assoc] at hentry
    have hy : (Spot.entry y node).address = Path.landing [] (ms ++ [['.']]) ++ a :=
      address_of_follow habs hroot hno ((Path.staysBelow_dot 0 ms).trans hs) hentry
    refine hy.trans ?_
    rw [Path.landing_append]
    rfl
  · have hy : (Spot.entry y node).address = Path.landing [] ms ++ a :=
      address_of_follow habs hroot hno hs hentry
    exact hy

end Landing

/-- On the way down to a directory nothing is vacant. -/
theorem not_vacant_above (hroot : d.tree.get? a = some .directory)
    (habs : Path.isAbsolute path = true) (hsteps : Path.steps path <+: a.reverse)
    {dir : Address} {n : Text} : d.place path ≠ .ok (.vacant dir n) := by
  intro hplace
  have hsuffix : (Path.steps path).reverse <:+ a := by simpa using List.reverse_suffix.2 hsteps
  have hdir := Tree.directory_of_suffix hroot hsuffix
  have hleg : d.tree.leg false [] (Path.steps path) = _ :=
    Tree.leg_of_get? rfl (by simpa using hdir) (by simp)
  have hwalk := walk_of_follow habs hplace
  rw [Tree.walk_of_end hleg] at hwalk
  cases hwalk

/-! ### Actions -/

/-- What allows a new directory at any vacant place on the way is kept by making directories. -/
theorem keeps_makeDirectories_along [Medium] {P : Tree → Prop} (habs : Path.isAbsolute path = true)
    (h : ∀ (d : Disk) path' n dir, P d.tree → Path.isAbsolute path' = true →
      Path.steps path' <+: Path.steps path → d.place path' = .ok (.vacant dir n) →
      P (d.tree.set n dir .directory)) :
    Keeps P (makeDirectories path) := by
  have hmake : ∀ path', Path.isAbsolute path' = true → Path.steps path' <+: Path.steps path →
      Keeps P (makeDirectory path') := fun path' habs' hpre d hd => by
    rw [makeDirectory_on_place]
    cases hplace : d.place path' with
    | error e => exact hd
    | ok spot =>
      cases spot with
      | entry b node => exact hd
      | vacant dir n => exact holds_of_add hd (h d path' n dir hd habs' hpre hplace)
  have hwithin : ∀ bound path', Path.isAbsolute path' = true →
      Path.steps path' <+: Path.steps path → Keeps P (makeDirectoriesWithin bound path') := by
    intro bound
    induction bound with
    | zero => exact fun _ _ _ => keeps_throw _
    | succ bound ih =>
      intro path' habs' hpre
      refine keeps_makeDirectoriesWithin_succ (hmake path' habs' hpre) fun above hparent => ?_
      obtain ⟨habove, hsteps⟩ := Path.parent?_of_isAbsolute habs' hparent
      exact ih above habove (hsteps.trans hpre)
  exact hwithin _ path habs (List.prefix_refl _)

/-- Directories are made on the way to where a path lands. -/
theorem changed_makeDirectories [Medium] {whole : Text} (h : Path.LandsAt a whole x)
    (habs : Path.isAbsolute path = true) (hpath : Path.steps path <+: Path.steps whole)
    (hd : ∀ path' y, Path.steps path' <+: Path.steps path → Path.LandsAt a path' y → dirs y) :
    Keeps (t₀.Changed files dirs a) (makeDirectories path) := by
  obtain ⟨-, ms, hsteps, hs, rfl⟩ := h
  refine keeps_makeDirectories_along habs fun d path' n dir hchanged habs' hpre hplace => ?_
  refine hchanged.makeDirectory (place_holds habs' hplace).2 ?_
  have hwhole := hpre.trans hpath
  rcases List.prefix_or_prefix_of_prefix hwhole (hsteps ▸ List.prefix_append a.reverse ms) with
    habove | ⟨ms', hms'⟩
  · exact absurd hplace (not_vacant_above hchanged.root habs' habove)
  · obtain ⟨more, hmore⟩ := hwhole
    rw [hsteps, ← hms', List.append_assoc, List.append_cancel_left_eq] at hmore
    have hlands : Path.LandsAt a path' (Path.landing [] ms' ++ a) :=
      ⟨habs', ms', hms'.symm, Path.staysBelow_of_append (hmore ▸ hs), rfl⟩
    rw [show n :: dir = _ from address_of_place_lands hchanged.root hchanged.noLinks hlands hplace]
    exact hd path' _ hpre hlands

/-- Directories are made on the way to an address. -/
theorem changed_makeDirectories_ofAddress [Medium] (hway : Path.IsWay x) (hx : a <:+ x)
    (hd : ∀ y, y <:+ x → dirs y) :
    Keeps (t₀.Changed files dirs a) (makeDirectories (Path.ofAddress x)) :=
  changed_makeDirectories (Path.landsAt_ofAddress hway hx) (Path.isAbsolute_ofAddress x)
    (List.prefix_refl _) fun _ y hpre hlands => hd y (Path.LandsAt.suffix hway hx hpre hlands)

theorem changed_put [Medium] (h : Path.LandsAt a path x) (hf : files x) (content : Bytes)
    (executable : Option Bool) :
    Keeps (t₀.Changed files dirs a) (put path content executable) := by
  intro d hchanged
  have hputting := putting path content executable d
  have haddress : ∀ spot, d.openForWriting path = .ok spot → spot.address = x := fun spot =>
    address_of_openForWriting_lands hchanged.root hchanged.noLinks h
  generalize (put path content executable).on d = ended at hputting ⊢
  cases hputting with
  | refused => exact hchanged
  | stopped n dir spot part mode hopen hspot =>
    obtain rfl := hspot.symm.trans (haddress spot hopen)
    exact hchanged.write hf part mode
  | done n dir spot mode hopen hspot =>
    obtain rfl := hspot.symm.trans (haddress spot hopen)
    exact hchanged.write hf content mode

theorem changed_touch [Medium] (h : Path.LandsAt a path x) (hf : files x) :
    Keeps (t₀.Changed files dirs a) (touch path) := by
  intro d hchanged
  rw [touch_on_spot]
  cases hopen : d.openForWriting path with
  | error e => exact hchanged
  | ok spot =>
    have haddress := address_of_openForWriting_lands hchanged.root hchanged.noLinks h hopen
    subst haddress
    cases spot with
    | vacant dir n => exact holds_of_add hchanged (hchanged.write hf _ _)
    | entry b node => exact hchanged

theorem changed_makeExecutable (h : Path.LandsAt a path x) (hf : files x) :
    Keeps (t₀.Changed files dirs a) (makeExecutable path) := by
  intro d hchanged
  rw [makeExecutable_on]
  cases hfind : d.find path with
  | error e => exact hchanged
  | ok found =>
    obtain ⟨y, node⟩ := found
    obtain rfl := address_of_find_lands hchanged.root hchanged.noLinks h hfind
    cases y with
    | nil => exact hchanged
    | cons n dir =>
      cases node with
      | file content mode => exact hchanged.write hf _ _
      | directory => exact hchanged
      | link target => exact hchanged

theorem changed_copy [Medium] {source : Text} (h : Path.LandsAt a path x) (hf : files x) :
    Keeps (t₀.Changed files dirs a) (copy source path) := by
  refine keeps_bind_consult fun d found hchanged _ => ?_
  obtain ⟨y, node⟩ := found
  cases node with
  | file content mode => exact changed_put h hf content (some mode) d hchanged
  | directory => exact hchanged
  | link target => exact hchanged

theorem changed_removeFile (h : Path.LandsAt a path x) (hf : files x) :
    Keeps (t₀.Changed files dirs a) (removeFile path) := by
  intro d hchanged
  rw [removeFile_on]
  cases hplace : d.place path with
  | error e => exact hchanged
  | ok spot =>
    have haddress := address_of_place_lands hchanged.root hchanged.noLinks h hplace
    have hholds := place_holds h.1 hplace
    subst haddress
    cases spot with
    | vacant dir n => exact hchanged
    | entry b node =>
      cases node with
      | directory => exact hchanged
      | file content mode =>
        exact hchanged.remove hf fun hdir => by cases hdir.symm.trans hholds
      | link target =>
        exact hchanged.remove hf fun hdir => by cases hdir.symm.trans hholds

theorem changed_move {source : Text} {y : Address} (hs : Path.LandsAt a source y) (hfs : files y)
    (h : Path.LandsAt a path x) (hf : files x) :
    Keeps (t₀.Changed files dirs a) (move source path) := by
  intro d hchanged
  rcases move_gains hs.1 path d with he | ⟨old, node, spot, hsource, hnode, hold, htarget, -⟩
  · rwa [he]
  have hy : old = y := address_of_place_lands hchanged.root hchanged.noLinks hs hsource
  have hx := address_of_place_lands hchanged.root hchanged.noLinks h htarget
  subst hx
  have hne : d.tree.get? old ≠ some .directory := fun hdir => hnode (Option.some.inj (hold ▸ hdir))
  obtain ⟨content, mode, rfl⟩ : ∃ content mode, node = .file content mode := by
    cases node with
    | directory => exact absurd rfl hnode
    | file content mode => exact ⟨content, mode, rfl⟩
    | link target =>
      obtain ⟨-, ms, -, -, hbelow⟩ := hs
      exact absurd (hy.trans hbelow ▸ hold) (hchanged.noLinks _ target)
  have hmoved : ∀ n dir, files (n :: dir) → t₀.Changed files dirs a
      ((d.tree.prune old).set n dir (.file content mode)) := fun n dir hn =>
    (hchanged.remove (hy ▸ hfs) hne).write hn content mode
  rw [move_on, hsource]
  dsimp only
  rw [htarget]
  cases spot with
  | vacant dir n => exact hmoved n dir hf
  | entry b there =>
    cases there with
    | directory => exact hchanged
    | file content' mode' =>
      cases b with
      | nil => exact hchanged
      | cons n dir =>
        dsimp only
        split
        · exact hchanged
        · exact hmoved n dir hf
    | link target =>
      cases b with
      | nil => exact hchanged
      | cons n dir =>
        dsimp only
        split
        · exact hchanged
        · exact hmoved n dir hf

end Disk

end ActionBundles
