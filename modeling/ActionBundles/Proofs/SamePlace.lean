import ActionBundles.Layout
import ActionBundles.Proofs.FileOrder
import ActionBundles.Proofs.Following
import ActionBundles.Proofs.Texts
import Mathlib.Data.Set.List

/-!
# Paths that lead to the same place

Single dots within a path mean nothing, neither to its components nor to where it leads, unless the
path ends with one. So two paths with the same components that end with a name lead to the same
place, whatever links stand on the way (`Disk.find_join_congr`), and a path that is put on record by
its names from the root leads from there to where it led (`Layout.find_resolve_relative`).
-/

namespace ActionBundles

namespace Path

/-! ### Steps without dots -/

/-- The steps but for single dots. -/
def undotted (steps : List Text) : List Text := steps.filter (· ≠ ['.'])

theorem undotted_append (a b : List Text) : undotted (a ++ b) = undotted a ++ undotted b :=
  List.filter_append _ _

theorem undotted_undotted (a : List Text) : undotted (undotted a) = undotted a := by
  simp [undotted]

theorem undotted_of_isStep {ns : List Text} (h : ∀ n ∈ ns, isStep n = true) : undotted ns = ns :=
  List.filter_eq_self.2 fun n hn => by simpa using (isStep_iff.1 (h n hn)).2.1

/-- The component of a step that is no single dot. -/
def componentOf (step : Text) : Component := if step = ['.', '.'] then .up else .name step

theorem componentOf_injective {s t : Text} (h : componentOf s = componentOf t) : s = t := by
  rw [componentOf, componentOf] at h
  split at h <;> split at h
  · next hs ht => rw [hs, ht]
  · cases h
  · cases h
  · exact Component.name.inj h

theorem filterMap_ofPiece? (pieces : List Text) :
    pieces.filterMap ofPiece? = (undotted (pieces.filter (· ≠ []))).map componentOf := by
  induction pieces with
  | nil => rfl
  | cons piece pieces ih =>
    rw [List.filterMap_cons, ih]
    by_cases hempty : piece = []
    · simp [ofPiece?, hempty]
    by_cases hdot : piece = ['.']
    · simp [ofPiece?, hdot, undotted]
    · have hpiece : ofPiece? piece = some (componentOf piece) := by
        rw [ofPiece?, if_neg hempty, if_neg hdot, componentOf]
        split <;> rfl
      have hundotted : undotted ((piece :: pieces).filter (· ≠ [])) =
          piece :: undotted (pieces.filter (· ≠ [])) := by
        simp [undotted, hempty, hdot]
      rw [hpiece, hundotted, List.map_cons]

/-- The components of an absolute path are its steps but for dots, after the root. -/
theorem components_of_isAbsolute {path : Text} (h : isAbsolute path = true) :
    components path = .root :: (undotted (steps path)).map componentOf := by
  rw [components, h]
  exact congrArg (Component.root :: ·) (filterMap_ofPiece? _)

/-- Whether a component stands for a step. -/
def isInner : Component → Bool
  | .root => false
  | .here => false
  | _ => true

theorem filter_isInner_components (path : Text) :
    (components path).filter isInner = (undotted (steps path)).map componentOf := by
  have hbody : (undotted (steps path)).map componentOf =
      (path.splitOn '/').filterMap ofPiece? := (filterMap_ofPiece? _).symm
  have hinner : ∀ s : Text, isInner (componentOf s) = true := fun s => by
    rw [componentOf]
    split <;> rfl
  have hkeep : ((undotted (steps path)).map componentOf).filter isInner =
      (undotted (steps path)).map componentOf :=
    List.filter_eq_self.2 (List.forall_mem_map.2 fun s _ => hinner s)
  rw [components, ← hbody]
  split
  · rw [List.filter_cons_of_neg (by decide), hkeep]
  · split
    · rw [List.filter_cons_of_neg (by decide), hkeep]
    · exact hkeep

/-- The steps of a path that does not go up are names but for dots. -/
theorem isStep_of_mem_undotted {path s : Text} (hup : Component.up ∉ components path)
    (hs : s ∈ undotted (steps path)) : isStep s = true := by
  obtain ⟨hmem, hdot⟩ := List.mem_filter.1 hs
  obtain ⟨hpiece, hne⟩ := List.mem_filter.1 hmem
  refine isStep_iff.2 ⟨of_decide_eq_true hne, of_decide_eq_true hdot, fun hdots => hup ?_,
    Text.not_mem_of_mem_splitOn hpiece⟩
  have hcomponent : Component.up ∈ (components path).filter isInner := by
    rw [filter_isInner_components]
    exact List.mem_map.2 ⟨s, hs, by rw [componentOf, if_pos hdots]⟩
  exact (List.mem_filter.1 hcomponent).1

theorem isAbsolute_eq (path : Text) :
    isAbsolute path = ((components path).head? == some .root) := by
  have hbody : ∀ pieces : List Text, (pieces.filterMap ofPiece?).head? ≠ some .root := by
    intro pieces h
    obtain ⟨piece, -, hpiece⟩ := List.mem_filterMap.1 (List.mem_of_head? h)
    rw [ofPiece?] at hpiece
    split at hpiece
    · cases hpiece
    split at hpiece
    · cases hpiece
    split at hpiece <;> cases hpiece
  rw [components]
  cases isAbsolute path with
  | true => rfl
  | false =>
    simp only [Bool.false_eq_true, ↓reduceIte]
    split
    · rfl
    · symm
      simpa using hbody (path.splitOn '/')

/-- The steps of a path whose components go on from those of another path with names. -/
theorem undotted_of_components_append {p q : Text} {names : List Text}
    (h : components p = components q ++ names.map .name) :
    undotted (steps p) = undotted (steps q) ++ names ∧ ∀ n ∈ names, isStep n = true := by
  have hnames : (names.map Component.name).filter isInner = names.map .name :=
    List.filter_eq_self.2 (List.forall_mem_map.2 fun _ _ => rfl)
  have hmap := congrArg (List.filter isInner) h
  rw [List.filter_append, filter_isInner_components, filter_isInner_components, hnames] at hmap
  obtain ⟨front, back, hsplit, hfront, hback⟩ := List.map_eq_append_iff.1 hmap
  obtain rfl := List.map_injective_iff.2 (fun _ _ => componentOf_injective) hfront
  have hsteps : back = names ∧ ∀ s ∈ back, s ≠ ['.', '.'] := by
    clear hsplit hmap hnames h
    induction back generalizing names with
    | nil =>
      cases names with
      | nil => simp
      | cons n names => cases hback
    | cons s back ih =>
      cases names with
      | nil => cases hback
      | cons n names =>
        obtain ⟨hs, hback⟩ := List.cons.inj hback
        obtain ⟨rfl, hup⟩ := ih hback
        rw [componentOf] at hs
        split at hs
        · cases hs
        · next hne => exact ⟨by rw [Component.name.inj hs], by simpa [hne] using hup⟩
  obtain ⟨rfl, hup⟩ := hsteps
  refine ⟨hsplit, fun n hn => ?_⟩
  have hmem : n ∈ undotted (steps p) := by
    rw [hsplit]
    exact List.mem_append_right _ hn
  obtain ⟨hmem, hdot⟩ := List.mem_filter.1 hmem
  obtain ⟨hpiece, hempty⟩ := List.mem_filter.1 hmem
  exact isStep_iff.2 ⟨of_decide_eq_true hempty, of_decide_eq_true hdot, hup n hn,
    Text.not_mem_of_mem_splitOn hpiece⟩

theorem isAbsolute_of_components_append {p q : Text} {names : List Text}
    (h : components p = components q ++ names.map .name) : isAbsolute p = isAbsolute q := by
  rw [isAbsolute_eq, isAbsolute_eq, h, List.head?_append]
  cases (components q).head? with
  | some c => rfl
  | none => cases names <;> rfl

/-- What two paths with the same components have in common. -/
theorem undotted_of_components {p q : Text} (h : components p = components q) :
    undotted (steps p) = undotted (steps q) ∧ isAbsolute p = isAbsolute q := by
  refine ⟨?_, by rw [isAbsolute_eq, isAbsolute_eq, h]⟩
  have hmap := congrArg (List.filter isInner) h
  rw [filter_isInner_components, filter_isInner_components] at hmap
  exact List.map_injective_iff.2 (fun _ _ => componentOf_injective) hmap

end Path

/-! ### Following dots -/

namespace Tree

variable {t : Tree} {follow : Bool} {n : Text}

/-- What comes of a way up to the next link, with and without its dots. -/
inductive SameLeg (n : Text) : Except OsError Leg → Except OsError Leg → Prop where
  /-- The way fails. -/
  | error (e : OsError) : SameLeg n (.error e) (.error e)
  /-- The way ends. -/
  | end_ (spot : Spot) : SameLeg n (.ok (.end_ spot)) (.ok (.end_ spot))
  /-- The last step is a link. -/
  | last (above : Address) (target : Text) :
      SameLeg n (.ok (.link above target [])) (.ok (.link above target []))
  /-- A link is met before. -/
  | link (above : Address) (target : Text) (more : List Text) :
      SameLeg n (.ok (.link above target (more ++ [n])))
        (.ok (.link above target (Path.undotted more ++ [n])))

theorem leg_undotted (hn : n ≠ ['.']) (dir : Address) (a : List Text) :
    SameLeg n (t.leg follow dir (a ++ [n])) (t.leg follow dir (Path.undotted a ++ [n])) := by
  induction a generalizing dir with
  | nil =>
    show SameLeg n (t.leg follow dir [n]) (t.leg follow dir [n])
    rw [leg, if_neg hn]
    split
    · exact .end_ _
    split
    · exact .error _
    cases hnode : t.get? (n :: dir) with
    | none => exact .end_ _
    | some node =>
      cases node with
      | directory => exact .end_ _
      | file content executable => exact .end_ _
      | link target =>
        cases follow with
        | true => exact .last dir target
        | false => exact .end_ _
  | cons s a ih =>
    by_cases hdot : s = ['.']
    · subst hdot
      exact ih dir
    have hundotted : Path.undotted (s :: a) = s :: Path.undotted a :=
      List.filter_cons_of_pos (by simpa using hdot)
    rw [hundotted, List.cons_append, List.cons_append, leg, leg, if_neg hdot]
    split
    · exact ih dir.tail
    split
    · exact .error _
    cases hnode : t.get? (s :: dir) with
    | none => simpa using SameLeg.error .notFound
    | some node =>
      cases node with
      | directory => exact ih (s :: dir)
      | file content executable => simpa using SameLeg.error .notDirectory
      | link target => simpa using SameLeg.link dir target a

/-- Dots before the last step change nothing. -/
theorem walk_undotted (hn : n ≠ ['.']) (budget : Nat) (dir : Address) (a : List Text) :
    t.walk follow budget dir (a ++ [n]) = t.walk follow budget dir (Path.undotted a ++ [n]) := by
  induction budget using Nat.strongRecOn generalizing dir a with
  | _ budget ih =>
    have hsame : SameLeg n (t.leg follow dir (a ++ [n]))
        (t.leg follow dir (Path.undotted a ++ [n])) :=
      leg_undotted hn dir a
    generalize hwith : t.leg follow dir (a ++ [n]) = dotted at hsame
    generalize hwithout : t.leg follow dir (Path.undotted a ++ [n]) = plain at hsame
    cases hsame with
    | error e => rw [walk_of_error hwith, walk_of_error hwithout]
    | end_ spot => rw [walk_of_end hwith, walk_of_end hwithout]
    | last above target =>
      cases budget with
      | zero => rw [walk_of_link_zero hwith, walk_of_link_zero hwithout]
      | succ left => rw [walk_of_link hwith, walk_of_link hwithout]
    | link above target more =>
      cases budget with
      | zero => rw [walk_of_link_zero hwith, walk_of_link_zero hwithout]
      | succ left =>
        have hdotted := ih left (Nat.lt_succ_self left) (startOf target above)
          (stepsOf target ++ more)
        have hplain := ih left (Nat.lt_succ_self left) (startOf target above)
          (stepsOf target ++ Path.undotted more)
        rw [Path.undotted_append] at hdotted hplain
        rw [Path.undotted_undotted] at hplain
        rw [walk_of_link hwith, walk_of_link hwithout, ← List.append_assoc, ← List.append_assoc,
          hdotted, hplain]

/-- A way that ends with a dot ends at a directory. -/
theorem walk_dot {budget : Nat} {dir : Address} {a : List Text} {spot : Spot}
    (h : t.walk follow budget dir (a ++ [['.']]) = .ok spot) : ∃ b, spot = .entry b .directory := by
  obtain ⟨above, left, -, hothers⟩ := exists_walk_append (List.cons_ne_nil _ []) h
  have hdot : t.walk follow left above [['.']] = .ok (.entry above .directory) := walk_of_end rfl
  rw [hothers _ (List.cons_ne_nil _ []), hdot] at h
  exact ⟨above, (Except.ok.inj h).symm⟩

end Tree

namespace Disk

variable {d : Disk}

/-- A path without steps, or whose last step is a dot, leads to a directory. -/
theorem directory_of_find {path : Text} {a : Address} {node : Node}
    (hsteps : Tree.stepsOf path = [] ∨ ∃ before, Tree.stepsOf path = before ++ [['.']])
    (h : d.find path = .ok (a, node)) : node = .directory := by
  rw [find] at h
  cases hfollow : d.follow true path (Tree.stepsOf path) with
  | error e =>
    rw [hfollow] at h
    cases h
  | ok spot =>
    rw [hfollow] at h
    have hwalk : d.tree.walk true maxLinks (Tree.startOf path d.workingDirectory)
        (Tree.stepsOf path) = .ok spot := by
      rw [follow] at hfollow
      split at hfollow
      · cases hfollow
      split at hfollow
      · cases hfollow
      · exact hfollow
    have hspot : ∃ b, spot = .entry b .directory := by
      rcases hsteps with hnil | ⟨before, hdot⟩
      · rw [hnil] at hwalk
        exact ⟨_, (Except.ok.inj hwalk).symm⟩
      · rw [hdot] at hwalk
        exact Tree.walk_dot hwalk
    obtain ⟨b, rfl⟩ := hspot
    cases h
    rfl

/-- A path that leads to a file ends with a step that is no dot, and with no slash. -/
theorem steps_of_isFile {path : Text} (h : d.isFile path = true) :
    Path.wantsDirectory path = false ∧ ∃ before n, Path.steps path = before ++ [n] ∧ n ≠ ['.'] := by
  have hnot : ¬ (Tree.stepsOf path = [] ∨ ∃ before, Tree.stepsOf path = before ++ [['.']]) :=
    fun hsteps => by
      rw [isFile] at h
      cases hfind : d.find path with
      | error e =>
        rw [hfind] at h
        cases h
      | ok found =>
        obtain ⟨a, node⟩ := found
        rw [hfind, directory_of_find hsteps hfind] at h
        cases h
  have hwants : Path.wantsDirectory path = false := by
    by_contra hwants
    exact hnot (.inr ⟨Path.steps path, by rw [Tree.stepsOf, if_pos (by simpa using hwants)]⟩)
  have hstepsOf : Tree.stepsOf path = Path.steps path := by
    rw [Tree.stepsOf, hwants]
    rfl
  rw [hstepsOf] at hnot
  rcases List.eq_nil_or_concat (Path.steps path) with hnil | ⟨before, n, hconcat⟩
  · exact absurd (.inl hnil) hnot
  · rw [List.concat_eq_append] at hconcat
    exact ⟨hwants, before, n, hconcat, fun hdot => hnot (.inr ⟨before, hdot ▸ hconcat⟩)⟩

/-- A path with a slash at its end leads to no file. -/
theorem not_isFile_of_slash {path : Text} (h : path.getLast? = some '/') :
    ¬ d.isFile path = true := fun hfile => by
  obtain ⟨hwants, before, n, hsteps, -⟩ := steps_of_isFile hfile
  simp [Path.wantsDirectory, h, hsteps] at hwants

theorem nul_mem_iff (path : Text) :
    '\x00' ∈ path ↔ ∃ s ∈ Path.undotted (Path.steps path), '\x00' ∈ s := by
  constructor
  · intro h
    have hjoin : Text.join ['/'] (path.splitOn '/') = path := List.intercalate_splitOn '/'
    rw [← hjoin] at h
    rcases Text.mem_join h with hc | ⟨piece, hpiece, hc⟩
    · exact absurd hc (by decide)
    · refine ⟨piece, List.mem_filter.2 ⟨List.mem_filter.2 ⟨hpiece, ?_⟩, ?_⟩, hc⟩
      · exact decide_eq_true (List.ne_nil_of_mem hc)
      · refine decide_eq_true fun hdot => ?_
        subst hdot
        exact absurd hc (by decide)
  · rintro ⟨s, hs, hnul⟩
    exact Text.mem_of_mem_splitOn (List.mem_filter.1 (List.mem_filter.1 hs).1).1 hnul

/-- Two paths that end with the same name lead to the same place if they differ in dots alone. -/
theorem find_congr {p q n : Text} {a b : List Text} (hn : Path.isStep n = true)
    (hp : Path.steps p = a ++ [n]) (hq : Path.steps q = b ++ [n])
    (hwp : Path.wantsDirectory p = false) (hwq : Path.wantsDirectory q = false)
    (hsteps : Path.undotted a = Path.undotted b) (habs : Path.isAbsolute p = Path.isAbsolute q) :
    d.find p = d.find q := by
  have hdot : n ≠ ['.'] := (Path.isStep_iff.1 hn).2.1
  have hne {path : Text} {c : List Text} (h : Path.steps path = c ++ [n]) : path ≠ [] := by
    rintro rfl
    cases c <;> cases h
  have hundotted : Path.undotted (Path.steps p) = Path.undotted (Path.steps q) := by
    rw [hp, hq, Path.undotted_append, Path.undotted_append, hsteps]
  have hnul : '\x00' ∈ p ↔ '\x00' ∈ q := by rw [nul_mem_iff, nul_mem_iff, hundotted]
  have hwalk : d.tree.walk true maxLinks (Tree.startOf p d.workingDirectory) (a ++ [n]) =
      d.tree.walk true maxLinks (Tree.startOf q d.workingDirectory) (b ++ [n]) := by
    rw [Tree.walk_undotted hdot, hsteps, ← Tree.walk_undotted hdot, Tree.startOf, Tree.startOf,
      habs]
  have hfollow : d.follow true p (a ++ [n]) = d.follow true q (b ++ [n]) := by
    rw [follow, follow, if_neg (hne hp), if_neg (hne hq), hwalk]
    by_cases h : '\x00' ∈ p
    · rw [if_pos h, if_pos (hnul.1 h)]
    · rw [if_neg h, if_neg fun hq' => h (hnul.2 hq')]
  rw [find, find, Tree.stepsOf, Tree.stepsOf, hwp, hwq, hp, hq]
  simp only [Bool.false_eq_true, ↓reduceIte, hfollow]

/-! ### Names joined to paths -/

theorem getLast?_join {rel : Text} (hrel : Path.isAbsolute rel = false) (hne : rel ≠ [])
    (dir : Text) : (Path.join dir rel).getLast? = rel.getLast? := by
  rw [Path.join, hrel, if_neg Bool.false_ne_true]
  split
  · exact List.getLast?_append_of_ne_nil _ hne
  · rw [List.getLast?_append_cons, ← List.singleton_append, List.getLast?_append_of_ne_nil _ hne]

theorem isAbsolute_join {rel : Text} (hrel : Path.isAbsolute rel = false) (dir : Text) :
    Path.isAbsolute (Path.join dir rel) = Path.isAbsolute dir := by
  cases dir with
  | nil => simpa [Path.join, hrel, Path.isAbsolute] using hrel
  | cons c dir =>
    rw [Path.join, hrel, if_neg Bool.false_ne_true]
    split <;> rfl

theorem wantsDirectory_of_getLast? {path n : Text} (hn : Path.isStep n = true)
    (h : path.getLast? = n.getLast?) : Path.wantsDirectory path = false := by
  have hslash : path.getLast? ≠ some '/' := fun hlast =>
    (Path.isStep_iff.1 hn).2.2.2 (List.mem_of_getLast? (h ▸ hlast))
  simp [Path.wantsDirectory, hslash]

theorem wantsDirectory_join {n : Text} (hn : Path.isStep n = true) (dir : Text) :
    Path.wantsDirectory (Path.join dir n) = false :=
  wantsDirectory_of_getLast? hn
    (getLast?_join (Path.isAbsolute_of_isStep hn) (Path.isStep_iff.1 hn).1 dir)

theorem isAbsolute_join_steps {ns : List Text} (h : ∀ n ∈ ns, Path.isStep n = true) :
    Path.isAbsolute (Text.join ['/'] ns) = false := by
  cases ns with
  | nil => rfl
  | cons n ns =>
    have hn := h n (by simp)
    have hrelative := Path.isAbsolute_of_isStep hn
    obtain ⟨c, n, rfl⟩ := List.exists_cons_of_ne_nil (Path.isStep_iff.1 hn).1
    cases ns with
    | nil => simpa [Text.join] using hrelative
    | cons m ns =>
      rw [Text.join, List.intercalate_cons_cons]
      exact hrelative

theorem getLast?_join_steps (ns : List Text) {n : Text} (hn : Path.isStep n = true) :
    (Text.join ['/'] (ns ++ [n])).getLast? = n.getLast? := by
  by_cases hns : ns = []
  · subst hns
    simp [Text.join]
  · rw [Path.join_slash_concat n hns, List.getLast?_append_cons, ← List.singleton_append,
      List.getLast?_append_of_ne_nil _ (Path.isStep_iff.1 hn).1]

/-- The entries of one name in two directories with the same components are the same. -/
theorem find_join_congr {n dir dir' : Text} (hn : Path.isStep n = true)
    (h : Path.components dir = Path.components dir') :
    d.find (Path.join dir n) = d.find (Path.join dir' n) := by
  obtain ⟨hsteps, habs⟩ := Path.undotted_of_components h
  refine find_congr hn (Path.steps_join_isStep hn dir) (Path.steps_join_isStep hn dir')
    (wantsDirectory_join hn dir) (wantsDirectory_join hn dir') hsteps ?_
  have hrelative := Path.isAbsolute_of_isStep hn
  rw [isAbsolute_join hrelative, isAbsolute_join hrelative, habs]

end Disk

/-! ### Paths from the root -/

namespace Layout

variable {l : Layout} {d : Disk}

theorem eq_map_of_mapM_nameOf {path : Text} {components : List Component} {names : List Text}
    (h : components.mapM (nameOf path) = .ok names) : components = names.map .name := by
  induction components generalizing names with
  | nil =>
    cases h
    rfl
  | cons c components ih =>
    rw [List.mapM_cons] at h
    cases c with
    | name n =>
      cases hrest : components.mapM (nameOf path) with
      | error e =>
        rw [hrest] at h
        cases h
      | ok rest =>
        rw [hrest] at h
        cases h
        rw [List.map_cons, ← ih hrest]
    | root => cases h
    | here => cases h
    | up => cases h

/-- What is known of a path with a path from the root: its components go on from the root with
names. -/
theorem relative_eq_ok {path rel : Text} (h : l.relative path = .ok rel) :
    ∃ names : List Text, Path.components path = Path.components l.root ++ names.map .name ∧
      rel = Text.join ['/'] names := by
  rw [relative, relativeTo] at h
  cases hafter : Path.after? l.root path with
  | none =>
    rw [hafter] at h
    cases h
  | some components =>
    rw [hafter] at h
    change Except.map _ (components.mapM (nameOf path)) = _ at h
    cases hmap : components.mapM (nameOf path) with
    | error e =>
      rw [hmap] at h
      cases h
    | ok names =>
      rw [hmap] at h
      refine ⟨names, ?_, (Except.ok.inj h).symm⟩
      rw [Path.after?, List.isPrefixOf?_eq_some_iff_append_eq] at hafter
      rw [← hafter, eq_map_of_mapM_nameOf hmap]

/-- Components all of which are names are those of a list of names. -/
theorem exists_eq_map_name {components : List Component} (h : ∀ c ∈ components, ∃ n, c = .name n) :
    ∃ names : List Text, components = names.map .name := by
  have hrange : components ∈ Set.range (List.map Component.name) := by
    rw [Set.range_list_map]
    exact fun c hc => (h c hc).imp fun _ => Eq.symm
  exact hrange.imp fun _ => Eq.symm

theorem mapM_nameOf (path : Text) (names : List Text) :
    (names.map Component.name).mapM (nameOf path) = .ok names := by
  induction names with
  | nil => rfl
  | cons n names ih =>
    rw [List.map_cons, List.mapM_cons, ih]
    rfl

/-- A path whose components go on from the root with names has these names as its path from
there. -/
theorem relative_of_components {path : Text} {names : List Text}
    (h : Path.components path = Path.components l.root ++ names.map .name) :
    l.relative path = .ok (Text.join ['/'] names) := by
  have hafter : Path.after? l.root path = some (names.map .name) := by
    rw [Path.after?, List.isPrefixOf?_eq_some_iff_append_eq, h]
  rw [relative, relativeTo, hafter]
  show ((names.map Component.name).mapM (nameOf path)).map _ = _
  rw [mapM_nameOf]
  rfl

/-- A path that ends with a name leads to where its path from the root leads from there. -/
theorem find_resolve_of_steps {path n rel : Text} {before : List Text} (hn : Path.isStep n = true)
    (hpath : Path.steps path = before ++ [n]) (hwants : Path.wantsDirectory path = false)
    (h : l.relative path = .ok rel) (hne : rel ≠ []) : d.find (l.resolve rel) = d.find path := by
  obtain ⟨names, hcomponents, rfl⟩ := relative_eq_ok h
  obtain ⟨hsteps, hstep⟩ := Path.undotted_of_components_append hcomponents
  have habs := Path.isAbsolute_of_components_append hcomponents
  have hnames : names ≠ [] := fun hnil => hne (by rw [hnil]; rfl)
  -- the last name is the name itself
  have hsingle : Path.undotted [n] = [n] := Path.undotted_of_isStep (by simpa using hn)
  rw [hpath, Path.undotted_append, hsingle] at hsteps
  obtain ⟨front, m, hconcat⟩ := (List.eq_nil_or_concat names).resolve_left hnames
  rw [List.concat_eq_append] at hconcat
  subst hconcat
  rw [← List.append_assoc] at hsteps
  obtain ⟨hfront, hm⟩ := List.append_inj' hsteps rfl
  obtain rfl : n = m := List.singleton_inj.1 hm
  have hrelative := Disk.isAbsolute_join_steps hstep
  have hlast := Disk.getLast?_join_steps front hn
  have hresolve : Path.steps (l.resolve (Text.join ['/'] (front ++ [n]))) =
      (Path.steps l.root ++ front) ++ [n] := by
    rw [resolve, Path.steps_join_relative hrelative, Path.steps_join hstep, List.append_assoc]
  refine Disk.find_congr hn hresolve hpath ?_ hwants ?_ ?_
  · exact Disk.wantsDirectory_of_getLast? hn ((Disk.getLast?_join hrelative hne _).trans hlast)
  · have hundotted : Path.undotted front = front :=
      Path.undotted_of_isStep fun k hk => hstep k (List.mem_append_left _ hk)
    rw [Path.undotted_append, hundotted, hfront]
  · rw [resolve, Disk.isAbsolute_join hrelative, ← habs]

end Layout

end ActionBundles
