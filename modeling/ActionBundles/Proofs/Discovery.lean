import ActionBundles.Proofs.BundleDepth
import ActionBundles.Proofs.Plans
import ActionBundles.Proofs.Reach

/-!
# What is found in a project

The directory of the models may be written with single dots, but in a project without links it is
one address all the same: `Path.Denotes`. Whatever path leads to a directory, if no link lies in it
the files that are found below are what the tree holds at addresses (`Disk.mem_filesWithin_iff`).
-/

namespace ActionBundles

open ActionBundles.Action

/-! ### Paths with dots -/

namespace Path

variable {path : Text} {x b : Address} {n : Text}

theorem undotted_cons (step : Text) (rest : List Text) :
    undotted (step :: rest) =
      if step = ['.'] then undotted rest else step :: undotted rest := by
  rw [undotted, List.filter_cons]
  by_cases h : step = ['.'] <;> simp [h, undotted]

theorem landing_undotted (dir : Address) (ms : List Text) :
    landing dir (undotted ms) = landing dir ms := by
  induction ms generalizing dir with
  | nil => rfl
  | cons m ms ih =>
    rw [undotted_cons, landing]
    split
    · exact ih dir
    · next hdot => rw [landing, if_neg hdot, ih, ih]

theorem staysBelow_undotted (depth : Nat) (ms : List Text) :
    staysBelow depth (undotted ms) = staysBelow depth ms := by
  induction ms generalizing depth with
  | nil => rfl
  | cons m ms ih =>
    rw [undotted_cons, staysBelow]
    split
    · exact ih depth
    · next hdot => rw [staysBelow, if_neg hdot, ih, ih]

/-- An absolute path that leads to the address `x` where no link is on the way: single dots may
stand between the names. -/
structure Denotes (path : Text) (x : Address) : Prop where
  absolute : isAbsolute path = true
  names : undotted (steps path) = x.reverse
  isWay : IsWay x

theorem denotes_ofAddress (h : IsWay x) : Denotes (ofAddress x) x where
  absolute := isAbsolute_ofAddress x
  names := by
    rw [steps_ofAddress h]
    exact undotted_of_isStep fun n hn => h n (List.mem_reverse.1 hn)
  isWay := h

/-- The path that goes on from a directory by the names of an address. -/
def down (dir : Text) (b : Address) : Text := b.foldr (fun n path => join path n) dir

theorem down_cons (dir : Text) (n : Text) (b : Address) :
    down dir (n :: b) = join (down dir b) n := rfl

theorem down_concat (dir : Text) (b : Address) (n : Text) :
    down dir (b ++ [n]) = down (join dir n) b := by
  rw [down, List.foldr_append]
  rfl

theorem down_ofAddress (hx : IsWay x) (hb : IsWay b) :
    down (ofAddress x) b = ofAddress (b ++ x) := by
  induction b with
  | nil => rfl
  | cons n b ih =>
    rw [down_cons, ih hb.tail, join_ofAddress (hb.tail.append hx) (hb n List.mem_cons_self)]
    rfl

theorem steps_down (hb : IsWay b) (dir : Text) : steps (down dir b) = steps dir ++ b.reverse := by
  induction b with
  | nil => exact (List.append_nil _).symm
  | cons n b ih =>
    rw [down_cons, steps_join_isStep (hb n List.mem_cons_self), ih hb.tail, List.append_assoc,
      List.reverse_cons]

/-- Names go on from a directory in one way only. -/
theorem down_inj {dir : Text} {c : Address} (hb : IsWay b) (hc : IsWay c) :
    down dir b = down dir c ↔ b = c := by
  refine ⟨fun h => ?_, congrArg _⟩
  have hsteps := congrArg steps h
  rwa [steps_down hb, steps_down hc, List.append_cancel_left_eq, List.reverse_inj] at hsteps

theorem components_down {dir : Text} (hdir : dir ≠ []) (hb : IsWay b) :
    components (down dir b) = components dir ++ b.reverse.map .name := by
  induction b with
  | nil => exact (List.append_nil _).symm
  | cons n b ih =>
    have hne : down dir b ≠ [] := by
      cases b with
      | nil => exact hdir
      | cons m b => exact join_ne_nil (hb.tail m List.mem_cons_self) _
    rw [down_cons, components_join hne (hb n List.mem_cons_self), ih hb.tail, List.append_assoc,
      List.reverse_cons, List.map_append]
    rfl

theorem extension?_down {dir : Text} (hdir : dir ≠ []) (h : IsWay (n :: b)) :
    extension? (down dir (n :: b)) = (cutName n).2 := by
  rw [extension?, fileName?, components_down hdir h, List.reverse_cons, List.map_append,
    ← List.append_assoc, List.map_singleton, List.getLast?_concat]
  rfl

namespace Denotes

variable (h : Denotes path x)

include h

theorem join (hn : isStep n = true) : Denotes (join path n) (n :: x) where
  absolute := by
    rw [Disk.isAbsolute_join (isAbsolute_of_isStep hn)]
    exact h.absolute
  names := by
    rw [steps_join_isStep hn, undotted_append, h.names, undotted_of_isStep (by simpa using hn),
      List.reverse_cons]
  isWay := h.isWay.cons hn

theorem down (hb : IsWay b) : Denotes (down path b) (b ++ x) := by
  induction b with
  | nil => exact h
  | cons n b ih => exact (ih hb.tail).join (hb n List.mem_cons_self)

theorem components_eq : components path = components (ofAddress x) := by
  have hofAddress := denotes_ofAddress h.isWay
  rw [components_of_isAbsolute h.absolute, components_of_isAbsolute hofAddress.absolute, h.names,
    hofAddress.names]

/-- What such a path is called from a directory on its way. -/
theorem relative {l : Layout} {a : Address} (hl : l.root = ofAddress a) (hx : x = b ++ a) :
    l.relative path = .ok (ofRelative b) := by
  subst hx
  have ha : IsWay a := h.isWay.of_suffix (List.suffix_append b a)
  have hb : IsWay b := fun n hn => h.isWay n (List.mem_append_left a hn)
  refine Layout.relative_of_components ?_
  rw [h.components_eq, hl, components_ofAddress h.isWay, components_ofAddress ha,
    List.reverse_append, List.map_append]
  rfl

theorem landsAt {a : Address} (hx : a <:+ x) (ha : ∃ ms, steps path = a.reverse ++ ms) :
    LandsAt a path x := by
  obtain ⟨b, rfl⟩ := hx
  obtain ⟨ms, hms⟩ := ha
  have hb : IsWay b := fun n hn => h.isWay n (List.mem_append_left a hn)
  have hstep : ∀ m ∈ a.reverse, isStep m = true := fun m hm =>
    h.isWay m (List.mem_append_right b (List.mem_reverse.1 hm))
  have hnames : undotted ms = b.reverse := by
    have hall := h.names
    rwa [hms, undotted_append, undotted_of_isStep hstep, List.reverse_append,
      List.append_cancel_left_eq] at hall
  refine ⟨h.absolute, ms, hms, ?_, ?_⟩
  · rw [← staysBelow_undotted, hnames]
    exact staysBelow_of_isStep (fun m hm => hb m (List.mem_reverse.1 hm)) 0
  · rw [← landing_undotted, hnames, landing_reverse hb, List.append_nil]

end Denotes

end Path

namespace Tree

variable {t t' : Tree} {follow : Bool} {x : Address}

/-- Names with dots between them lead to the directory of the names. -/
theorem leg_of_undotted {ms : List Text} {r b : Address} (hms : Path.undotted ms = b.reverse)
    (hget : t.get? (b ++ r) = some .directory) :
    t.leg follow r ms = .ok (.end_ (.entry (b ++ r) .directory)) := by
  induction ms generalizing r b with
  | nil =>
    obtain rfl : b = [] := List.reverse_eq_nil_iff.1 hms.symm
    rfl
  | cons m ms ih =>
    rw [Path.undotted_cons] at hms
    split at hms
    · next hdot =>
      rw [leg, if_pos hdot]
      exact ih hms hget
    · obtain ⟨b, rfl⟩ : ∃ c, b = c ++ [m] :=
        ⟨(Path.undotted ms).reverse, List.reverse_injective (by simpa using hms.symm)⟩
      rw [List.append_assoc, List.singleton_append] at hget ⊢
      rw [leg_cons (isDown_of_isName (isName_of_mem hget m (by simp))), directory_of_suffix hget (List.suffix_append b _)]
      exact ih (by simpa using hms) hget

/-- A way that leads to a directory can be gone on with, if no more links are met. -/
theorem walk_append {budget : Nat} {dir : Address} {ms rest : List Text} {spot : Spot}
    (h : t.walk true budget dir ms = .ok (.entry x .directory)) (hrest : rest ≠ [])
    (hend : t.leg true x rest = .ok (.end_ spot)) :
    t.walk true budget dir (ms ++ rest) = .ok spot := by
  have happend {dir : Address} {ms : List Text} :
      t.leg true dir (ms ++ rest) = _ := leg_append ms hrest
  rw [walk_eq_ok_iff] at h ⊢
  generalize hx : Spot.entry x .directory = before at h
  induction h with
  | end_ hleg =>
    subst hx
    refine .end_ ?_
    rw [happend, hleg]
    exact hend
  | link hleg htarget _ ih =>
    refine .link ?_ htarget (List.append_assoc .. ▸ ih hx)
    rw [happend, hleg]
    rfl

/-- Steps that end at no file and at no vacant place are the same in a tree with the same directories
and links. -/
theorem leg_of_kept {dir : Address} {steps : List Text} {first : Leg}
    (hkept : ∀ y node, t.get? y = some node → (∀ content mode, node ≠ .file content mode) →
      t'.get? y = some node)
    (hfirst : ∀ spot, first = .end_ spot → ∃ y, spot = .entry y .directory)
    (h : t.leg follow dir steps = .ok first) : t'.leg follow dir steps = .ok first := by
  rw [leg_eq_ok_iff] at h ⊢
  induction h with
  | nil dir => exact .nil dir
  | dot _ ih => exact .dot (ih hfirst)
  | up _ ih => exact .up (ih hfirst)
  | down hn hnode _ ih => exact .down hn (hkept _ _ hnode (by simp)) (ih hfirst)
  | vacant | file | unfollowed =>
    obtain ⟨y, hy⟩ := hfirst _ rfl
    cases hy
  | link hn hmore hnode => exact .link hn hmore (hkept _ _ hnode (by simp))

/-- A way that ends in a directory is the same in a tree with the same directories and links. -/
theorem walk_of_kept {budget : Nat} {dir : Address} {steps : List Text}
    (hkept : ∀ y node, t.get? y = some node → (∀ content mode, node ≠ .file content mode) →
      t'.get? y = some node)
    (h : t.walk follow budget dir steps = .ok (.entry x .directory)) :
    t'.walk follow budget dir steps = .ok (.entry x .directory) := by
  rw [walk_eq_ok_iff] at h ⊢
  generalize hx : Spot.entry x .directory = spot at h ⊢
  induction h with
  | end_ hleg =>
    exact .end_ (leg_of_kept hkept (fun _ hspot => ⟨x, (Leg.end_.inj hspot).symm.trans hx.symm⟩) hleg)
  | link hleg htarget _ ih =>
    exact .link (leg_of_kept hkept (fun _ hspot => by cases hspot) hleg) htarget (ih hx)

end Tree

namespace Disk

variable {d : Disk} {path dir dir' : Text} {x b : Address} {n : Text}

/-- A path that denotes a directory leads to it. -/
theorem find_of_denotes (h : Path.Denotes path x) (hget : d.tree.get? x = some .directory) :
    d.find path = .ok (x, .directory) := by
  have hnul : '\x00' ∉ path := fun hmem => by
    obtain ⟨s, hs, hc⟩ := (nul_mem_iff path).1 hmem
    rw [h.names] at hs
    exact nul_not_mem_of_get? hget s (List.mem_reverse.1 hs) hc
  have hne : path ≠ [] := fun he => by
    subst he
    cases h.absolute
  have hsteps : Path.undotted (Tree.stepsOf path) = x.reverse := by
    rw [Tree.stepsOf]
    split
    · rw [Path.undotted_append, h.names]
      exact List.append_nil _
    · exact h.names
  have hleg : d.tree.leg true [] (Tree.stepsOf path) = .ok (.end_ (.entry x .directory)) := by
    simpa using Tree.leg_of_undotted (r := []) hsteps (by simpa using hget)
  have hwalk : d.tree.walk true maxLinks [] (Tree.stepsOf path) = _ := Tree.walk_of_end hleg
  rw [find, follow, if_neg hne, if_neg hnul, Tree.startOf, if_pos h.absolute, hwalk]

/-- A path that leads to a directory leads there on a disk with the same directories and links. -/
theorem find_of_kept {d' : Disk} (hdir : d'.workingDirectory = d.workingDirectory)
    (hkept : ∀ y node, d.tree.get? y = some node → (∀ content mode, node ≠ .file content mode) →
      d'.tree.get? y = some node)
    (h : d.find path = .ok (x, .directory)) : d'.find path = .ok (x, .directory) := by
  obtain ⟨hnul, hwalk⟩ := walk_of_find h
  have hnil : path ≠ [] := fun he => by
    rw [find, follow, if_pos he] at h
    cases h
  rw [find, follow, if_neg hnil, if_neg hnul, hdir, Tree.walk_of_kept hkept hwalk]

/-- A name in a denoted directory leads to where it leads from the address. -/
theorem find_join_denotes (h : Path.Denotes dir x) (hn : Path.isStep n = true) :
    d.find (Path.join dir n) = d.find (Path.ofAddress (n :: x)) := by
  have hofAddress : Path.steps (Path.ofAddress (n :: x)) = x.reverse ++ [n] := by
    rw [Path.steps_ofAddress (h.isWay.cons hn), List.reverse_cons]
  refine find_congr hn (Path.steps_join_isStep hn dir) hofAddress (wantsDirectory_join hn dir)
    (Path.wantsDirectory_ofAddress (h.isWay.cons hn)) ?_ (h.join hn).absolute
  rw [h.names]
  exact (Path.undotted_of_isStep fun m hm => h.isWay m (List.mem_reverse.1 hm)).symm

/-! ### Files below a directory -/

theorem ne_nil_of_find {found : Address × Node} (h : d.find path = .ok found) : path ≠ [] :=
  fun he => by
    rw [find, follow, if_pos he] at h
    cases h

/-- A name in a directory leads to what has the name there, unless it is a link. -/
theorem find_join_of_directory {node : Node} (hdir : d.find dir = .ok (x, .directory))
    (hnode : d.tree.get? (n :: x) = some node) (hlink : ∀ target, node ≠ .link target) :
    d.find (Path.join dir n) = .ok (n :: x, node) := by
  have hn : Path.isStep n = true := isStep_of_isName (Tree.isName_of_get? hnode)
  have hrelative := Path.isAbsolute_of_isStep hn
  obtain ⟨hnul, hwalk⟩ := walk_of_find hdir
  have hname : d.tree.get? ([n].reverse ++ x) = some node := hnode
  have hend : d.tree.leg true x [n] = .ok (.end_ (.entry (n :: x) node)) :=
    Tree.leg_of_get? (Tree.get?_dir hnode) hname fun _ => hlink
  -- a slash at the end of the directory's path asks for one step more, which changes nothing
  have hsteps : d.tree.walk true maxLinks (Tree.startOf dir d.workingDirectory)
      (Path.steps dir ++ [n]) = .ok (.entry (n :: x) node) := by
    have hmore := Tree.walk_append hwalk (List.cons_ne_nil n []) hend
    have hdot : n ≠ ['.'] := (Path.isStep_iff.1 hn).2.1
    rw [Tree.walk_undotted hdot] at hmore ⊢
    rw [Tree.stepsOf] at hmore
    split at hmore
    · rwa [Path.undotted_append, show Path.undotted [['.']] = [] from rfl, List.append_nil] at hmore
    · exact hmore
  have hjoinNul : '\x00' ∉ Path.join dir n := fun hmem => by
    have hnulName := nul_not_mem_of_get? hnode n List.mem_cons_self
    rw [Path.join, hrelative, if_neg Bool.false_ne_true] at hmem
    split at hmem
    · exact (List.mem_append.1 hmem).elim hnul hnulName
    · exact (List.mem_append.1 hmem).elim hnul fun hmem =>
        hnulName ((List.mem_cons.1 hmem).resolve_left (by decide))
  rw [find, follow, if_neg (Path.join_ne_nil hn dir), if_neg hjoinNul, Tree.stepsOf,
    wantsDirectory_join hn, if_neg Bool.false_ne_true, Path.steps_join_isStep hn, Tree.startOf,
    isAbsolute_join hrelative, ← Tree.startOf, hsteps]

/-- What is found within a directory is found within the directories in it, or is a file in it. -/
theorem mem_filesWithin_succ {depth : Nat} (hdir : d.find dir = .ok (x, .directory))
    (hno : d.tree.NoLinksIn x) : path ∈ d.filesWithin (depth + 1) dir ↔
      (∃ n, d.tree.get? (n :: x) = some .directory ∧
        path ∈ d.filesWithin depth (Path.join dir n)) ∨
      ∃ n content mode, d.tree.get? (n :: x) = some (.file content mode) ∧
        path = Path.join dir n := by
  have hnames : (d.names dir).toOption.getD [] = d.tree.names x := by
    rw [names, hdir]
    rfl
  have hfind {n : Text} {node : Node} (h : d.tree.get? (n :: x) = some node) :
      d.find (Path.join dir n) = .ok (n :: x, node) :=
    find_join_of_directory hdir h fun target he => hno [n] target (h.trans (congrArg some he))
  have hdirectory {n : Text} (h : d.tree.get? (n :: x) = some .directory) :
      d.isDirectory (Path.join dir n) = true := by rw [isDirectory, hfind h]
  have hfile {n : Text} {content : Bytes} {mode : Bool}
      (h : d.tree.get? (n :: x) = some (.file content mode)) :
      d.isDirectory (Path.join dir n) = false ∧ d.isFile (Path.join dir n) = true := by
    rw [isDirectory, isFile, hfind h]
    exact ⟨rfl, rfl⟩
  rw [filesWithin, hnames, List.mem_flatMap]
  constructor
  · rintro ⟨n, hn, hpath⟩
    obtain ⟨node, hnode⟩ := Tree.mem_names.1 hn
    cases node with
    | directory =>
      rw [if_pos (hdirectory hnode)] at hpath
      exact .inl ⟨n, hnode, hpath⟩
    | file content mode =>
      obtain ⟨hnot, his⟩ := hfile hnode
      simp only [hnot, his, Bool.false_eq_true, ↓reduceIte, List.mem_singleton] at hpath
      exact .inr ⟨n, content, mode, hnode, hpath⟩
    | link target => exact absurd hnode (hno [n] target)
  · rintro (⟨n, hnode, hpath⟩ | ⟨n, content, mode, hnode, rfl⟩)
    · refine ⟨n, Tree.mem_names.2 ⟨_, hnode⟩, ?_⟩
      rwa [if_pos (hdirectory hnode)]
    · obtain ⟨hnot, his⟩ := hfile hnode
      refine ⟨n, Tree.mem_names.2 ⟨_, hnode⟩, ?_⟩
      simp only [hnot, his, Bool.false_eq_true, ↓reduceIte, List.mem_singleton]

/-- The files found within a directory without links are those that lie in it, no deeper than is
looked. -/
theorem mem_filesWithin_iff {depth : Nat} (hdir : d.find dir = .ok (x, .directory))
    (hno : d.tree.NoLinksIn x) : path ∈ d.filesWithin depth dir ↔ ∃ b content mode, b ≠ [] ∧
      b.length ≤ depth ∧ path = Path.down dir b ∧
        d.tree.get? (b ++ x) = some (.file content mode) := by
  induction depth generalizing dir x with
  | zero =>
    refine ⟨fun h => (List.not_mem_nil h).elim, ?_⟩
    rintro ⟨b, -, -, hne, hlength, -⟩
    exact absurd (List.length_eq_zero_iff.1 (Nat.le_zero.1 hlength)) hne
  | succ depth ih =>
    have hbelow {n : Text} (hn : d.tree.get? (n :: x) = some .directory) :
        path ∈ d.filesWithin depth (Path.join dir n) ↔ ∃ b content mode, b ≠ [] ∧
          b.length ≤ depth ∧ path = Path.down dir (b ++ [n]) ∧
            d.tree.get? ((b ++ [n]) ++ x) = some (.file content mode) := by
      simp only [Path.down_concat, List.append_assoc, List.singleton_append]
      exact ih (find_join_of_directory hdir hn (by simp)) (hno.below (List.suffix_cons n x))
    rw [mem_filesWithin_succ hdir hno]
    constructor
    · rintro (⟨n, hn, hpath⟩ | ⟨n, content, mode, hfile, rfl⟩)
      · obtain ⟨b, content, mode, -, hlength, hpath, hfile⟩ := (hbelow hn).1 hpath
        exact ⟨b ++ [n], content, mode, by simp, by simpa using hlength, hpath, hfile⟩
      · exact ⟨[n], content, mode, by simp, by simp, rfl, hfile⟩
    · rintro ⟨b, content, mode, hne, hlength, hpath, hfile⟩
      obtain ⟨b, n, rfl⟩ := (List.eq_nil_or_concat b).resolve_left hne
      rw [List.concat_eq_append] at hlength hpath hfile
      by_cases hb : b = []
      · subst hb
        exact .inr ⟨n, content, mode, hfile, hpath⟩
      · have hn : d.tree.get? (n :: x) = some .directory := by
          rw [List.append_assoc, List.singleton_append] at hfile
          exact Tree.get?_of_append hfile hb
        refine .inl ⟨n, hn, (hbelow hn).2 ⟨b, content, mode, hb, ?_, hpath, hfile⟩⟩
        simpa using hlength

/-- Nothing lies deeper than is looked. -/
theorem length_le_depthBound {node : Node} (h : d.tree.get? (b ++ x) = some node) :
    b.length ≤ d.depthBound := by
  have hsize := Tree.length_le_size h
  rw [List.length_append] at hsize
  rw [depthBound]
  calc b.length ≤ d.tree.size + 1 := by omega
    _ ≤ (maxLinks + 1) * (d.tree.size + 1) := Nat.le_mul_of_pos_left _ (by decide)

/-- **The files below a directory without links.** -/
theorem mem_filesWithin_depthBound (hdir : d.find dir = .ok (x, .directory))
    (hno : d.tree.NoLinksIn x) :
    path ∈ d.filesWithin d.depthBound dir ↔ ∃ b content mode, b ≠ [] ∧ path = Path.down dir b ∧
      d.tree.get? (b ++ x) = some (.file content mode) := by
  rw [mem_filesWithin_iff hdir hno]
  constructor
  · rintro ⟨b, content, mode, hne, -, hpath, hfile⟩
    exact ⟨b, content, mode, hne, hpath, hfile⟩
  · rintro ⟨b, content, mode, hne, hpath, hfile⟩
    exact ⟨b, content, mode, hne, length_le_depthBound hfile, hpath, hfile⟩

end Disk

end ActionBundles
