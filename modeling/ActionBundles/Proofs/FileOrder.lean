import ActionBundles.Proofs.Regions
import ActionBundles.Validation.Check

/-!
# The order of files

Files and directories that are found by going through directories come in the order of their steps
(`Path.Precedes`), whatever links stand on the way: the names in a directory increase, and what lies
below an entry goes on from the steps of the entry. So no path is found twice.
-/

namespace ActionBundles

/-! ### Steps of joined paths -/

namespace Path

/-- A path comes before another in the order of their steps. -/
def Precedes (a b : Text) : Prop := compare (steps a) (steps b) = .lt

theorem steps_join_relative {rel : Text} (h : isAbsolute rel = false) (dir : Text) :
    steps (join dir rel) = steps dir ++ steps rel := by
  rw [join, h, if_neg Bool.false_ne_true]
  split
  · next hend =>
    rcases List.eq_nil_or_concat dir with rfl | ⟨front, c, rfl⟩
    · rfl
    · rw [List.concat_eq_append] at hend ⊢
      obtain rfl : c = '/' := by simpa using hend
      rw [List.append_assoc, List.singleton_append, steps_append_slash, steps_append_slash]
      simp [steps]
  · rw [steps_append_slash]

theorem steps_join_isStep {n : Text} (h : isStep n = true) (dir : Text) :
    steps (join dir n) = steps dir ++ [n] := by
  rw [steps_join_relative (isAbsolute_of_isStep h), steps_of_isStep h]

theorem compare_append {α : Type} [Ord α] [Std.ReflOrd α] (p a b : List α) :
    compare (p ++ a) (p ++ b) = compare a b := by
  induction p with
  | nil => rfl
  | cons s p ih =>
    rw [List.cons_append, List.cons_append, List.compare_cons_cons, Std.ReflOrd.compare_self, ih]
    rfl

/-- What goes on from different names of one directory is in the order of the names. -/
theorem precedes_of_names {a b dir n m : Text} {more more' : List Text}
    (ha : steps a = steps dir ++ n :: more) (hb : steps b = steps dir ++ m :: more')
    (h : compare n m = .lt) : Precedes a b := by
  rw [Precedes, ha, hb, compare_append, List.compare_eq_compareLex, List.compareLex_cons_cons, h]
  rfl

end Path

/-! ### Names in a directory -/

namespace Tree

/-- The names in a directory increase. -/
theorem pairwise_names (t : Tree) (a : Address) :
    (t.names a).Pairwise fun n m => compare n m = .lt := by
  have hkeys : t.entries.keys.Pairwise fun k k' => compare k k' = .lt :=
    List.pairwise_map.2 t.entries.sorted
  refine List.Pairwise.filterMap _ (fun k k' hlt n hn m hm => ?_) hkeys
  cases k with
  | nil => cases hn
  | cons n' above =>
    cases k' with
    | nil => cases hm
    | cons m' above' =>
      simp only [Option.ite_none_right_eq_some, Option.some.injEq] at hn hm
      obtain ⟨rfl, rfl⟩ := hn
      obtain ⟨rfl, rfl⟩ := hm
      rw [List.compare_eq_compareLex, List.compareLex_cons_cons, ← List.compare_eq_compareLex,
        Std.ReflOrd.compare_self, Ordering.then_eq] at hlt
      exact hlt

end Tree

namespace Disk

variable {d : Disk}

/-- The names in the directory that a path leads to; there are none if it leads to no directory. -/
def namesAt (d : Disk) (dir : Text) : List Text := (d.names dir).toOption.getD []

theorem namesAt_cases (dir : Text) :
    d.namesAt dir = [] ∨ ∃ a, d.namesAt dir = d.tree.names a := by
  rw [namesAt, names]
  cases d.find dir with
  | error e => exact .inl rfl
  | ok found =>
    obtain ⟨a, node⟩ := found
    cases node with
    | directory => exact .inr ⟨a, rfl⟩
    | file content executable => exact .inl rfl
    | link target => exact .inl rfl

theorem isStep_of_mem_namesAt {dir n : Text} (h : n ∈ d.namesAt dir) : Path.isStep n = true := by
  rcases namesAt_cases (d := d) dir with hnil | ⟨a, hnames⟩
  · rw [hnil] at h
    cases h
  · rw [hnames] at h
    obtain ⟨node, hnode⟩ := Tree.mem_names.1 h
    exact isStep_of_isName (Tree.isName_of_get? hnode)

theorem pairwise_namesAt (dir : Text) : (d.namesAt dir).Pairwise fun n m => compare n m = .lt := by
  rcases namesAt_cases (d := d) dir with hnil | ⟨a, hnames⟩
  · rw [hnil]
    exact .nil
  · rw [hnames]
    exact d.tree.pairwise_names a

/-- Lists of paths that go on from the names of a directory, in the order of the names. -/
theorem pairwise_flatMap_namesAt {dir : Text} {f : Text → List Text}
    (hbelow : ∀ n ∈ d.namesAt dir, ∀ path ∈ f n,
      ∃ more, Path.steps path = Path.steps (Path.join dir n) ++ more)
    (hinner : ∀ n ∈ d.namesAt dir, (f n).Pairwise Path.Precedes) :
    ((d.namesAt dir).flatMap f).Pairwise Path.Precedes := by
  refine List.pairwise_flatMap.2 ⟨hinner, ?_⟩
  refine (pairwise_namesAt dir).imp_of_mem fun {n m} hn hm hlt path hpath path' hpath' => ?_
  obtain ⟨more, hsteps⟩ := hbelow n hn path hpath
  obtain ⟨more', hsteps'⟩ := hbelow m hm path' hpath'
  rw [Path.steps_join_isStep (isStep_of_mem_namesAt hn), List.append_assoc] at hsteps
  rw [Path.steps_join_isStep (isStep_of_mem_namesAt hm), List.append_assoc] at hsteps'
  exact Path.precedes_of_names hsteps hsteps' hlt

/-! ### Files below a directory -/

/-- What is found below a directory is in a directory below it, under a name. -/
theorem mem_filesWithin_steps {depth : Nat} {dir path : Text} (h : path ∈ d.filesWithin depth dir) :
    ∃ above n more, path = Path.join above n ∧ Path.isStep n = true ∧
      Path.steps path = Path.steps dir ++ more := by
  induction depth generalizing dir with
  | zero => cases h
  | succ depth ih =>
    obtain ⟨n, hn, h⟩ := List.mem_flatMap.1 h
    have hstep : Path.isStep n = true := isStep_of_mem_namesAt (show n ∈ d.namesAt dir from hn)
    have hsteps := Path.steps_join_isStep hstep dir
    simp only at h
    split at h
    · obtain ⟨above, m, more, hpath, hm, hmore⟩ := ih h
      exact ⟨above, m, n :: more, hpath, hm, by rw [hmore, hsteps]; simp⟩
    · split at h
      · obtain rfl := List.mem_singleton.1 h
        exact ⟨dir, n, [n], rfl, hstep, hsteps⟩
      · cases h

/-- Files are found in the order of their steps. -/
theorem pairwise_filesWithin (depth : Nat) (dir : Text) :
    (d.filesWithin depth dir).Pairwise Path.Precedes := by
  induction depth generalizing dir with
  | zero => exact .nil
  | succ depth ih =>
    refine pairwise_flatMap_namesAt (fun n _ path h => ?_) fun n _ => ?_
    · simp only at h
      split at h
      · obtain ⟨_, _, more, -, -, hmore⟩ := mem_filesWithin_steps h
        exact ⟨more, hmore⟩
      · split at h
        · obtain rfl := List.mem_singleton.1 h
          exact ⟨[], by simp⟩
        · cases h
    · simp only
      split
      · exact ih _
      · split
        · exact List.pairwise_singleton _ _
        · exact .nil

/-- The files below a directory are those within some depth. -/
theorem exists_filesWithin {root : Text} {files : List Text} (h : d.filesBelow root = .ok files) :
    ∃ depth, files = d.filesWithin depth root := by
  rw [filesBelow] at h
  split at h
  · cases hnames : d.names root with
    | error e =>
      rw [hnames] at h
      cases h
    | ok names =>
      rw [hnames] at h
      exact ⟨d.depthBound, (Except.ok.inj h).symm⟩
  · exact ⟨0, (Except.ok.inj h).symm⟩

/-! ### Directories in a directory -/

theorem mem_subdirectories {dir path : Text} (h : path ∈ d.subdirectories dir) :
    ∃ n, path = Path.join dir n ∧ Path.isStep n = true := by
  obtain ⟨n, hn, rfl⟩ := List.mem_map.1 (List.mem_filter.1 h).1
  exact ⟨n, rfl, isStep_of_mem_namesAt hn⟩

theorem pairwise_subdirectories_names (dir : Text) :
    (d.subdirectories dir).Pairwise fun a b => ∃ n m, Path.steps a = Path.steps dir ++ [n] ∧
      Path.steps b = Path.steps dir ++ [m] ∧ compare n m = .lt := by
  refine (List.pairwise_map.2 ?_).filter _
  refine (pairwise_namesAt dir).imp_of_mem fun {n m} hn hm hlt => ⟨n, m, ?_, ?_, hlt⟩
  · exact Path.steps_join_isStep (isStep_of_mem_namesAt hn) dir
  · exact Path.steps_join_isStep (isStep_of_mem_namesAt hm) dir

/-- The directories in a directory are found in the order of their steps. -/
theorem pairwise_subdirectories (dir : Text) :
    (d.subdirectories dir).Pairwise Path.Precedes :=
  (pairwise_subdirectories_names dir).imp fun ⟨_, _, ha, hb, hlt⟩ =>
    Path.precedes_of_names ha hb hlt

end Disk

/-! ### Models and bundles -/

variable (l : Layout) (d : Disk)

/-- Models are found among the files below the directory of the models. -/
theorem Layout.sublist_of_discover {models : List Text} (h : l.discover d = .ok models) :
    ∃ depth, models.Sublist (d.filesWithin depth l.modelsDir) := by
  rw [discover] at h
  split at h
  · next files hfiles =>
    obtain rfl := Except.ok.inj h
    obtain ⟨depth, rfl⟩ := Disk.exists_filesWithin hfiles
    exact ⟨depth, List.filter_sublist⟩
  · cases h

/-- Models are found in the order of their steps. -/
theorem Layout.pairwise_discover {models : List Text} (h : l.discover d = .ok models) :
    models.Pairwise Path.Precedes := by
  obtain ⟨depth, hsublist⟩ := l.sublist_of_discover d h
  exact (Disk.pairwise_filesWithin depth l.modelsDir).sublist hsublist

/-- Bundles are found in the order of their steps. -/
theorem Check.pairwise_bundleDirs : (bundleDirs l d).Pairwise Path.Precedes := by
  refine List.pairwise_flatMap.2 ⟨fun domain _ => Disk.pairwise_subdirectories domain, ?_⟩
  refine (Disk.pairwise_subdirectories_names l.actionsDir).imp ?_
  rintro domain domain' ⟨n, m, ha, hb, hlt⟩
  intro path hpath path' hpath'
  obtain ⟨slug, rfl, hslug⟩ := Disk.mem_subdirectories hpath
  obtain ⟨slug', rfl, hslug'⟩ := Disk.mem_subdirectories hpath'
  have hsteps : Path.steps (Path.join domain slug) = Path.steps l.actionsDir ++ n :: [slug] := by
    rw [Path.steps_join_isStep hslug, ha, List.append_assoc]
    rfl
  have hsteps' : Path.steps (Path.join domain' slug') =
      Path.steps l.actionsDir ++ m :: [slug'] := by
    rw [Path.steps_join_isStep hslug', hb, List.append_assoc]
    rfl
  exact Path.precedes_of_names hsteps hsteps' hlt

end ActionBundles
