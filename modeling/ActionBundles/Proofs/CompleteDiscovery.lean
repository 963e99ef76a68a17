import ActionBundles.Proofs.Steadiness
import ActionBundles.Proofs.Verdicts
import Mathlib.Tactic.Choose

/-!
# Everything that is there is found, in order

Discovery looks through the directory of the models and puts together what it finds in each entry.
`Layout.discover_exact` says what comes out at the end: the models that lie below the directory, at
any depth, each of them once, and in the order of their components.

That is not the order of the paths as texts, in which `a.fcm` is before `a/z.fcm`: in the order of
components what lies in one directory stays together (`isPrefix_of_between`).
-/

namespace ActionBundles

/-! ### The order of components -/

deriving instance Ord for Component

namespace Component

@[simp]
theorem compare_name (n m : Text) : compare (Component.name n) (.name m) = compare n m := by
  change (compare n m).then .eq = compare n m
  rw [Ordering.then_eq]

end Component

instance : Std.OrientedOrd Component where
  eq_swap {c c'} := by
    cases c <;> cases c'
    case name.name n m =>
      rw [Component.compare_name, Component.compare_name]
      exact Std.OrientedOrd.eq_swap
    all_goals rfl

instance : Std.LawfulEqOrd Component where
  eq_of_compare {c c'} h := by
    cases c <;> cases c'
    case name.name n m =>
      rw [Component.compare_name] at h
      rw [Std.LawfulEqOrd.eq_of_compare h]
    all_goals first | rfl | cases h

/-- What stands between two lists that start alike starts like them. -/
theorem isPrefix_of_between {α : Type} [Ord α] [Std.OrientedOrd α] [Std.LawfulEqOrd α]
    {start p q r : List α} (hpq : compare p q = .lt) (hqr : compare q r = .lt) (hp : start <+: p)
    (hr : start <+: r) : start <+: q := by
  induction start generalizing p q r with
  | nil => exact List.nil_prefix
  | cons s start ih =>
    obtain ⟨p, rfl⟩ := hp
    obtain ⟨r, rfl⟩ := hr
    cases q with
    | nil => cases hpq
    | cons c q =>
      rw [List.cons_append, List.compare_cons_cons] at hpq hqr
      -- the first element of the middle list is neither before nor after that of the outer ones
      have hsame : compare s c = .eq := by
        cases hsc : compare s c with
        | eq => rfl
        | lt =>
          rw [Std.OrientedOrd.eq_swap, hsc] at hqr
          cases hqr
        | gt =>
          rw [hsc] at hpq
          cases hpq
      obtain rfl := Std.LawfulEqOrd.eq_of_compare hsame
      rw [hsame] at hpq hqr
      exact (List.prefix_cons_inj s).2 (ih hpq hqr (List.prefix_append start p)
        (List.prefix_append start r))

namespace Path

variable {dir : Text} {b c : Address}

/-- A path comes before another in the order of their components. -/
def ComesBefore (p q : Text) : Prop := compare (components p) (components q) = .lt

theorem compare_map_name (names names' : List Text) :
    compare (names.map Component.name) (names'.map Component.name) = compare names names' := by
  induction names generalizing names' with
  | nil => cases names' <;> rfl
  | cons n names ih =>
    cases names' with
    | nil => rfl
    | cons m names' =>
      rw [List.map_cons, List.map_cons, List.compare_cons_cons, List.compare_cons_cons,
        Component.compare_name, ih]

/-- What goes on from one directory by names has its components and its steps in one order. -/
theorem comesBefore_down_iff (hdir : dir ≠ []) (hb : IsWay b) (hc : IsWay c) :
    ComesBefore (down dir b) (down dir c) ↔ Precedes (down dir b) (down dir c) := by
  rw [ComesBefore, Precedes, components_down hdir hb, components_down hdir hc, compare_append,
    compare_map_name, steps_down hb, steps_down hc, compare_append]

end Path

/-! ### What discovery finds -/

/-- In the directory at `x` a model lies at `b`, directly or deeper: a regular file with the
extension of models. -/
def Tree.HasModel (t : Tree) (x b : Address) : Prop :=
  ∃ n c content mode, b = n :: c ∧ Project.IsModelName n ∧
    t.get? (b ++ x) = some (.file content mode)

theorem Tree.HasModel.isWay {t : Tree} {x b : Address} (h : t.HasModel x b) : Path.IsWay b := by
  obtain ⟨n, c, content, mode, rfl, -, hfile⟩ := h
  exact fun k hk => isWay_of_get? hfile k (List.mem_append_left x hk)

namespace Layout

variable {l : Layout} {d : Disk} {x : Address}

/-- What is found is the models that lie in the directory, each once. -/
theorem exists_files (hdir : d.find l.modelsDir = .ok (x, .directory)) (hno : d.tree.NoLinksIn x) :
    ∃ files : List Address, l.discover d = .ok (files.map (Path.down l.modelsDir)) ∧
      files.Nodup ∧ ∀ b, b ∈ files ↔ d.tree.HasModel x b := by
  obtain ⟨models, hmodels, hmem⟩ := mem_discover_iff hdir hno
  have hpath (path : Text) : path ∈ models ↔
      ∃ b, d.tree.HasModel x b ∧ Path.down l.modelsDir b = path := by
    rw [hmem]
    constructor
    · rintro ⟨n, c, content, mode, rfl, hname, hfile⟩
      exact ⟨n :: c, ⟨n, c, content, mode, rfl, hname, hfile⟩, rfl⟩
    · rintro ⟨b, ⟨n, c, content, mode, rfl, hname, hfile⟩, rfl⟩
      exact ⟨n, c, content, mode, rfl, hname, hfile⟩
  -- each path that is found is the path of one file only
  choose! file hfile using fun path h => (hpath path).1 h
  have hmap : (models.map file).map (Path.down l.modelsDir) = models := by
    rw [List.map_map]
    exact (List.map_congr_left fun path h => (hfile path h).2).trans models.map_id
  refine ⟨models.map file, by rw [hmap, hmodels], ?_, fun b => ⟨fun hb => ?_, fun hb => ?_⟩⟩
  · refine List.Nodup.of_map (Path.down l.modelsDir) ?_
    rw [hmap]
    exact nodup_of_precedes (l.pairwise_discover d hmodels)
  · obtain ⟨path, h, rfl⟩ := List.mem_map.1 hb
    exact (hfile path h).1
  · have h := (hpath _).2 ⟨b, hb, rfl⟩
    obtain ⟨hfound, hdown⟩ := hfile _ h
    exact List.mem_map.2 ⟨_, h, (Path.down_inj hfound.isWay hb.isWay).1 hdown⟩

/-- What is found comes in the order of components. -/
theorem pairwise_comesBefore (hdir : d.find l.modelsDir = .ok (x, .directory))
    {files : List Address} (hfiles : ∀ b ∈ files, Path.IsWay b)
    (h : l.discover d = .ok (files.map (Path.down l.modelsDir))) :
    (files.map (Path.down l.modelsDir)).Pairwise Path.ComesBefore :=
  List.pairwise_map.2 <| (List.pairwise_map.1 (l.pairwise_discover d h)).imp_of_mem
    fun hb hc hprecedes => (Path.comesBefore_down_iff (Disk.ne_nil_of_find hdir)
      (hfiles _ hb) (hfiles _ hc)).2 hprecedes

theorem discover_of_not_isThere (h : d.isThere l.modelsDir = false) : l.discover d = .ok [] := by
  rw [discover, Disk.filesBelow, if_neg (Bool.eq_false_iff.1 h)]
  rfl

theorem discover_of_not_isDirectory (hthere : d.isThere l.modelsDir = true)
    (hdir : d.isDirectory l.modelsDir = false) :
    l.discover d = .error (.refused (.read l.modelsDir) .notDirectory) := by
  have hnames : d.names l.modelsDir = .error .notDirectory := by
    rw [Disk.isThere] at hthere
    rw [Disk.isDirectory] at hdir
    rw [Disk.names]
    split
    · next e hfind =>
      rw [hfind] at hthere
      cases hthere
    · next x hfind =>
      rw [hfind] at hdir
      cases hdir
    · rfl
  rw [discover, Disk.filesBelow, if_pos hthere, hnames]
  rfl

/-- **Discovery is complete and ordered.** If the directory of the models is there and no link lies
in it, what is found is the paths of the models in it, at any depth: of all of them and of nothing
else, of each once, strictly increasing in the order of components. So what lies below one path
stays together. Nothing is found if nothing is at the path of the directory; something else at it is
an error. -/
theorem discover_exact (l : Layout) (d : Disk) :
    (∀ x, d.find l.modelsDir = .ok (x, .directory) → d.tree.NoLinksIn x →
      ∃ (files : List Address) (models : List Text), l.discover d = .ok models ∧
        models = files.map (Path.down l.modelsDir) ∧ files.Nodup ∧
        (∀ b, b ∈ files ↔ d.tree.HasModel x b) ∧ models.Nodup ∧
        models.Pairwise Path.ComesBefore ∧
        ∀ dir p q r, [p, q, r].Sublist models →
          Path.components dir <+: Path.components p →
          Path.components dir <+: Path.components r →
          Path.components dir <+: Path.components q) ∧
    (d.isThere l.modelsDir = false → l.discover d = .ok []) ∧
    (d.isThere l.modelsDir = true → d.isDirectory l.modelsDir = false →
      l.discover d = .error (.refused (.read l.modelsDir) .notDirectory)) := by
  refine ⟨fun x hdir hno => ?_, discover_of_not_isThere, discover_of_not_isDirectory⟩
  obtain ⟨files, hmodels, hnodup, hmem⟩ := exists_files hdir hno
  have hordered := pairwise_comesBefore hdir (fun b hb => ((hmem b).1 hb).isWay) hmodels
  refine ⟨files, _, hmodels, rfl, hnodup, hmem,
    nodup_of_precedes (l.pairwise_discover d hmodels), hordered, ?_⟩
  intro dir p q r hsublist hp hr
  have hthree := hordered.sublist hsublist
  simp only [List.pairwise_cons, List.mem_cons, List.not_mem_nil, or_false, forall_eq_or_imp,
    forall_eq] at hthree
  exact isPrefix_of_between hthree.1.1 hthree.2.1 hp hr

/-- The project `/p` without a directory of models. -/
def sampleBare : Disk where
  tree := .ofEntries [("p", [], .directory)]

/-- The project `/p` with a directory `a` beside a model `a.fcm`. -/
def sampleSiblings : Disk where
  tree := .ofEntries
    [("p", [], .directory), ("axioms", ["p"], .directory), ("a", ["axioms", "p"], .directory),
      ("z.fcm", ["a", "axioms", "p"], .file [] false), ("a.fcm", ["axioms", "p"], .file [] false),
      ("x.txt", ["axioms", "p"], .file [] false)]

/-- The project `/p` with a file in the place of the directory of the models. -/
def sampleMisplaced : Disk where
  tree := .ofEntries [("p", [], .directory), ("axioms", ["p"], .file [0x78] false)]

theorem discover_exact_sampleSiblings :
    (sampleSiblings.find sampleLayout.modelsDir = .ok (["axioms", "p"], .directory) ∧
      sampleSiblings.tree.NoLinksIn ["axioms", "p"] ∧
      sampleLayout.discover sampleSiblings = .ok ["/p/axioms/a/z.fcm", "/p/axioms/a.fcm"] ∧
      Path.ComesBefore "/p/axioms/a/z.fcm" "/p/axioms/a.fcm") ∧
    (sampleBare.isThere sampleLayout.modelsDir = false ∧
      sampleLayout.discover sampleBare = .ok []) ∧
    (sampleMisplaced.isThere sampleLayout.modelsDir = true ∧
      sampleMisplaced.isDirectory sampleLayout.modelsDir = false ∧
      sampleLayout.discover sampleMisplaced =
        .error (.refused (.read "/p/axioms") .notDirectory)) := by
  have hdir : sampleSiblings.find sampleLayout.modelsDir = .ok (["axioms", "p"], .directory) := by
    rfl
  have hno : sampleSiblings.tree.NoLinksIn ["axioms", "p"] := fun b =>
    Tree.noLinks_ofEntries (by simp) _
  have hmodels : sampleLayout.discover sampleSiblings =
      .ok ["/p/axioms/a/z.fcm", "/p/axioms/a.fcm"] := by rfl
  obtain ⟨_, models, hfound, -, -, -, -, hordered, -⟩ :=
    (discover_exact sampleLayout sampleSiblings).1 _ hdir hno
  cases hmodels.symm.trans hfound
  have hmissing : sampleBare.isThere sampleLayout.modelsDir = false := by rfl
  have hthere : sampleMisplaced.isThere sampleLayout.modelsDir = true := by rfl
  have hfile : sampleMisplaced.isDirectory sampleLayout.modelsDir = false := by rfl
  exact ⟨⟨hdir, hno, hmodels, List.pairwise_pair.1 hordered⟩,
    ⟨hmissing, (discover_exact sampleLayout sampleBare).2.1 hmissing⟩,
    ⟨hthere, hfile, (discover_exact sampleLayout sampleMisplaced).2.2 hthere hfile⟩⟩

/-- A file in the place of the directory of the models is not taken for a missing directory. -/
theorem discover_sampleMisplaced_ne_ok :
    (∀ b target, sampleMisplaced.tree.get? b ≠ some (.link target)) ∧
      sampleMisplaced.isDirectory sampleLayout.modelsDir = false ∧
      ∀ models, sampleLayout.discover sampleMisplaced ≠ .ok models := by
  refine ⟨Tree.noLinks_ofEntries (by simp), by rfl, fun models h => ?_⟩
  rw [discover_of_not_isDirectory (by rfl) (by rfl)] at h
  cases h

end Layout

end ActionBundles
