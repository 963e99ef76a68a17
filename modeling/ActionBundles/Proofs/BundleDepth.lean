import ActionBundles.Proofs.BundlePlaces
import ActionBundles.Proofs.FileOrder
import ActionBundles.Proofs.Following
import ActionBundles.Proofs.SamePlace
import ActionBundles.Validation.Check

/-!
# Where bundles are looked for

The checks look for bundles two levels below the directory of the actions, wherever links lead
(`Check.bundleDirs`). The domain and the slug of an action are names of directories, except that the
configuration may give a single or a double dot as the default domain, which no check refuses.
`Layout.artifact_found_iff` says that a bundle that is there is found exactly if its domain is no such
dot.
-/

namespace ActionBundles

/-! ### Names in directories -/

namespace Tree

variable {t : Tree} {n : Text}

/-- What a way to something under a name goes through: the way to its directory leads there, also if
a directory is asked for, and something has the name in it. -/
theorem exists_above_of_walk {budget : Nat} {dir x : Address} {ms : List Text} {node : Node}
    (hn : Path.isStep n = true) (h : t.walk true budget dir (ms ++ [n]) = .ok (.entry x node)) :
    ∃ above, t.walk true budget dir ms = .ok (.entry above .directory) ∧
      t.walk true budget dir (ms ++ [['.']]) = .ok (.entry above .directory) ∧
      ∃ entry, t.get? (n :: above) = some entry := by
  obtain ⟨above, left, habove, hothers⟩ := exists_walk_append (List.cons_ne_nil n []) h
  have hdot : t.leg true above [['.']] = .ok (.end_ (.entry above .directory)) := rfl
  refine ⟨above, habove, (hothers [['.']] (by simp)).trans (walk_of_end hdot), ?_⟩
  rw [hothers [n] (List.cons_ne_nil n [])] at h
  cases hentry : t.get? (n :: above) with
  | some entry => exact ⟨entry, rfl⟩
  | none =>
    by_cases hlen : maxNameLength < n.byteLength
    · rw [walk_of_error (leg_cons_of_lt hn hlen)] at h
      cases h
    · have hlast : t.leg true above [n] = _ := leg_cons (isDown_of_isStep hn (Nat.not_lt.1 hlen))
      rw [hentry] at hlast
      rw [walk_of_end hlast] at h
      cases h

end Tree

namespace Disk

variable {d : Disk} {dir n : Text}

/-- What a path leads to, once it may be followed. -/
theorem walk_of_find {path : Text} {x : Address} {node : Node} (h : d.find path = .ok (x, node)) :
    '\x00' ∉ path ∧ d.tree.walk true maxLinks (Tree.startOf path d.workingDirectory)
      (Tree.stepsOf path) = .ok (.entry x node) := by
  rw [find, follow] at h
  by_cases hnil : path = []
  · rw [if_pos hnil] at h
    cases h
  by_cases hnul : '\x00' ∈ path
  · rw [if_neg hnil, if_pos hnul] at h
    cases h
  rw [if_neg hnil, if_neg hnul] at h
  refine ⟨hnul, ?_⟩
  cases hwalk : d.tree.walk true maxLinks (Tree.startOf path d.workingDirectory)
      (Tree.stepsOf path) with
  | error e =>
    rw [hwalk] at h
    cases h
  | ok spot =>
    rw [hwalk] at h
    cases spot with
    | vacant above n => cases h
    | entry a found =>
      cases h
      rfl

/-- What is found under a name in a directory is in what the path of the directory leads to. -/
theorem exists_directory_of_find_join {x : Address} {node : Node} (hn : Path.isStep n = true)
    (hdir : dir ≠ []) (h : d.find (Path.join dir n) = .ok (x, node)) :
    ∃ a, d.find dir = .ok (a, .directory) ∧ n ∈ d.tree.names a := by
  have hrelative := Path.isAbsolute_of_isStep hn
  obtain ⟨hnul, hwalk⟩ := walk_of_find h
  have hdirNul : '\x00' ∉ dir := fun hmem => hnul <| by
    rw [Path.join, hrelative, if_neg Bool.false_ne_true]
    split <;> exact List.mem_append_left _ hmem
  have hsteps : Tree.stepsOf (Path.join dir n) = Path.steps dir ++ [n] := by
    rw [Tree.stepsOf, wantsDirectory_join hn, Path.steps_join_isStep hn]
    rfl
  rw [hsteps, Tree.startOf, isAbsolute_join hrelative, ← Tree.startOf] at hwalk
  obtain ⟨a, ha, hdot, hentry⟩ := Tree.exists_above_of_walk hn hwalk
  refine ⟨a, ?_, Tree.mem_names.2 hentry⟩
  have hend : d.tree.walk true maxLinks (Tree.startOf dir d.workingDirectory) (Tree.stepsOf dir) =
      .ok (.entry a .directory) := by
    rw [Tree.stepsOf]
    split
    · exact hdot
    · exact ha
  rw [find, follow, if_neg hdir, if_neg hdirNul, hend]

/-- A directory under a name is a directory in a directory. -/
theorem join_mem_subdirectories (hn : Path.isStep n = true) (hdir : dir ≠ [])
    (h : d.isDirectory (Path.join dir n) = true) :
    d.isDirectory dir = true ∧ Path.join dir n ∈ d.subdirectories dir := by
  obtain ⟨x, hx⟩ : ∃ x, d.find (Path.join dir n) = .ok (x, .directory) := by
    rw [isDirectory] at h
    split at h
    · next x hx => exact ⟨x, hx⟩
    · cases h
  obtain ⟨a, ha, hnames⟩ := exists_directory_of_find_join hn hdir hx
  have hlist : d.names dir = .ok (d.tree.names a) := by rw [names, ha]
  refine ⟨by rw [isDirectory, ha], List.mem_filter.2 ⟨?_, h⟩⟩
  rw [hlist]
  exact List.mem_map_of_mem hnames

end Disk

/-! ### Components -/

namespace Path

/-- Only a name of a directory is a name within a path. -/
theorem ofPiece?_eq_name_iff {piece n : Text} (hslash : '/' ∉ piece) :
    ofPiece? piece = some (.name n) ↔ isStep piece = true ∧ n = piece := by
  constructor
  · intro h
    rw [ofPiece?] at h
    split at h
    · cases h
    next hne =>
    split at h
    · cases h
    next hdot =>
    split at h
    · cases h
    · next hdots =>
      cases h
      exact ⟨isStep_iff.2 ⟨hne, hdot, hdots, hslash⟩, rfl⟩
  · rintro ⟨h, rfl⟩
    exact ofPiece?_of_isStep h

theorem components_append_slash {p : Text} (hp : p ≠ []) (q : Text) :
    components (p ++ '/' :: q) = components p ++ (q.splitOn '/').filterMap ofPiece? := by
  obtain ⟨c, rest, rfl⟩ := List.exists_cons_of_ne_nil hp
  obtain ⟨piece, pieces, hpieces⟩ := List.exists_cons_of_ne_nil
    (List.splitOn_ne_nil '/' (c :: rest))
  have habs : isAbsolute (c :: rest ++ '/' :: q) = isAbsolute (c :: rest) := rfl
  rw [components, components, List.splitOn_append_cons_self, habs, hpieces,
    List.filterMap_append]
  cases isAbsolute (c :: rest)
  · by_cases hdot : piece = ['.'] <;> simp [hdot]
  · rfl

theorem components_append_slashes {p : Text} (hp : p ≠ []) (k : Nat) :
    components (p ++ List.replicate k '/') = components p := by
  induction k with
  | zero => rw [List.replicate_zero, List.append_nil]
  | succ k ih =>
    rw [List.replicate_succ', ← List.append_assoc,
      components_append_slash (List.append_ne_nil_of_left_ne_nil hp _), ih]
    exact List.append_nil _

theorem join_ne_nil {n : Text} (hn : isStep n = true) (dir : Text) : join dir n ≠ [] := fun he => by
  have hsteps := steps_join_isStep hn dir
  rw [he] at hsteps
  exact List.cons_ne_nil _ _ (List.append_eq_nil_iff.1 hsteps.symm).2

/-- A relative path goes on with the components of its pieces. -/
theorem components_join_relative {dir rel : Text} (hdir : dir ≠ []) (hrel : isAbsolute rel = false) :
    components (join dir rel) = components dir ++ (rel.splitOn '/').filterMap ofPiece? := by
  rw [join, hrel, if_neg Bool.false_ne_true]
  split
  · next hend =>
    rcases List.eq_nil_or_concat dir with rfl | ⟨front, c, rfl⟩
    · exact absurd rfl hdir
    rw [List.concat_eq_append] at hend ⊢
    obtain rfl : c = '/' := by simpa using hend
    rw [List.append_assoc, List.singleton_append]
    by_cases hfront : front = []
    · subst hfront
      show Component.root :: (('/' :: rel).splitOn '/').filterMap ofPiece? =
        Component.root :: (rel.splitOn '/').filterMap ofPiece?
      rw [← List.nil_append ('/' :: rel), List.splitOn_append_cons_self, List.filterMap_append]
      rfl
    · rw [components_append_slash hfront, components_append_slash hfront]
      simp [ofPiece?]
  · rw [components_append_slash hdir]

/-- A name joined to a path is its last component. -/
theorem components_join {dir n : Text} (hdir : dir ≠ []) (hn : isStep n = true) :
    components (join dir n) = components dir ++ [.name n] := by
  rw [components_join_relative hdir (isAbsolute_of_isStep hn),
    List.splitOn_eq_singleton (isStep_iff.1 hn).2.2.2, List.filterMap_cons, ofPiece?_of_isStep hn]
  rfl

end Path

namespace Layout

variable {l : Layout} {domain slug : Text} {d : Disk}

theorem actionsDir_ne_nil (h : Config.isInside l.actions = true) : l.actionsDir ≠ [] := by
  obtain ⟨hne, -⟩ := Config.trimSlashes_ne_nil h
  obtain ⟨-, habs, -⟩ := Config.isInside_iff.1 h
  obtain ⟨k, hk⟩ := Config.exists_trimSlashes l.actions
  have hactions : l.actions ≠ [] := fun he => hne (List.append_eq_nil_iff.1 (hk.symm.trans he)).1
  rw [actionsDir, resolve, Path.join, habs, if_neg Bool.false_ne_true]
  split
  · exact List.append_ne_nil_of_right_ne_nil _ hactions
  · exact List.append_ne_nil_of_right_ne_nil _ (List.cons_ne_nil _ _)

/-- The path of a bundle goes on from a path that has the components of the actions' directory. -/
theorem exists_resolve_artifact (h : Config.isInside l.actions = true) (domain slug : Text) :
    ∃ base, base ≠ [] ∧ Path.components base = Path.components l.actionsDir ∧
      l.resolve (l.artifact domain slug) = base ++ '/' :: (domain ++ '/' :: slug) := by
  obtain ⟨hne, -⟩ := Config.trimSlashes_ne_nil h
  obtain ⟨k, hk⟩ := Config.exists_trimSlashes l.actions
  have hactions : l.actionsDir =
      Path.join l.root (Config.trimSlashes l.actions) ++ List.replicate k '/' := by
    rw [actionsDir, resolve, ← Path.join_append hne, ← hk]
  have hbase : Path.join l.root (Config.trimSlashes l.actions) ≠ [] := by
    rw [Path.join]
    split
    · exact hne
    split
    · exact List.append_ne_nil_of_right_ne_nil _ hne
    · exact List.append_ne_nil_of_right_ne_nil _ (List.cons_ne_nil _ _)
  refine ⟨_, hbase, ?_, by rw [resolve, artifact, Path.join_append hne]⟩
  rw [hactions, Path.components_append_slashes hbase]

/-- The components of the path of a bundle; a dot as the domain is none. -/
theorem components_artifact (h : Config.isInside l.actions = true) (hdomain : '/' ∉ domain)
    (hslug : Path.isStep slug = true) :
    Path.components (l.resolve (l.artifact domain slug)) =
      Path.components l.actionsDir ++ ((Path.ofPiece? domain).toList ++ [.name slug]) := by
  obtain ⟨base, hbase, hsame, he⟩ := exists_resolve_artifact h domain slug
  have hpieces : (domain ++ '/' :: slug).splitOn '/' = [domain, slug] := by
    rw [List.splitOn_append_cons_self, List.splitOn_eq_singleton hdomain,
      List.splitOn_eq_singleton (Path.isStep_iff.1 hslug).2.2.2]
    rfl
  rw [he, Path.components_append_slash hbase, hsame, hpieces, List.filterMap_cons,
    List.filterMap_cons, Path.ofPiece?_of_isStep hslug, List.filterMap_nil]
  cases Path.ofPiece? domain <;> rfl

/-- A bundle lies two names below the directory of the actions exactly if its domain is a name. -/
theorem components_artifact_iff (h : Config.isInside l.actions = true) (hdomain : '/' ∉ domain)
    (hslug : Path.isStep slug = true) {n m : Text} :
    Path.components (l.resolve (l.artifact domain slug)) =
        Path.components l.actionsDir ++ [.name n, .name m] ↔
      Path.isStep domain = true ∧ n = domain ∧ m = slug := by
  rw [components_artifact h hdomain hslug, List.append_cancel_left_eq, ← and_assoc,
    ← Path.ofPiece?_eq_name_iff hdomain]
  cases Path.ofPiece? domain <;> simp [eq_comm]

theorem components_bundleDir {dir : Text} (h : Config.isInside l.actions = true)
    (hdir : dir ∈ Check.bundleDirs l d) :
    ∃ n m, Path.components dir = Path.components l.actionsDir ++ [.name n, .name m] := by
  obtain ⟨above, habove, hdir⟩ := List.mem_flatMap.1 hdir
  obtain ⟨n, rfl, hn⟩ := Disk.mem_subdirectories habove
  obtain ⟨m, rfl, hm⟩ := Disk.mem_subdirectories hdir
  refine ⟨n, m, ?_⟩
  rw [Path.components_join (Path.join_ne_nil hn _) hm, Path.components_join (actionsDir_ne_nil h) hn,
    List.append_assoc]
  rfl

/-- A bundle under two names is found where it is looked for, wherever links lead. -/
theorem exists_bundleDir (h : Config.isInside l.actions = true) (hdomain : Path.isStep domain = true)
    (hslug : Path.isStep slug = true)
    (hbundle : d.isDirectory (l.resolve (l.artifact domain slug)) = true) :
    Path.join (Path.join l.actionsDir domain) slug ∈ Check.bundleDirs l d := by
  obtain ⟨base, hbase, hsame, he⟩ := exists_resolve_artifact h domain slug
  obtain ⟨hne, -, -, hslash⟩ := Path.isStep_iff.1 hdomain
  have hjoin : l.resolve (l.artifact domain slug) = Path.join (base ++ '/' :: domain) slug := by
    have hlast : (base ++ '/' :: domain).getLast? ≠ some '/' := fun hlast => by
      rw [← List.singleton_append, ← List.append_assoc, List.getLast?_append_of_ne_nil _ hne] at hlast
      exact hslash (List.mem_of_getLast? hlast)
    rw [he, Path.join, Path.isAbsolute_of_isStep hslug, if_neg Bool.false_ne_true, if_neg]
    · simp
    · simpa using hlast
  have hcomponents : Path.components (base ++ '/' :: domain) =
      Path.components (Path.join l.actionsDir domain) := by
    rw [Path.components_append_slash hbase, hsame, Path.components_join (actionsDir_ne_nil h) hdomain,
      List.splitOn_eq_singleton hslash, List.filterMap_cons, Path.ofPiece?_of_isStep hdomain]
    rfl
  rw [hjoin, Disk.isDirectory, Disk.find_join_congr hslug hcomponents, ← Disk.isDirectory] at hbundle
  obtain ⟨habove, hmem⟩ := Disk.join_mem_subdirectories hslug (Path.join_ne_nil hdomain _) hbundle
  obtain ⟨-, hfirst⟩ := Disk.join_mem_subdirectories hdomain (actionsDir_ne_nil h) habove
  exact List.mem_flatMap.2 ⟨_, hfirst, hmem⟩

/-- **Bundles are where the checks look for them**, two names below the directory of the actions,
exactly if the domain is a name. Under a configuration that passes its check it is one, unless it is
the default domain and that is a single or a double dot. -/
theorem artifact_found_iff (root : Text) {c : Config} (h : c.check = .ok ()) (m : Model)
    (file : Text) :
    let l := Layout.ofConfig root c
    let identity := Identity.resolve m file c.defaultDomain
    let artifact := l.artifact identity.domain identity.slug
    artifact = Config.trimSlashes c.actionsDir ++ '/' :: (identity.domain ++ '/' :: identity.slug) ∧
      Path.isStep identity.slug = true ∧
      (Path.isStep identity.domain = true ∨ identity.domain = c.defaultDomain ∧
        (c.defaultDomain = ".".toList ∨ c.defaultDomain = "..".toList)) ∧
      (Path.components (l.resolve artifact) =
          Path.components l.actionsDir ++ [.name identity.domain, .name identity.slug] ↔
        Path.isStep identity.domain = true) ∧
      ∀ d : Disk, d.isDirectory (l.resolve artifact) = true →
        ((∃ dir ∈ Check.bundleDirs l d, Path.components dir = Path.components (l.resolve artifact)) ↔
          Path.isStep identity.domain = true) := by
  intro l identity artifact
  obtain ⟨hinside, hne, hdefault⟩ := Config.isInside_of_check h
  have hinside : Config.isInside l.actions = true := hinside
  have hslug : Path.isStep identity.slug = true := Identity.isStep_resolve m file c.defaultDomain
  have hdomain : Path.isStep identity.domain = true ∨ identity.domain = c.defaultDomain :=
    Identity.domain_resolve_cases m file c.defaultDomain
  have hslash : '/' ∉ identity.domain := by
    rcases hdomain with hstep | he
    · exact (Path.isStep_iff.1 hstep).2.2.2
    · rw [he]
      exact hdefault
  refine ⟨rfl, hslug, ?_, ?_, fun d hd => ⟨?_, fun hstep => ?_⟩⟩
  · by_cases hstep : Path.isStep identity.domain = true
    · exact .inl hstep
    have he := hdomain.resolve_left hstep
    rw [he, Path.isStep_iff] at hstep
    refine .inr ⟨he, ?_⟩
    by_contra hnot
    rw [not_or] at hnot
    exact hstep ⟨hne, hnot.1, hnot.2, hdefault⟩
  · rw [components_artifact_iff hinside hslash hslug]
    simp
  · rintro ⟨dir, hdir, he⟩
    obtain ⟨n, k, hcomponents⟩ := components_bundleDir hinside hdir
    rw [hcomponents] at he
    exact ((components_artifact_iff hinside hslash hslug).1 he.symm).1
  · refine ⟨_, exists_bundleDir hinside hstep hslug hd, ?_⟩
    rw [Path.components_join (Path.join_ne_nil hstep _) hslug,
      Path.components_join (actionsDir_ne_nil hinside) hstep, List.append_assoc]
    exact ((components_artifact_iff hinside hslash hslug).2 ⟨hstep, rfl, rfl⟩).symm

/-- A configuration with directories of two names each, one of them with a slash at its end. -/
def sampleNested : Config :=
  { modelsDir := "src/axioms", actionsDir := "out/actions/", defaultDomain := "web" }

/-- A model that declares its domain. -/
def sampleTag : Model := { metadata := { modelId := "axiom.tool.tag", domain := "Git" } }

/-- A disk with a directory for the bundle of this model. -/
def sampleTagDisk : Disk where
  tree := ((((Tree.empty.set "p" [] .directory).set "out" ["p"] .directory).set "actions"
    ["out", "p"] .directory).set "git" ["actions", "out", "p"] .directory).set "tag"
      ["git", "actions", "out", "p"] .directory

/-- The bundle of a declared domain is two names below the directory of the actions, and found. -/
theorem artifact_found_iff_sampleNested :
    sampleNested.check = .ok () ∧
      let l := ofConfig "/p" sampleNested
      Path.components (l.resolve (l.artifact "git" "tag")) =
          Path.components l.actionsDir ++ [.name "git", .name "tag"] ∧
        ∃ dir ∈ Check.bundleDirs l sampleTagDisk,
          Path.components dir = Path.components (l.resolve (l.artifact "git" "tag")) := by
  have hcheck : sampleNested.check = .ok () := by decide
  have hidentity : (Identity.resolve sampleTag "src/axioms/t.fcm" "web").domain = "git".toList ∧
      (Identity.resolve sampleTag "src/axioms/t.fcm" "web").slug = "tag".toList := by decide
  have hthere : sampleTagDisk.isDirectory ((ofConfig "/p" sampleNested).resolve
      ((ofConfig "/p" sampleNested).artifact "git" "tag")) = true := by decide
  obtain ⟨-, -, -, hdepth, hfound⟩ := artifact_found_iff "/p" hcheck sampleTag "src/axioms/t.fcm"
  have hfound := hfound sampleTagDisk
  have hdefault : sampleNested.defaultDomain = "web".toList := rfl
  rw [hdefault, hidentity.1, hidentity.2] at hdepth hfound
  exact ⟨hcheck, hdepth.2 (by decide), (hfound hthere).2 (by decide)⟩

/-- The configuration whose default domain leads up. -/
def sampleUpward : Config := { defaultDomain := ".." }

/-- A bundle outside of the directory of the actions, under a configuration that passes its check. -/
theorem artifact_sampleUpward :
    sampleUpward.check = .ok () ∧
      (Layout.ofConfig "/p" sampleUpward).artifact
          (Identity.resolve {} "x.fcm" sampleUpward.defaultDomain).domain
          (Identity.resolve {} "x.fcm" sampleUpward.defaultDomain).slug =
        "actions/../x".toList := by
  decide

end Layout

end ActionBundles
