import ActionBundles.Proofs.Discovery
import ActionBundles.Proofs.WorkingDirectory

/-!
# What stays the same while a run is under way

A run writes files of a few names only, `Project.writtenNames`, and makes directories; it does
nothing else to a project without links (`Project.Steady`). Neither the configuration nor a model
has such a name. So at every moment of a run the project is the same, the same models are found in
the same order, and the same is planned for each of them.
-/

namespace ActionBundles

open ActionBundles.Action

variable {a x : Address} {t t' : Tree} {d d' : Disk} {l : Layout} {models : List Text} {path n : Text}

namespace Project

/-- The names of the files that a run writes. -/
def writtenNames : List Text :=
  Transaction.bundleNames ++ Transaction.bundleNames.map Transaction.draftName ++
    (["manifest.json", ".manifest.json.tmp", "manifest.lock"] : List Text)

/-- Where such files are in the project at `a`. -/
def Written (a x : Address) : Prop := ∃ n dir, x = n :: dir ∧ n ∈ writtenNames ∧ a <:+ dir

/-- What a run does to a project at `a` without links. -/
abbrev Steady (a : Address) (t t' : Tree) : Prop := t.Changed (Written a) (fun _ => True) a t'

/-- The last part of the names of models. -/
def IsModelName (n : Text) : Prop := (Path.cutName n).2 = some "fcm".toList

/-- `path` is the path of a model that is the file `b` of the project at `a`, if it is there. -/
structure IsModel (a : Address) (path : Text) (b : Address) : Prop where
  denotes : Path.Denotes path (b ++ a)
  named : ∃ n ∈ b.head?, IsModelName n
  leads : ∀ d : Disk, d.find path = d.find (Path.ofAddress (b ++ a))

theorem not_written_of_not_mem (h : n ∉ writtenNames) {dir : Address} : ¬ Written a (n :: dir) := by
  rintro ⟨m, dir', he, hm, -⟩
  exact h ((List.cons.inj he).1 ▸ hm)

theorem IsModelName.not_mem (h : IsModelName n) : n ∉ writtenNames := by
  have hall : ∀ m ∈ writtenNames, (Path.cutName m).2 ≠ some "fcm".toList := by decide
  exact fun hn => hall n hn h

theorem not_written_config : ¬ Written a (("config.json" : Text) :: bridgeAddress a) :=
  not_written_of_not_mem (by decide)

theorem written_of_reach {c : Address} (h : Reach a c x) : Written a x := by
  rcases h with rfl | rfl | ⟨n, hn, rfl | rfl⟩
  · exact ⟨_, _, rfl, by decide, suffix_bridgeAddress a⟩
  · exact ⟨_, _, rfl, by decide, suffix_bridgeAddress a⟩
  · exact ⟨_, _, rfl, by simp [writtenNames, hn], List.suffix_append c a⟩
  · refine ⟨_, _, rfl, ?_, List.suffix_append c a⟩
    rw [writtenNames]
    exact List.mem_append_left _ (List.mem_append_right _ (List.mem_map_of_mem hn))

variable {p : Project} {occasion : Occasion} {m : Manifest}

section Steps

variable (hl : p.layout.root = Path.ofAddress a) (hroot : d.tree.get? a = some .directory)
  (hno : d.tree.NoLinksIn a)

include hl hroot hno

theorem steady_generate [Medium] (hp : p.Usable) (hname : isName occasion.transactionName = true) :
    Steady a d.tree ((p.generate occasion m path).on d).2.tree := by
  obtain ⟨c, -, h⟩ : ∃ c, (∀ plan, p.plan occasion path d = .ok plan → c = plan.place) ∧
      d.tree.Changed (Reach a c) (Ways a c) a ((p.generate occasion m path).on d).2.tree :=
    changed_generate hp hl hname hroot hno
  exact h.mono (fun _ => written_of_reach) fun _ _ => trivial

theorem steady_lock [Medium] : Steady a d.tree ((Manifest.lock p.layout).on d).2.tree :=
  changed_lock hl (Tree.isWay_of_get? hroot)
    ⟨_, _, rfl, by decide, suffix_bridgeAddress a⟩ (fun _ _ => trivial) d (.refl hroot hno)

theorem steady_batch [Medium] (hp : p.Usable) (hname : isName occasion.transactionName = true) :
    Steady a d.tree (p.batch occasion m models d).2.tree := by
  have hstep : ∀ {m path d₁ outcome d₂}, Steady a d.tree d₁.tree →
      (p.generate occasion m path).on d₁ = (outcome, d₂) → Steady a d.tree d₂.tree :=
    fun {m path d₁ outcome d₂} h hgenerate => by
      have hsteady : Steady a d₁.tree ((p.generate occasion m path).on d₁).2.tree :=
        steady_generate hl h.root h.noLinks hp hname
      rw [hgenerate] at hsteady
      exact h.trans hsteady
  exact holds_of_batch (P := fun _ d' => Steady a d.tree d'.tree) (fun _ _ h => h)
    (fun _ _ _ _ _ _ => hstep) (fun _ _ _ _ _ h hgenerate =>
      ⟨hstep h hgenerate, fun _ _ => hstep h hgenerate⟩) (.refl hroot hno) models

end Steps

end Project

/-! ### Files that stay -/

namespace Disk

variable (hroot : d.tree.get? a = some .directory) (hno : d.tree.NoLinksIn a)
  (hway : Path.IsWay x) (hin : a <:+ x)

include hroot hno hway hin

/-- A path in a project without links leads to a file if one stands at its address. -/
theorem isFile_iff_exists : d.isFile (Path.ofAddress x) = true ↔
    ∃ content mode, d.tree.get? x = some (.file content mode) := by
  constructor
  · intro h
    rw [isFile] at h
    cases hfind : d.find (Path.ofAddress x) with
    | error e =>
      rw [hfind] at h
      cases h
    | ok found =>
      obtain ⟨y, node⟩ := found
      obtain rfl := address_of_find_lands hroot hno (Path.landsAt_ofAddress hway hin) hfind
      rw [hfind] at h
      cases node with
      | file content mode =>
        exact ⟨content, mode, find_holds (Path.isAbsolute_ofAddress y) hfind⟩
      | directory => cases h
      | link target => cases h
  · rintro ⟨content, mode, h⟩
    rw [isFile, find_of_get? h (by simp)]

/-- A path in a project without links leads to a directory if one stands at its address. -/
theorem isDirectory_iff : d.isDirectory (Path.ofAddress x) = true ↔
    d.tree.get? x = some .directory := by
  constructor
  · intro h
    rw [isDirectory] at h
    cases hfind : d.find (Path.ofAddress x) with
    | error e =>
      rw [hfind] at h
      cases h
    | ok found =>
      obtain ⟨y, node⟩ := found
      obtain rfl := address_of_find_lands hroot hno (Path.landsAt_ofAddress hway hin) hfind
      rw [hfind] at h
      cases node with
      | directory => exact find_holds (Path.isAbsolute_ofAddress y) hfind
      | file content mode => cases h
      | link target => cases h
  · intro h
    rw [isDirectory, find_of_get? h (by simp)]

/-- A file that a change does not reach is read as before. -/
theorem read_of_changed {files dirs : Address → Prop} (h : d.tree.Changed files dirs a d'.tree)
    (hx : ¬ files x) : d'.isFile (Path.ofAddress x) = d.isFile (Path.ofAddress x) ∧
      (d.isFile (Path.ofAddress x) = true →
        d'.read (Path.ofAddress x) = d.read (Path.ofAddress x)) := by
  have hbefore := isFile_iff_exists hroot hno hway hin
  have hafter := isFile_iff_exists h.root h.noLinks hway hin
  refine ⟨?_, fun hfile => ?_⟩
  · rw [Bool.eq_iff_iff, hbefore, hafter]
    exact exists_congr fun content => exists_congr fun mode => h.get?_file_iff hx content mode
  · obtain ⟨content, mode, hget⟩ := hbefore.1 hfile
    rw [read, read, find_of_get? hget (by simp),
      find_of_get? ((h.get?_file_iff hx content mode).2 hget) (by simp)]

end Disk

/-! ### The models -/

namespace Layout

/-- The directory of the models, if it is a directory without links, has the files with the name of
a model for models. -/
theorem mem_discover_iff (hdir : d.find l.modelsDir = .ok (x, .directory))
    (hno : d.tree.NoLinksIn x) :
    ∃ models, l.discover d = .ok models ∧ ∀ path, path ∈ models ↔
      ∃ n c content mode, path = Path.down l.modelsDir (n :: c) ∧ Project.IsModelName n ∧
        d.tree.get? (n :: (c ++ x)) = some (.file content mode) := by
  have hthere : d.isThere l.modelsDir = true := by
    rw [Disk.isThere, hdir]
    rfl
  have hextension {n : Text} {c : Address} {node : Node}
      (h : d.tree.get? (n :: c ++ x) = some node) :
      Path.extension? (Path.down l.modelsDir (n :: c)) = (Path.cutName n).2 :=
    Path.extension?_down (Disk.ne_nil_of_find hdir) fun k hk =>
      Tree.isWay_of_get? h k (List.mem_append_left x hk)
  refine ⟨(d.filesWithin d.depthBound l.modelsDir).filter
    fun path => Path.extension? path = some "fcm".toList, ?_, fun path => ?_⟩
  · rw [discover, Disk.filesBelow, if_pos hthere, Disk.names, hdir]
    rfl
  · rw [List.mem_filter, Disk.mem_filesWithin_depthBound hdir hno, decide_eq_true_eq]
    constructor
    · rintro ⟨⟨b, content, mode, hne, rfl, hfile⟩, hext⟩
      obtain ⟨n, c, rfl⟩ := List.exists_cons_of_ne_nil hne
      rw [hextension hfile] at hext
      exact ⟨n, c, content, mode, rfl, hext, hfile⟩
    · rintro ⟨n, c, content, mode, rfl, hname, hfile⟩
      refine ⟨⟨n :: c, content, mode, List.cons_ne_nil n c, rfl, hfile⟩, ?_⟩
      rw [hextension hfile]
      exact hname

theorem nodup_of_precedes {files : List Text} (h : files.Pairwise Path.Precedes) : files.Nodup :=
  h.imp fun {p q} hlt he => by
    rw [Path.Precedes, he, Std.ReflOrd.compare_self] at hlt
    cases hlt

/-- Lists in the order of their steps with the same members are the same. -/
theorem eq_of_precedes {files files' : List Text} (h : files.Pairwise Path.Precedes)
    (h' : files'.Pairwise Path.Precedes) (hmem : ∀ path, path ∈ files ↔ path ∈ files') :
    files = files' := by
  have hperm := (List.perm_ext_iff_of_nodup (nodup_of_precedes h) (nodup_of_precedes h')).2 hmem
  refine hperm.eq_of_pairwise (fun p q _ _ hpq hqp => ?_) h h'
  have hswap : compare (Path.steps p) (Path.steps q) =
      (compare (Path.steps q) (Path.steps p)).swap := Std.OrientedCmp.eq_swap
  rw [Path.Precedes, hswap, hqp] at hpq
  cases hpq

/-- While a run is under way, the same models are found in the same order. -/
theorem discover_steady (h : Path.Denotes l.modelsDir x) (hin : a <:+ x)
    (hno : d.tree.NoLinksIn a) (hx : d.tree.get? x = some .directory)
    (hsteady : Project.Steady a d.tree d'.tree) : l.discover d' = l.discover d := by
  obtain ⟨e, rfl⟩ := hin
  have hbelow : ∀ {t : Tree}, t.NoLinksIn a → t.NoLinksIn (e ++ a) := fun hno b target hb =>
    hno (b ++ e) target (by rwa [List.append_assoc])
  obtain ⟨models, hmodels, hmem⟩ := mem_discover_iff (Disk.find_of_denotes h hx) (hbelow hno)
  obtain ⟨models', hmodels', hmem'⟩ :=
    mem_discover_iff (Disk.find_of_denotes h (hsteady.directory hx)) (hbelow hsteady.noLinks)
  have hsame : models' = models := by
    refine eq_of_precedes (l.pairwise_discover d' hmodels') (l.pairwise_discover d hmodels)
      fun path => ?_
    rw [hmem', hmem]
    refine exists_congr fun n => exists_congr fun c => exists_congr fun content =>
      exists_congr fun mode => and_congr_right fun _ => and_congr_right fun hname => ?_
    exact hsteady.get?_file_iff (Project.not_written_of_not_mem hname.not_mem) content mode
  rw [hmodels, hmodels', hsame]

/-! ### Where the models are -/

variable (hl : l.root = Path.ofAddress a) (ha : Path.IsWay a)
  (hin : Config.isInside l.models = true)

include hl ha hin

/-- The directory of the models is a directory of the project, with single dots in its path. -/
theorem exists_denotes_modelsDir : ∃ b, Path.Denotes l.modelsDir (b ++ a) ∧
    Path.LandsAt a l.modelsDir (b ++ a) := by
  simp only [Config.isInside, Bool.and_eq_true, Bool.not_eq_true', decide_eq_true_eq] at hin
  obtain ⟨⟨-, habs⟩, hup⟩ := hin
  have hstep : ∀ s ∈ Path.undotted (Path.steps l.models), Path.isStep s = true :=
    fun _ hs => Path.isStep_of_mem_undotted hup hs
  have hsteps : Path.steps l.modelsDir = a.reverse ++ Path.steps l.models := by
    rw [modelsDir, resolve, Path.steps_join_relative habs, hl, Path.steps_ofAddress ha]
  have hdenotes : Path.Denotes l.modelsDir ((Path.undotted (Path.steps l.models)).reverse ++ a) := by
    refine ⟨?_, ?_, .append (fun k hk => hstep k (List.mem_reverse.1 hk)) ha⟩
    · rw [modelsDir, resolve, Disk.isAbsolute_join habs, hl]
      exact Path.isAbsolute_ofAddress a
    · rw [hsteps, Path.undotted_append,
        Path.undotted_of_isStep fun k hk => ha k (List.mem_reverse.1 hk)]
      simp
  exact ⟨_, hdenotes, hdenotes.landsAt (List.suffix_append _ a) ⟨_, hsteps⟩⟩

/-- If there are models, the directory of the models is one. -/
theorem exists_modelsAddress (hroot : d.tree.get? a = some .directory) (hno : d.tree.NoLinksIn a)
    (h : l.discover d = .ok models) (hne : models ≠ []) :
    ∃ b, Path.Denotes l.modelsDir (b ++ a) ∧ d.tree.get? (b ++ a) = some .directory := by
  obtain ⟨b, hdenotes, hlands⟩ := exists_denotes_modelsDir hl ha hin
  refine ⟨b, hdenotes, ?_⟩
  obtain ⟨depth, hsublist⟩ := l.sublist_of_discover d h
  obtain ⟨path, hpath⟩ := List.exists_mem_of_ne_nil _ hne
  have hnames : d.namesAt l.modelsDir ≠ [] := fun hnil => by
    have hfile := hsublist.subset hpath
    cases depth with
    | zero => cases hfile
    | succ depth =>
      obtain ⟨n, hn, -⟩ := List.mem_flatMap.1 hfile
      rw [show (d.names l.modelsDir).toOption.getD [] = [] from hnil] at hn
      cases hn
  rw [Disk.namesAt, Disk.names] at hnames
  cases hfind : d.find l.modelsDir with
  | error e =>
    rw [hfind] at hnames
    exact absurd rfl hnames
  | ok found =>
    obtain ⟨y, node⟩ := found
    rw [hfind] at hnames
    cases node with
    | directory =>
      obtain rfl := Disk.address_of_find_lands hroot hno hlands hfind
      exact Disk.find_holds hlands.1 hfind
    | file content mode => exact absurd rfl hnames
    | link target => exact absurd rfl hnames

/-- A model that was found is a file of the project. -/
theorem exists_model (hroot : d.tree.get? a = some .directory) (hno : d.tree.NoLinksIn a)
    (h : l.discover d = .ok models) (hmem : path ∈ models) :
    ∃ b content mode, Project.IsModel a path b ∧
      d.tree.get? (b ++ a) = some (.file content mode) := by
  obtain ⟨b, hdenotes, hdir⟩ :=
    exists_modelsAddress hl ha hin hroot hno h (List.ne_nil_of_mem hmem)
  have hbelow : d.tree.NoLinksIn (b ++ a) := fun c target hc =>
    hno (c ++ b) target (by rwa [List.append_assoc])
  obtain ⟨models', hmodels, hall⟩ :=
    mem_discover_iff (Disk.find_of_denotes hdenotes hdir) hbelow
  cases h.symm.trans hmodels
  obtain ⟨n, c, content, mode, rfl, hname, hfile⟩ := (hall path).1 hmem
  have hway : Path.IsWay (n :: c) := fun k hk =>
    Tree.isWay_of_get? hfile k (List.mem_append_left (b ++ a) hk)
  have hn := hway n List.mem_cons_self
  refine ⟨n :: (c ++ b), content, mode, ⟨?_, ⟨n, rfl, hname⟩, fun d => ?_⟩, ?_⟩
  · have hmodel := hdenotes.down hway
    rwa [List.cons_append, ← List.append_assoc] at hmodel
  · rw [Path.down_cons, Disk.find_join_denotes (hdenotes.down hway.tail) hn, List.cons_append,
      List.append_assoc]
  · rwa [List.cons_append, List.append_assoc]

/-- While a run is under way, no model is found that was not found before, also where the directory
of the models has been made in the run. -/
theorem discover_getD_steady (hroot : d.tree.get? a = some .directory) (hno : d.tree.NoLinksIn a)
    (hsteady : Project.Steady a d.tree d'.tree) :
    (l.discover d').toOption.getD [] = (l.discover d).toOption.getD [] := by
  obtain ⟨b, hdenotes, -⟩ := exists_denotes_modelsDir hl ha hin
  have hthere : ∀ {d : Disk} {models : List Text}, d.tree.get? a = some .directory →
      d.tree.NoLinksIn a → l.discover d = .ok models → models ≠ [] →
      d.tree.get? (b ++ a) = some .directory := fun hroot hno h hne => by
    obtain ⟨c, hc, hget⟩ := exists_modelsAddress hl ha hin hroot hno h hne
    rwa [List.reverse_injective (hc.names.symm.trans hdenotes.names)] at hget
  by_cases hdir : d.tree.get? (b ++ a) = some .directory
  · rw [discover_steady hdenotes (List.suffix_append b a) hno hdir hsteady]
  -- a directory that has been made in the run has no models in it
  have hbefore : (l.discover d).toOption.getD [] = [] := by
    cases hmodels : l.discover d with
    | error e => rfl
    | ok models =>
      by_contra hne
      exact hdir (hthere hroot hno hmodels hne)
  rw [hbefore]
  cases hmodels : l.discover d' with
  | error e => rfl
  | ok models =>
    by_contra hne
    have hdir' := hthere hsteady.root hsteady.noLinks hmodels hne
    obtain ⟨models', hmodels', hall⟩ := mem_discover_iff (Disk.find_of_denotes hdenotes hdir')
      fun c target hc => hsteady.noLinks (c ++ b) target (by rwa [List.append_assoc])
    cases hmodels.symm.trans hmodels'
    obtain ⟨path, hpath⟩ := List.exists_mem_of_ne_nil _ hne
    obtain ⟨n, c, content, mode, -, hname, hfile⟩ := (hall path).1 hpath
    have hold := (hsteady.get?_file_iff (Project.not_written_of_not_mem hname.not_mem)
      content mode).1 hfile
    exact hdir (Tree.directory_of_suffix (Tree.get?_dir hold) (List.suffix_append c (b ++ a)))

end Layout

namespace Project

variable {p : Project} {occasion : Occasion} {b : Address} {content : Bytes} {mode : Bool}

/-! ### What is planned for a model -/

/-- The plan for a model that is the file `b` of the project at `a`, by the bytes of the file. -/
def planOf (p : Project) (a b : Address) (time : Text) (bytes : Bytes) : Except Failure Plan :=
  let file := Path.ofAddress (b ++ a)
  match Text.ofUtf8? bytes with
  | none => .error (.modelUnreadable file .notText)
  | some text =>
    (Model.ofText file p.config.mode text).map fun model =>
      let identity := Identity.resolve model file p.config.defaultDomain
      { source := Path.ofRelative b
        identity
        artifact := p.layout.artifact identity.domain identity.slug
        bundle := Bundle.render model identity (Path.ofRelative b) text.utf8 time
          p.config.defaultImage }

/-- What is planned for the file that a path leads to. -/
theorem plan_of_modelFile (hl : p.layout.root = Path.ofAddress a)
    (hfile : modelFile p.layout path d = .ok (Path.ofAddress (b ++ a)))
    (hget : d.tree.get? (b ++ a) = some (.file content mode)) :
    p.plan occasion path d = p.planOf a b occasion.time content := by
  have hrelative : p.layout.relative (Path.ofAddress (b ++ a)) = .ok (Path.ofRelative b) :=
    (Path.denotes_ofAddress (Tree.isWay_of_get? hget)).relative hl rfl
  have hread : d.read (Path.ofAddress (b ++ a)) = .ok content := by
    rw [Disk.read, Disk.find_of_get? hget (by simp)]
  rw [Project.plan, hfile, planOf]
  show Except.bind _ _ = _
  rw [Except.bind]
  simp only [hrelative, Model.readText, hread]
  cases Text.ofUtf8? content with
  | none => rfl
  | some text =>
    show Except.bind (Model.ofText _ _ text) _ = Except.map _ (Model.ofText _ _ text)
    cases Model.ofText (Path.ofAddress (b ++ a)) p.config.mode text <;> rfl

namespace IsModel

variable (h : IsModel a path b)

include h

/-- While a run is under way, a model is as it was. -/
theorem get?_iff (hsteady : Steady a t t') : t'.get? (b ++ a) = some (.file content mode) ↔
    t.get? (b ++ a) = some (.file content mode) := by
  obtain ⟨n, hn, hname⟩ := h.named
  obtain ⟨c, rfl⟩ := List.head?_eq_some_iff.1 hn
  exact hsteady.get?_file_iff (not_written_of_not_mem hname.not_mem) content mode

theorem relative (hl : l.root = Path.ofAddress a) :
    l.relative path = .ok (Path.ofRelative b) := h.denotes.relative hl rfl

theorem resolve (hl : l.root = Path.ofAddress a) :
    l.resolve (Path.ofRelative b) = Path.ofAddress (b ++ a) := by
  obtain ⟨n, hn, -⟩ := h.named
  rw [Layout.resolve, hl]
  refine Path.join_ofRelative (h.denotes.isWay.of_suffix (List.suffix_append b a)) (fun k hk =>
    h.denotes.isWay k (List.mem_append_left a hk)) fun hnil => ?_
  subst hnil
  cases hn

theorem isFile (hl : l.root = Path.ofAddress a)
    (hget : d.tree.get? (b ++ a) = some (.file content mode)) :
    d.isFile (l.resolve (Path.ofRelative b)) = true := by
  rw [h.resolve hl, Disk.isFile, Disk.find_of_get? hget (by simp)]

/-- Nothing but the bytes of a model matters to what is planned for it. -/
theorem plan (hl : p.layout.root = Path.ofAddress a)
    (hget : d.tree.get? (b ++ a) = some (.file content mode)) :
    p.plan occasion path d = p.planOf a b occasion.time content := by
  refine plan_of_modelFile hl ?_ hget
  rw [modelFile, h.denotes.absolute, Bool.true_or, Disk.canonical]
  simp only [↓reduceIte, h.leads, Disk.find_of_get? hget (by simp)]
  rfl

end IsModel

theorem source_of_planOf {time : Text} {plan : Plan}
    (h : p.planOf a b time content = .ok plan) : plan.source = Path.ofRelative b := by
  rw [planOf] at h
  split at h
  · cases h
  · next text htext =>
    cases hmodel : Model.ofText (Path.ofAddress (b ++ a)) p.config.mode text with
    | error e =>
      rw [hmodel] at h
      cases h
    | ok model =>
      rw [hmodel] at h
      cases h
      rfl

/-! ### The project -/

/-- A run takes away no directories and no links. -/
theorem Steady.kept_of_ne_file (h : Steady a t t') (hno : t.NoLinksIn a) {node : Node}
    (hx : t.get? x = some node) (hnode : ∀ content mode, node ≠ .file content mode) :
    t'.get? x = some node := by
  refine h.kept x node hx ?_
  cases node with
  | directory => exact .inl rfl
  | file content mode => exact absurd rfl (hnode content mode)
  | link target =>
    refine .inr ?_
    rintro ⟨n, dir, rfl, -, c, rfl⟩
    exact hno (n :: c) target hx

/-- While a run is under way, the project is the same. -/
theorem load_steady {root : Text} (hfind : d.find root = .ok (a, .directory))
    (hroot : d.tree.get? a = some .directory) (hno : d.tree.NoLinksIn a)
    (hdir : d'.workingDirectory = d.workingDirectory)
    (h : Steady a d.tree d'.tree) : load root d' = load root d := by
  have ha := Tree.isWay_of_get? hroot
  have hfind' : d'.find root = .ok (a, .directory) :=
    Disk.find_of_kept hdir (fun _ _ => h.kept_of_ne_file hno) hfind
  have hconfig : (Layout.ofConfig (Path.ofAddress a) {}).configPath =
      Path.ofAddress (("config.json" : Text) :: bridgeAddress a) :=
    join_bridgeDir ha rfl (by decide)
  obtain ⟨hisFile, hread⟩ := Disk.read_of_changed hroot hno
    ((isWay_bridgeAddress ha).cons (by decide))
    ((suffix_bridgeAddress a).trans (List.suffix_cons _ _)) h not_written_config
  have hcanonical : ∀ {d : Disk}, d.find root = .ok (a, .directory) →
      d.canonical root = .ok (Path.ofAddress a) := fun hfind => by
    rw [Disk.canonical, hfind]
    rfl
  rw [load, load, hcanonical hfind, hcanonical hfind']
  show (if d'.isFile (Layout.ofConfig (Path.ofAddress a) {}).configPath = true then _ else _) =
    (if d.isFile (Layout.ofConfig (Path.ofAddress a) {}).configPath = true then _ else _)
  rw [hconfig, hisFile]
  by_cases hfile : d.isFile (Path.ofAddress (("config.json" : Text) :: bridgeAddress a)) = true
  · rw [if_pos hfile, if_pos hfile, hread hfile]
  · rw [if_neg hfile, if_neg hfile]

/-! ### Opening a project -/

/-- What is known of the layout of a project that is loaded. -/
theorem layout_of_load {root : Text} (h : load root d = .ok p) :
    d.canonical root = .ok p.layout.root ∧ p.layout.models = p.config.modelsDir := by
  rw [load] at h
  obtain ⟨path, hpath, h⟩ := exists_of_bind_eq_ok h
  have hcanonical : d.canonical root = .ok path := by
    cases hc : d.canonical root with
    | error e =>
      rw [hc] at hpath
      cases hpath
    | ok path' =>
      rw [hc] at hpath
      cases hpath
      rfl
  dsimp only at h
  split at h
  · obtain ⟨bytes, -, h⟩ := exists_of_bind_eq_ok h
    obtain ⟨config, -, h⟩ := exists_of_bind_eq_ok h
    cases h
    exact ⟨hcanonical, rfl⟩
  · cases h
    exact ⟨hcanonical, rfl⟩

theorem root_of_load {root : Text} (hfind : d.find root = .ok (a, .directory))
    (h : load root d = .ok p) : p.layout.root = Path.ofAddress a := by
  have hcanonical := (layout_of_load h).1
  rw [Disk.canonical, hfind] at hcanonical
  exact (Except.ok.inj hcanonical).symm

theorem isInside_models (h : p.config.check = .ok ()) :
    Config.isInside p.config.modelsDir = true := by
  rw [Config.check] at h
  obtain ⟨_, hdir, -⟩ := exists_of_bind_eq_ok h
  by_contra hnot
  rw [Config.checkDirectory, if_neg hnot] at hdir
  cases hdir

/-- What is known of the project `p` at `a` and its manifest `m` when they have been opened. -/
structure Opened [Medium] (a : Address) (root : Text) (d : Disk) (p : Project) (m : Manifest)
    (d' : Disk) : Prop where
  loaded : load root d = .ok p
  usable : p.Usable
  root : p.layout.root = Path.ofAddress a
  inside : Config.isInside p.layout.models = true
  steady : Steady a d.tree d'.tree
  workingDirectory : d'.workingDirectory = d.workingDirectory
  locked : (Manifest.lock p.layout).on d = (.ok (), d')
  manifest : Manifest.load p.layout d' = .ok m

theorem opened_of_openProject [Medium] {root : Text} {strict : Bool} {q : Project}
    (hfind : d.find root = .ok (a, .directory)) (hroot : d.tree.get? a = some .directory)
    (hno : d.tree.NoLinksIn a) (h : (Command.openProject root strict).on d = (.ok (q, m), d')) :
    ∃ p, q = Command.withMode p strict ∧ Opened a root d p m d' := by
  have hopening := Command.opening root strict d
  rw [h] at hopening
  cases hopening with
  | opened p _ _ hload hlock hm =>
    have hl := root_of_load hfind hload
    have hp := usable_of_load hload
    have hsteady := steady_lock hl hroot hno
    have hstays := Manifest.stays_lock p.layout d
    rw [hlock] at hsteady hstays
    exact ⟨p, rfl, hload, hp, hl, (layout_of_load hload).2 ▸ isInside_models hp.config, hsteady,
      hstays, hlock, hm⟩

end Project

end ActionBundles
