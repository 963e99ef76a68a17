import ActionBundles.Proofs.Agreement

/-!
# Bundles over the life of a project

`Project.Life` is the life of a project from a disk without manifest and actions on: models come and
go, and actions are generated, one or all of them, with success or not. Beside the disk it keeps
which bytes each model had when its action was generated last. `mapped_bundles_stand` says that each
model that the manifest maps has its whole bundle, made of these bytes, as long as no write fails. A
bundle is published before the manifest is stored and is not withdrawn if that fails, so that a full
disk may part the two (`bundle_ahead_sampleUnsaved`).
-/

namespace ActionBundles

open ActionBundles.Action

/-! ### Reading bundles -/

namespace Bundle

variable {b : Bundle} {d : Disk} {dir : Address}

/-- Where a bundle stands, its sync record can be loaded. -/
theorem Stands.load? (h : b.Stands d.tree dir) :
    SyncRecord.load? d (Path.ofAddress dir) = .ok (some b.sync) := by
  have hway := Tree.isWay_of_get? h.directory
  have hfile := h.file _ _ (.tail _ (.tail _ (.tail _ (.head _))))
  have hread : d.read (Path.join (Path.ofAddress dir) SyncRecord.fileName) =
      .ok b.sync.document.utf8 := by
    rw [Path.join_ofAddress hway (by decide), Disk.read, Disk.find_of_get? hfile (by simp)]
  rw [SyncRecord.load?, if_pos (Disk.isFile_iff.2 ⟨_, hread⟩), hread]
  dsimp only
  rw [SyncRecord.ofJson?_read?_document]

/-- Where a bundle stands, all its files are there. -/
theorem Stands.isFile (h : b.Stands d.tree dir) {n : Text}
    (hn : n ∈ Transaction.bundleNames) : d.isFile (Path.join (Path.ofAddress dir) n) = true := by
  obtain ⟨content, mode, hmem⟩ := b.exists_mem_files hn
  have hfile := h.file n _ hmem
  have hway := Tree.isWay_of_get? hfile
  refine Disk.isFile_iff.2 ⟨content, ?_⟩
  rw [Path.join_ofAddress hway.tail (hway n (.head _)), Disk.read,
    Disk.find_of_get? hfile (by simp)]

end Bundle

namespace Project

variable {p : Project} {occasion : Occasion} {m : Manifest} {models : List Text} {d : Disk}

/-! ### What was generated -/

/-- The models whose actions a batch generates with success, in order, with the bytes that each one
has then. -/
def generations [Medium] (p : Project) (occasion : Occasion) (m : Manifest) :
    List Text → Disk → List (Text × Option Bytes)
  | [], _ => []
  | path :: rest, d =>
    match (p.generate occasion m path).on d with
    | (.ok (g, m'), d') =>
      (g.source, (d.read (p.layout.resolve g.source)).toOption) :: p.generations occasion m' rest d'
    | (.error _, d') =>
      match Manifest.load p.layout d' with
      | .error _ => []
      | .ok m' => p.generations occasion m' rest d'

/-- They are the models for which the batch says that it generated something. -/
theorem map_fst_generations [Medium] : (p.generations occasion m models d).map Prod.fst =
    (p.batch occasion m models d).1.1.filterMap fun e => e.2.toOption.map (·.source) := by
  induction models generalizing m d with
  | nil => rfl
  | cons path rest ih =>
    rw [generations, batch_cons]
    generalize (p.generate occasion m path).on d = generated
    obtain ⟨e | ⟨g, m'⟩, d'⟩ := generated
    · dsimp only
      cases Manifest.load p.layout d' with
      | error stop => rfl
      | ok m' => exact ih
    · exact congrArg (g.source :: ·) ih

variable {a : Address} {last : Ledger} {mode : ParseMode}

/-- A batch leaves a project in order, whichever of its models fail. -/
theorem Agrees.batch (h : Agrees a last m d.tree)
    (hname : isName occasion.transactionName = true) (models : List Text) :
    ∃ m', Agrees a (((standard a mode).generations occasion m models d).foldl Ledger.enter last) m'
      ((standard a mode).batch occasion m models d).2.tree := by
  induction models generalizing m d last with
  | nil => exact ⟨m, h⟩
  | cons path rest ih =>
    have hgenerate : GenerateOutcome a last m d (((standard a mode).generate occasion m path).on d) :=
      h.generate hname path
    rw [generations, batch_cons]
    generalize ((standard a mode).generate occasion m path).on d = generated at hgenerate
    cases hgenerate with
    | failed e d' h' =>
      dsimp only
      rw [h'.load rfl]
      exact ih h'
    | done g m' d' h' => exact ih h'

end Project

/-! ### Commands -/

namespace Command

/-- The models whose actions a command generates with success, with the bytes that each one has
then. -/
def generations [Medium] (occasion : Occasion) (root : Text) (model : Option Text) (strict : Bool)
    (d : Disk) : List (Text × Option Bytes) :=
  match (openProject root strict).on d with
  | (.error _, _) => []
  | (.ok (p, m), d') =>
    match model with
    | some path => p.generations occasion m [path] d'
    | none =>
      match p.layout.discover d' with
      | .error _ => []
      | .ok models => p.generations occasion m models d'

end Command

namespace Project

variable {a : Address} {last : Ledger} {m : Manifest} {d : Disk} {mode : ParseMode}

theorem withMode_standard (a : Address) (mode : ParseMode) (strict : Bool) :
    ∃ mode', Command.withMode (standard a mode) strict = standard a mode' := by
  cases strict
  · exact ⟨mode, rfl⟩
  · exact ⟨.strict, rfl⟩

/-- What may come of opening a project in order: it is still in order, and its manifest has been
loaded if the project was opened. -/
inductive OpenOutcome (a : Address) (last : Ledger) (m : Manifest) :
    Except Failure (Project × Manifest) × Disk → Prop
  | failed (e : Failure) (d' : Disk) (h : Agrees a last m d'.tree) :
      OpenOutcome a last m (.error e, d')
  | done (mode : ParseMode) (d' : Disk) (h : Agrees a last m d'.tree) :
      OpenOutcome a last m (.ok (standard a mode, m), d')

theorem Agrees.openProject {root : Text} (h : Agrees a last m d.tree)
    (hload : ∀ q, Project.load root d = .ok q → ∃ mode, q = standard a mode) (strict : Bool) :
    OpenOutcome a last m ((Command.openProject root strict).on d) := by
  have hlocked : ∀ q, Project.load root d = .ok q →
      Agrees a last m ((Manifest.lock q.layout).on d).2.tree := fun q hq => by
    obtain ⟨mode, rfl⟩ := hload q hq
    exact h.confined <| confined_lock (Tree.isWay_of_get? h.root) (Disk.nul_not_mem_of_get? h.root)
      rfl d (Tree.Confined.refl h.root h.noLinks)
  have hopening := Command.opening root strict d
  generalize (Command.openProject root strict).on d = opened at hopening ⊢
  cases hopening with
  | notLoaded e => exact .failed e d h
  | notLocked q e d' hq hlock | notRead q e d' hq hlock =>
    have hagrees := hlocked q hq
    rw [hlock] at hagrees
    exact .failed e d' hagrees
  | opened q m' d' hq hlock hm =>
    have hagrees := hlocked q hq
    rw [hlock] at hagrees
    obtain ⟨mode, rfl⟩ := hload q hq
    obtain ⟨mode', hmode⟩ := withMode_standard a mode strict
    rw [hmode]
    cases (hagrees.load rfl).symm.trans hm
    exact .done mode' d' hagrees

variable {occasion : Occasion} {root : Text}

/-- **Generating**, one action or all of them, leaves a project in order. -/
theorem Agrees.outcome (h : Agrees a last m d.tree)
    (hname : isName occasion.transactionName = true)
    (hload : ∀ q, Project.load root d = .ok q → ∃ mode, q = standard a mode) (model : Option Text)
    (strict : Bool) :
    ∃ m', Agrees a ((Command.generations occasion root model strict d).foldl Ledger.enter last) m'
      (Command.outcome occasion (.generate root model strict) d).2.tree := by
  have hopen := h.openProject hload strict
  rw [Command.generations]
  cases model with
  | some path =>
    rw [Command.outcome_generate_one]
    generalize (Command.openProject root strict).on d = opened at hopen
    cases hopen with
    | failed e d' h' => exact ⟨m, h'⟩
    | done mode d' h' =>
      dsimp only
      rw [← batch_singleton]
      exact h'.batch hname [path]
  | none =>
    rw [Command.outcome_generate_all]
    generalize (Command.openProject root strict).on d = opened at hopen
    cases hopen with
    | failed e d' h' => exact ⟨m, h'⟩
    | done mode d' h' =>
      dsimp only
      cases (standard a mode).layout.discover d' with
      | error e => exact ⟨m, h'⟩
      | ok models =>
        dsimp only
        split
        · next hnone =>
          subst hnone
          exact ⟨m, h'⟩
        · exact h'.batch hname models

/-! ### The life of a project -/

/-- The life of the project at `a` under the default configuration, from a disk without manifest and
actions on, with the bytes that each model had when its action was generated last. There are no
links in the project, and its runs are on media of `media`. -/
inductive Life (media : Medium → Prop) (a : Address) : Ledger → Disk → Prop where
  /-- The project has no manifest and no actions yet. -/
  | start {d : Disk} (root : d.tree.get? a = some .directory) (noLinks : d.tree.NoLinksIn a)
      (manifest : d.tree.get? (manifestAddress a) = none)
      (actions : d.tree.get? (actionsAddress a) = none) : Life media a (fun _ => none) d
  /-- Models are created, edited, renamed or deleted. -/
  | edit {last : Ledger} {d d' : Disk} (before : Life media a last d)
      (same : ∀ x, a <:+ x → ¬ ("axioms" : Text) :: a <:+ x → d'.tree.get? x = d.tree.get? x)
      (noLinks : d'.tree.NoLinksIn a) : Life media a last d'
  /-- Actions are generated, for one model or for all, with success or not. -/
  | generate {last : Ledger} {d : Disk} (before : Life media a last d) (medium : Medium)
      (writes : media medium) (occasion : Occasion) (root : Text) (model : Option Text)
      (strict : Bool) (name : isName occasion.transactionName = true)
      (load : ∀ q, Project.load root d = .ok q → ∃ mode, q = standard a mode) :
      Life media a ((Command.generations occasion root model strict d).foldl Ledger.enter last)
        (Command.outcome occasion (.generate root model strict) d).2

theorem ne_axioms {n : Text} (h : n ≠ "axioms".toList) (y : Address) :
    ¬ ("axioms" : Text) :: a <:+ y ++ n :: a := fun hs => by
  have hlength : (("axioms" : Text) :: a).length = (n :: a).length := rfl
  have he : ("axioms" : Text) :: a = n :: a :=
    (List.suffix_of_suffix_length_le hs (List.suffix_append y _) hlength.le).eq_of_length hlength
  exact h (List.cons.inj he).1.symm

/-- What runs on some media may run on more. -/
theorem Life.mono {media media' : Medium → Prop} (hmedia : ∀ medium, media medium → media' medium)
    (h : Life media a last d) : Life media' a last d := by
  induction h with
  | start root noLinks manifest actions => exact .start root noLinks manifest actions
  | edit before same noLinks ih => exact .edit ih same noLinks
  | generate before medium writes occasion root model strict name load ih =>
    exact .generate ih medium (hmedia medium writes) occasion root model strict name load

/-- **Bundles and manifest agree** all through the life of a project in which no write fails. -/
theorem Life.agrees (h : Life (· = .ample) a last d) : ∃ m, Agrees a last m d.tree := by
  induction h with
  | start root noLinks manifest actions =>
    have horderly : Orderly a _ := ⟨root, noLinks, tidy_nothing actions, fun _ => manifest⟩
    exact ⟨{}, horderly.agrees_empty manifest⟩
  | @edit last d d' before same noLinks ih =>
    obtain ⟨m, hm⟩ := ih
    have hown : ∀ n, d'.tree.get? (n :: bridgeAddress a) = d.tree.get? (n :: bridgeAddress a) :=
      fun n => same _ (List.suffix_append [n, ".bridge".toList] a) (ne_axioms (by decide) [n])
    refine ⟨m, hm.congr ?_ noLinks (hown _) (hown _) fun y => ?_⟩
    · rw [same a (List.suffix_refl a) (Transaction.not_suffix_of_cons _ a), hm.root]
    · refine same _ ?_ (ne_axioms (by decide) y)
      exact (List.suffix_cons _ a).trans (List.suffix_append y (actionsAddress a))
  | generate before medium writes occasion root model strict name load ih =>
    obtain ⟨m, hm⟩ := ih
    subst writes
    exact hm.outcome name load model strict

/-- **Each mapped model has its bundle** if no write fails: the manifest can be loaded, and in the
directory of every artifact that it maps a model to are all four files of a bundle, whose sync record
names the model, carries the version and the time that are on record for the artifact, and has the
checksum of the bytes that the model had when its action was generated last. -/
theorem mapped_bundles_stand (h : Life (· = .ample) a last d) :
    ∃ m, Manifest.load (Layout.ofConfig (Path.ofAddress a) {}) d = .ok m ∧
      ∀ source artifact, m.artifactOf? source = some artifact →
        let dir := (Layout.ofConfig (Path.ofAddress a) {}).resolve artifact
        (∀ n ∈ [Bundle.descriptorName, Bundle.dockerfileName, Bundle.entrypointName,
          SyncRecord.fileName], d.isFile (Path.join dir n) = true) ∧
        ∃ record sync bytes, m.recordOf? artifact = some record ∧
          SyncRecord.load? d dir = .ok (some sync) ∧ sync.source = source ∧
          sync.version = record.version ∧ sync.generated = record.generatedAt ∧
          last source = some bytes ∧ sync.checksum = Sha256.checksum bytes := by
  obtain ⟨m, hm⟩ := h.agrees
  refine ⟨m, hm.load rfl, fun source artifact hmapped => ?_⟩
  obtain ⟨domain, slug, record, bytes, b, hdomain, hslug, rfl, hstands, hrecord, hlast, hsync⟩ :=
    hm.backed source artifact hmapped
  have hdir : (Layout.ofConfig (Path.ofAddress a) {}).resolve
      (Path.ofRelative (bundleAddress domain slug)) =
      Path.ofAddress (slug :: domain :: actionsAddress a) :=
    Path.join_ofRelative (Tree.isWay_of_get? hm.root)
      (place_bundleAddress (a := a) hdomain hslug).isWay (List.cons_ne_nil _ _)
  dsimp only
  rw [hdir]
  refine ⟨fun n hn => hstands.isFile hn, record, b.sync, bytes, hrecord, hstands.load?, ?_⟩
  rw [hsync]
  exact ⟨rfl, rfl, rfl, hlast, rfl⟩

/-- Writing a model file is an edit. -/
theorem Life.write {dir : Address} (h : Life (· = .ample) a last d)
    (hdir : ("axioms" : Text) :: a <:+ dir) (n : Text) (content : Bytes) (executable : Bool) :
    Life (· = .ample) a last { d with tree := d.tree.set n dir (.file content executable) } := by
  obtain ⟨m, hm⟩ := h.agrees
  refine .edit h (fun x _ hx => ?_) (hm.noLinks.set (by simp))
  rw [Tree.get?_set, if_neg]
  rintro ⟨-, rfl⟩
  exact hx (hdir.trans (List.suffix_cons _ _))

/-! ### A model that is edited after its action was generated -/

/-- Which action was generated, and what the manifest says of it after the edit. -/
theorem found_sampleEdited :
    Command.generations sampleOccasion ("/p" : Text) none false sampleDisk =
      [("axioms/x.fcm".toList, some [])] ∧
    ((Manifest.load sampleProject.layout sampleEdited).toOption.bind fun m =>
      m.artifactOf? "axioms/x.fcm") = some "actions/core/x".toList := by
  decide +kernel

/-- The bytes of the model when its action was generated. -/
def sampleLedger : Ledger := Ledger.enter (fun _ => none) ("axioms/x.fcm", some [])

theorem life_sampleGenerated : Life (· = .ample) ["p".toList] sampleLedger sampleGenerated := by
  have hstart : Life (· = .ample) ["p".toList] (fun _ => none) sampleDisk :=
    .start (by rfl) (fun b => linkFree_sampleDisk _) (by rfl) (by rfl)
  have hlife := hstart.generate .ample rfl sampleOccasion "/p" none false (by decide)
    fun q hq => ⟨.permissive, Except.ok.inj (hq.symm.trans load_sampleDisk)⟩
  rw [found_sampleEdited.1, ← sampleGenerated_eq] at hlife
  exact hlife

theorem life_sampleEdited : Life (· = .ample) ["p".toList] sampleLedger sampleEdited :=
  life_sampleGenerated.write (List.suffix_refl _) _ _ _

theorem mapped_bundles_stand_sampleEdited :
    ∃ m, Manifest.load sampleProject.layout sampleEdited = .ok m ∧
      m.artifactOf? "axioms/x.fcm" = some "actions/core/x".toList ∧
      ∃ sync, SyncRecord.load? sampleEdited "/p/actions/core/x" = .ok (some sync) ∧
        sync.checksum = Sha256.checksum [] := by
  obtain ⟨m, hm, hbundles⟩ := mapped_bundles_stand life_sampleEdited
  have hmapped := found_sampleEdited.2
  have hload : Manifest.load sampleProject.layout sampleEdited = .ok m := hm
  rw [hload] at hmapped
  obtain ⟨-, record, sync, bytes, -, hsync, -, -, -, hlast, hchecksum⟩ := hbundles _ _ hmapped
  obtain rfl : [] = bytes := Option.some.inj hlast
  exact ⟨m, hload, hmapped, sync, hsync, hchecksum⟩

/-! ### A manifest that could not be stored -/

/-- What the run that failed generated, and what it left. -/
theorem left_sampleUnsaved :
    @Command.generations sampleFull sampleLater ("/p" : Text) none false sampleEdited = [] ∧
    ((Manifest.load sampleProject.layout sampleUnsaved).toOption.map fun m =>
      (m.artifactOf? "axioms/x.fcm", (m.recordOf? "actions/core/x").map (·.generatedAt))) =
        some (some "actions/core/x".toList, some sampleOccasion.time) ∧
    ((SyncRecord.load? sampleUnsaved "/p/actions/core/x").toOption.map fun sync? =>
      sync?.map fun sync => (sync.generated, sync.checksum)) =
        some (some (sampleLater.time, Sha256.checksum (Text.utf8 "ID: X\n"))) := by
  decide +kernel

/-- The bundle is ahead of the manifest: the time of its sync record is not the one on record, and
its checksum is not that of the bytes that the model had when its action was last generated. -/
theorem bundle_ahead_sampleUnsaved :
    Life (fun _ => True) ["p".toList] sampleLedger sampleUnsaved ∧
    ∃ m record sync, Manifest.load sampleProject.layout sampleUnsaved = .ok m ∧
      m.artifactOf? "axioms/x.fcm" = some "actions/core/x".toList ∧
      m.recordOf? "actions/core/x" = some record ∧
      SyncRecord.load? sampleUnsaved "/p/actions/core/x" = .ok (some sync) ∧
      sync.generated ≠ record.generatedAt ∧
      ∀ bytes, sampleLedger "axioms/x.fcm" = some bytes →
        sync.checksum ≠ Sha256.checksum bytes := by
  obtain ⟨hgenerations, hmanifest, hsync⟩ := left_sampleUnsaved
  constructor
  · have hedited : Life (fun _ => True) ["p".toList] sampleLedger sampleEdited :=
      life_sampleEdited.mono fun _ _ => trivial
    have hlife := hedited.generate sampleFull trivial sampleLater "/p" none false (by decide)
      fun q hq => ⟨.permissive,
        Except.ok.inj (hq.symm.trans (eq_ok_of_toOption found_sampleUnsaved.1))⟩
    rw [hgenerations, ← sampleUnsaved_eq] at hlife
    exact hlife
  · obtain ⟨m, hm, hmanifest⟩ := Option.map_eq_some_iff.1 hmanifest
    obtain ⟨hartifact, hrecord⟩ := Prod.mk.inj hmanifest
    obtain ⟨record, hrecord, htime⟩ := Option.map_eq_some_iff.1 hrecord
    obtain ⟨sync?, hload?, hsync⟩ := Option.map_eq_some_iff.1 hsync
    obtain ⟨sync, rfl, hsync⟩ := Option.map_eq_some_iff.1 hsync
    obtain ⟨htime', hchecksum⟩ := Prod.mk.inj (Option.some.inj hsync)
    refine ⟨m, record, sync, eq_ok_of_toOption hm, hartifact, hrecord, eq_ok_of_toOption hload?,
      ?_, fun bytes hbytes => ?_⟩
    · rw [htime, htime']
      decide
    · obtain rfl : [] = bytes := Option.some.inj hbytes
      rw [hchecksum]
      decide +kernel

end Project

end ActionBundles
