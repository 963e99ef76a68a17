import ActionBundles.Proofs.BundlePlaces
import ActionBundles.Proofs.Commands

/-!
# The manifest over the life of a project

Whatever is generated, one model or all of them, with success or not, and whatever happens to other
files in between: the manifest of a project that started without one is a bijection between models
and artifacts. `Project.Course` is what a project goes through, `stored_manifest_bijective` the
theorem. Writes may fail in it; but none of the program's own entries may be a link, for through a
link at the draft of the manifest a model may become the manifest
(`manifest_not_bijective_sampleRedirected`).
-/

namespace ActionBundles

open ActionBundles.Action

/-! ### What a bundle is made of -/

theorem Bundle.isForeign_render (m : Model) (identity : Identity) (source : Text) (bytes : Bytes)
    (generatedAt image : Text) :
    let bundle := Bundle.render m identity source bytes generatedAt image
    Manifest.IsForeign bundle.descriptor.utf8 ∧ Manifest.IsForeign bundle.dockerfile.utf8 ∧
      Manifest.IsForeign bundle.entrypoint.utf8 :=
  ⟨Manifest.isForeign_of_numberSign _, Manifest.isForeign_of_numberSign _,
    Manifest.isForeign_of_numberSign _⟩

namespace Project

/-- A project under a configuration that can be used. -/
structure Usable (p : Project) : Prop where
  actions : p.layout.actions = p.config.actionsDir
  config : p.config.check = .ok ()

theorem check_of_read {path : Text} {bytes : Bytes} {c : Config}
    (h : Config.read path bytes = .ok c) : c.check = .ok () := by
  rw [Config.read] at h
  split at h
  · cases h
  · next version c' _ =>
    dsimp only at h
    split at h
    · obtain ⟨_, hcheck, h⟩ := exists_of_bind_eq_ok h
      cases h
      exact hcheck
    · cases h

/-- A project that is loaded is usable. -/
theorem usable_of_load {path : Text} {d : Disk} {p : Project} (h : load path d = .ok p) :
    p.Usable := by
  rw [load] at h
  obtain ⟨root, -, h⟩ := exists_of_bind_eq_ok h
  dsimp only at h
  split at h
  · obtain ⟨bytes, -, h⟩ := exists_of_bind_eq_ok h
    obtain ⟨config, hread, h⟩ := exists_of_bind_eq_ok h
    cases h
    exact ⟨rfl, check_of_read hread⟩
  · cases h
    exact ⟨rfl, rfl⟩

variable {p : Project} {occasion : Occasion} {path : Text} {d : Disk} {plan : Plan}

/-- What is known of a plan, whatever the model says. -/
structure Plan.Sound (p : Project) (plan : Plan) : Prop where
  artifact : plan.artifact = p.layout.artifact plan.identity.domain plan.identity.slug
  slug : Path.isStep plan.identity.slug = true
  domain : plan.identity.domain ≠ [] ∧ '/' ∉ plan.identity.domain
  descriptor : Manifest.IsForeign plan.bundle.descriptor.utf8
  dockerfile : Manifest.IsForeign plan.bundle.dockerfile.utf8
  entrypoint : Manifest.IsForeign plan.bundle.entrypoint.utf8

theorem sound_of_plan (hp : p.Usable) (h : p.plan occasion path d = .ok plan) :
    plan.Sound p := by
  rw [Project.plan] at h
  obtain ⟨file, -, h⟩ := exists_of_bind_eq_ok h
  obtain ⟨source, -, h⟩ := exists_of_bind_eq_ok h
  obtain ⟨text, -, h⟩ := exists_of_bind_eq_ok h
  obtain ⟨model, -, h⟩ := exists_of_bind_eq_ok h
  cases h
  obtain ⟨-, hdefault⟩ := Config.isInside_of_check hp.config
  obtain ⟨hdescriptor, hdockerfile, hentrypoint⟩ := Bundle.isForeign_render model
    (Identity.resolve model file p.config.defaultDomain) source text.utf8 occasion.time
    p.config.defaultImage
  refine ⟨rfl, Identity.isStep_resolve _ _ _, ?_, hdescriptor, hdockerfile, hentrypoint⟩
  rcases Identity.domain_resolve_cases model file p.config.defaultDomain with hstep | he
  · obtain ⟨hne, -, -, hslash⟩ := Path.isStep_iff.1 hstep
    exact ⟨hne, hslash⟩
  · dsimp only
    rw [he]
    exact hdefault

/-! ### Generating -/

variable {links : Bool} {a : Address} {m : Manifest}

/-- Publishing the bundle of a plan leaves the manifest guarded. -/
theorem guarded_publish [Medium] (hp : p.Usable) (hroot : p.layout.root = Path.ofAddress a)
    (hname : isName occasion.transactionName = true) (hplan : plan.Sound p) :
    Keeps (Guarded links a) (publish p.layout occasion plan) := by
  intro d h
  rw [publish, transactionsDir_eq h.isWay hroot]
  refine Transaction.guarded_run hname (fun tx d₁ htx hd => ?_) d h
  have hr : Path.IsWay (occasion.transactionName :: transactionsAddress a) :=
    Tree.isWay_of_get? hd.2.directory
  have hactions : Config.isInside p.layout.actions = true := by
    rw [hp.actions]
    exact (Config.isInside_of_check hp.config).1
  have hleads : ∀ n ∈ Transaction.bundleNames, Transaction.LeadsInto
      (occasion.transactionName :: transactionsAddress a)
      (Path.join tx.stagingDir (plan.artifact ++ '/' :: n)) n := fun n hn => by
    rw [hplan.artifact]
    exact Layout.leadsInto_artifact hr htx hactions hplan.domain hplan.slug hn
  have hguarded : ∀ t, Guarded links a t ∧ Transaction.Gathering
      (occasion.transactionName :: transactionsAddress a) t → Guarded links a t := fun _ h => h.1
  refine (Transaction.keeps_stage (hleads _ (by decide)) hplan.descriptor).before hguarded
    (fun _ => ?_) d₁ hd
  refine (Transaction.keeps_stage (hleads _ (by decide)) hplan.dockerfile).before hguarded
    fun _ => ?_
  refine (Transaction.keeps_stageExecutable (hleads _ (by decide)) hplan.entrypoint).before hguarded
    fun _ => ?_
  refine (Transaction.keeps_stage (hleads _ (by decide))
    (SyncRecord.isForeign_document plan.bundle.sync)).before hguarded fun _ d₂ hd₂ => ?_
  rw [on_during, hroot]
  exact Transaction.guarded_publish h.isWay htx d₂ hd₂

/-- **Generating one action** leaves the manifest guarded and bijective. -/
theorem guarded_generate [Medium] (hp : p.Usable) (hroot : p.layout.root = Path.ofAddress a)
    (hname : isName occasion.transactionName = true) (hm : m.Bijective)
    (h : Guarded links a d.tree) (path : Text) :
    Guarded links a ((p.generate occasion m path).on d).2.tree ∧
      ∀ r, ((p.generate occasion m path).on d).1 = .ok r → r.2.Bijective := by
  have hstored : ∀ {plan : Plan} {kept : Manifest},
      claim p.layout m plan.source plan.artifact d = .ok kept →
        (kept.upsert plan.source plan.artifact plan.record).Bijective := fun hclaim =>
    (bijective_claim hm hclaim).1.upsert (bijective_claim hm hclaim).2 rfl
  refine ⟨holds_of_generate h
    (fun plan hplan => guarded_publish hp hroot hname (sound_of_plan hp hplan) d h)
    (fun plan kept hclaim => guarded_save hroot (hstored hclaim)), fun r hr => ?_⟩
  obtain ⟨plan, kept, d₁, hcarried⟩ := exists_of_generate (Prod.ext hr rfl)
  rw [hcarried.manifest]
  exact hstored hcarried.claimed

/-- A batch leaves the manifest guarded, whichever of its models fail. -/
theorem guarded_batch [Medium] (hp : p.Usable) (hroot : p.layout.root = Path.ofAddress a)
    (hname : isName occasion.transactionName = true) {models : List Text} (hm : m.Bijective)
    (h : Guarded links a d.tree) : Guarded links a (p.batch occasion m models d).2.tree := by
  refine holds_of_batch (P := fun m d => m.Bijective ∧ Guarded links a d.tree)
    (Q := fun d => Guarded links a d.tree) (fun m d h => h.2)
    (fun m path d g m' d' h hgenerate => ?_) (fun m path d e d' h hgenerate => ?_) ⟨hm, h⟩ models
  · have hguarded := guarded_generate hp hroot hname h.1 h.2 path
    rw [hgenerate] at hguarded
    exact ⟨hguarded.2 _ rfl, hguarded.1⟩
  · have hguarded := (guarded_generate hp hroot hname h.1 h.2 path).1
    rw [hgenerate] at hguarded
    exact ⟨hguarded, fun m' hload => ⟨hguarded.bijective_of_load hroot hload, hguarded⟩⟩

/-! ### Commands -/

theorem Usable.withMode (hp : p.Usable) (strict : Bool) : (Command.withMode p strict).Usable := by
  cases strict
  · exact hp
  · exact ⟨hp.actions, hp.config⟩

/-- Opening a project gives a bijective manifest and leaves it guarded. -/
theorem guarded_openProject [Medium] {root : Text}
    (hroot : p.layout.root = Path.ofAddress a) (hload : ∀ q, load root d = .ok q → q = p)
    (h : Guarded links a d.tree) (strict : Bool) :
    Guarded links a ((Command.openProject root strict).on d).2.tree ∧
      ∀ r, ((Command.openProject root strict).on d).1 = .ok r →
        r.1 = Command.withMode p strict ∧ p.Usable ∧ r.2.Bijective := by
  have hguarded : Guarded links a ((Command.openProject root strict).on d).2.tree := by
    rcases Command.disk_openProject root strict d with hsame | ⟨q, hq, hlocked⟩
    · rw [hsame]
      exact h
    · obtain rfl := hload q hq
      rw [hlocked]
      exact guarded_lock hroot d h
  refine ⟨hguarded, fun r hr => ?_⟩
  have hopening := Command.opening root strict d
  generalize (Command.openProject root strict).on d = opened at hopening hguarded hr
  cases hopening with
  | opened q m d' hq hlock hm =>
    obtain rfl := hload q hq
    cases hr
    exact ⟨rfl, usable_of_load hq, hguarded.bijective_of_load hroot hm⟩
  | _ => cases hr

/-- **Generating**, one action or all of them, leaves the manifest guarded. -/
theorem guarded_outcome [Medium] {root : Text} {model : Option Text} {strict : Bool}
    (hroot : p.layout.root = Path.ofAddress a) (hname : isName occasion.transactionName = true)
    (hload : ∀ q, load root d = .ok q → q = p) (h : Guarded links a d.tree) :
    Guarded links a (Command.outcome occasion (.generate root model strict) d).2.tree := by
  have hopen := guarded_openProject hroot hload h strict
  cases model with
  | some model =>
    rw [Command.outcome_generate_one]
    generalize (Command.openProject root strict).on d = opened at hopen
    obtain ⟨e | ⟨q, m⟩, d'⟩ := opened
    · exact hopen.1
    · obtain ⟨rfl, hp, hm⟩ := hopen.2 _ rfl
      have hroot' : (Command.withMode p strict).layout.root = Path.ofAddress a := by
        rw [layout_withMode, hroot]
      exact (guarded_generate (hp.withMode strict) hroot' hname hm hopen.1 _).1
  | none =>
    rw [Command.outcome_generate_all]
    generalize (Command.openProject root strict).on d = opened at hopen
    obtain ⟨e | ⟨q, m⟩, d'⟩ := opened
    · exact hopen.1
    · obtain ⟨rfl, hp, hm⟩ := hopen.2 _ rfl
      have hroot' : (Command.withMode p strict).layout.root = Path.ofAddress a := by
        rw [layout_withMode, hroot]
      dsimp only
      cases (Command.withMode p strict).layout.discover d' with
      | error e => exact hopen.1
      | ok models =>
        dsimp only
        split
        · exact hopen.1
        · exact guarded_batch (hp.withMode strict) hroot' hname hm hopen.1

/-! ### The course of a project -/

/-- The course of the project at `a` under one configuration, from a disk without a manifest on. Its
runs are on media of `media`, and its tree is one of `trees` at the start and after every edit. -/
inductive Course (media : Medium → Prop) (trees : Tree → Prop) (p : Project) (a : Address) :
    Disk → Prop where
  /-- The project has no manifest yet. -/
  | start {d : Disk} (root : d.tree.get? a = some .directory)
      (manifest : d.tree.get? (manifestAddress a) = none) (tree : trees d.tree) :
      Course media trees p a d
  /-- Models, or any other files, are created, edited, renamed or deleted. -/
  | edit {d d' : Disk} (before : Course media trees p a d) (root : d'.tree.get? a = some .directory)
      (manifest : d'.tree.get? (manifestAddress a) = d.tree.get? (manifestAddress a))
      (tree : trees d'.tree) : Course media trees p a d'
  /-- Actions are generated, for one model or for all, with success or not. -/
  | generate {d : Disk} (before : Course media trees p a d) (medium : Medium)
      (writes : media medium) (occasion : Occasion) (root : Text) (model : Option Text)
      (strict : Bool) (name : isName occasion.transactionName = true)
      (load : ∀ q, Project.load root d = .ok q → q = p) :
      Course media trees p a (Command.outcome occasion (.generate root model strict) d).2

/-- The program's own entries are no links, for through one of them the manifest could be the file
of a model and be edited with it. Others may be links if `links` is set. -/
structure OwnUnlinked (links : Bool) (a : Address) (t : Tree) : Prop where
  own : ∀ b ∈ ownAddresses a, ∀ target, t.get? b ≠ some (.link target)
  linkFree : links = false → ∀ b target, t.get? b ≠ some (.link target)

/-- The course of a project in which no write fails and the program's own entries are no links. -/
def History (links : Bool) (p : Project) (a : Address) : Disk → Prop :=
  Course (· = .ample) (OwnUnlinked links a) p a

theorem Course.guarded {media : Medium → Prop} (hroot : p.layout.root = Path.ofAddress a)
    (h : Course media (OwnUnlinked links a) p a d) : Guarded links a d.tree := by
  induction h with
  | start root manifest tree =>
    refine ⟨root, tree.own, fun content mode hfile => ?_, tree.linkFree⟩
    cases manifest.symm.trans hfile
  | edit before root manifest tree ih =>
    exact ⟨root, tree.own, fun content mode hfile => ih.stored content mode (manifest ▸ hfile),
      tree.linkFree⟩
  | generate before medium writes occasion root model strict name load ih =>
    exact guarded_outcome hroot name load ih

/-- What runs on some media may run on more. -/
theorem Course.mono {media media' : Medium → Prop} {trees : Tree → Prop}
    (hmedia : ∀ medium, media medium → media' medium) (h : Course media trees p a d) :
    Course media' trees p a d := by
  induction h with
  | start root manifest tree => exact .start root manifest tree
  | edit before root manifest tree ih => exact .edit ih root manifest tree
  | generate before medium writes occasion root model strict name load ih =>
    exact .generate ih medium (hmedia medium writes) occasion root model strict name load

/-- Writing a file that is not the manifest is an edit. -/
theorem Course.write {media : Medium → Prop} {dir : Address}
    (hl : p.layout.root = Path.ofAddress a) (h : Course media (OwnUnlinked links a) p a d)
    (hdir : a <:+ dir) (n : Text) (hn : n :: dir ≠ manifestAddress a) (content : Bytes)
    (executable : Bool) :
    Course media (OwnUnlinked links a) p a
      { d with tree := d.tree.set n dir (.file content executable) } := by
  have hguarded := h.guarded hl
  have hlink : ∀ b target, d.tree.get? b ≠ some (.link target) →
      (d.tree.set n dir (.file content executable)).get? b ≠ some (.link target) := by
    intro b target hnot
    rw [Tree.get?_set]
    split
    · simp
    · exact hnot
  refine .edit h ?_ ?_ ⟨fun b hb target => hlink b target (hguarded.unlinked b hb target),
    fun hfree b target => hlink b target (hguarded.linkFree hfree b target)⟩
  · rw [Tree.get?_set, if_neg]
    · exact hguarded.root
    · rintro ⟨-, rfl⟩
      exact absurd hdir.length_le (by simp)
  · rw [Tree.get?_set, if_neg fun he => hn he.2.symm]

/-- **The manifest stays a bijection** between models and artifacts, also if writes fail: no mapping
lacks its record, no record its mapping, and no two models share an artifact. Where there are no
links, it can always be loaded, unless a directory stands in its place. -/
theorem stored_manifest_bijective (hroot : p.layout.root = Path.ofAddress a)
    (h : Course (fun _ => True) (OwnUnlinked links a) p a d) :
    (∀ m, Manifest.load p.layout d = .ok m →
      (∀ source artifact, m.artifactOf? source = some artifact ↔
        ∃ record, m.recordOf? artifact = some record ∧ record.source = source) ∧
      (∀ source artifact, m.artifactOf? source = some artifact →
        (m.recordOf? artifact).isSome) ∧
      (∀ artifact record, m.recordOf? artifact = some record →
        m.artifactOf? record.source = some artifact) ∧
      ∀ source other artifact, m.artifactOf? source = some artifact →
        m.artifactOf? other = some artifact → source = other) ∧
    (links = false → d.tree.get? (manifestAddress a) ≠ some .directory →
      ∃ m, Manifest.load p.layout d = .ok m) := by
  have hguarded := h.guarded hroot
  refine ⟨fun m hload => ?_, fun hlinks hdir => ?_⟩
  · have hm := hguarded.bijective_of_load hroot hload
    refine ⟨hm, fun source artifact hs => ?_, fun artifact record hr => hm.mapped hr,
      fun source other artifact hs ho => hm.injective hs ho⟩
    obtain ⟨record, hrecord, -⟩ := hm.recorded hs
    rw [hrecord]
    rfl
  · subst hlinks
    exact hguarded.exists_load hroot hdir

/-! ### A project with one model -/

/-- A disk with the project `/p`, which has one model, without any text. -/
def sampleDisk : Disk where
  tree := ((Tree.empty.set "p" [] .directory).set "axioms" ["p"] .directory).set "x.fcm"
    ["axioms", "p"] (.file [] false)

/-- The project on this disk. -/
def sampleProject : Project := ⟨.ofConfig ("/p" : Text) {}, {}⟩

/-- When its actions are generated. -/
def sampleOccasion : Occasion := ⟨"2024-01-01T00:00:00Z", "txn-abcdef"⟩

/-- The disk after its actions are generated. -/
def sampleGenerated : Disk :=
  (Command.outcome sampleOccasion (.generate ("/p" : Text) none false) sampleDisk).2

theorem sampleGenerated_eq : sampleGenerated =
    (Command.outcome sampleOccasion (.generate ("/p" : Text) none false) sampleDisk).2 := rfl

theorem linkFree_sampleDisk (b : Address) (target : Text) :
    sampleDisk.tree.get? b ≠ some (.link target) := by
  refine Tree.noLinks_set (Tree.noLinks_set (Tree.noLinks_set Tree.noLinks_empty ?_) ?_) ?_ b
    target <;> simp

/-- The project that is loaded there. -/
theorem load_sampleDisk : load "/p" sampleDisk = .ok sampleProject := by rfl

theorem history_sampleGenerated : History false sampleProject ["p".toList] sampleGenerated := by
  have hstart : History false sampleProject ["p".toList] sampleDisk :=
    .start (by rfl) (by rfl) ⟨fun b _ => linkFree_sampleDisk b, fun _ => linkFree_sampleDisk⟩
  exact sampleGenerated_eq ▸ hstart.generate .ample rfl sampleOccasion "/p" none false (by decide)
    fun q hq => Except.ok.inj (hq.symm.trans load_sampleDisk)

/-- What a later command finds there. -/
theorem found_sampleGenerated :
    (Command.outcome sampleOccasion (.generate ("/p" : Text) none false)
      sampleDisk).1.result.toOption = some true ∧
    (load ("/p" : Text) sampleGenerated).toOption = some sampleProject ∧
    (sampleProject.layout.discover sampleGenerated).toOption =
      some ["/p/axioms/x.fcm".toList] ∧
    sampleGenerated.tree.get? (manifestAddress ["p".toList]) ≠ some .directory ∧
    ((Manifest.load sampleProject.layout sampleGenerated).toOption.bind fun m =>
      m.artifactOf? "axioms/x.fcm") = some "actions/core/x".toList := by
  decide +kernel

/-- The sample project after its model was edited. -/
def sampleEdited : Disk :=
  { sampleGenerated with
    tree := sampleGenerated.tree.set "x.fcm" ["axioms", "p"] (.file (Text.utf8 "ID: X\n") false) }

/-- A later run. -/
def sampleLater : Occasion := ⟨"2024-01-02T00:00:00Z", "txn-bcdefg"⟩

/-- A medium that has no room for a manifest any more. -/
abbrev sampleFull : Medium := .fullAt (· = draftAddress ["p".toList])

/-- The sample project after its actions were generated on this medium. -/
def sampleUnsaved : Disk :=
  (@Command.outcome sampleFull sampleLater (.generate ("/p" : Text) none false) sampleEdited).2

theorem sampleUnsaved_eq : sampleUnsaved = (@Command.outcome sampleFull sampleLater
    (.generate ("/p" : Text) none false) sampleEdited).2 := rfl

/-- What was loaded for this run and what it left. -/
theorem found_sampleUnsaved :
    (load ("/p" : Text) sampleEdited).toOption = some sampleProject ∧
    sampleUnsaved.tree.get? (draftAddress ["p".toList]) = some (.file [] false) ∧
    sampleUnsaved.tree.get? (manifestAddress ["p".toList]) ≠ some .directory := by
  decide +kernel

theorem course_sampleUnsaved :
    Course (fun _ => True) (OwnUnlinked false ["p".toList]) sampleProject ["p".toList]
      sampleUnsaved := by
  have hgenerated := Course.mono (fun _ _ => trivial) history_sampleGenerated
  have hmodels : ["p".toList] <:+ ["axioms".toList, "p".toList] := List.suffix_cons _ _
  have hedited := hgenerated.write (by rfl) hmodels "x.fcm" (by decide) (Text.utf8 "ID: X\n") false
  refine sampleUnsaved_eq ▸ .generate hedited sampleFull trivial sampleLater "/p" none false
    (by decide) fun q hq => ?_
  exact Except.ok.inj (hq.symm.trans (eq_ok_of_toOption found_sampleUnsaved.1))

/-- After a run that could not store the manifest, a bijection is still stored. -/
theorem stored_manifest_bijective_sampleUnsaved :
    sampleUnsaved.tree.get? (draftAddress ["p".toList]) = some (.file [] false) ∧
    ∃ m, Manifest.load sampleProject.layout sampleUnsaved = .ok m ∧
      ∀ source artifact, m.artifactOf? source = some artifact ↔
        ∃ record, m.recordOf? artifact = some record ∧ record.source = source := by
  obtain ⟨hbijective, hloads⟩ := stored_manifest_bijective (by rfl) course_sampleUnsaved
  obtain ⟨-, hdraft, hfile⟩ := found_sampleUnsaved
  obtain ⟨m, hm⟩ := hloads rfl hfile
  exact ⟨hdraft, m, hm, (hbijective m hm).1⟩

/-! ### A link at the draft of the manifest -/

/-- The sample project with a link to a model at the draft of the manifest. -/
def sampleModelDraft : Disk where
  tree := (sampleDisk.tree.set ".bridge" ["p"] .directory).set ".manifest.json.tmp"
    [".bridge", "p"] (.link "../axioms/y.fcm")

/-- This project after the action of its first model was generated. -/
def sampleThroughLink : Disk :=
  (Command.outcome sampleOccasion (.generate ("/p" : Text) (some "axioms/x.fcm") false)
    sampleModelDraft).2

theorem sampleThroughLink_eq : sampleThroughLink =
    (Command.outcome sampleOccasion (.generate ("/p" : Text) (some "axioms/x.fcm") false)
      sampleModelDraft).2 := rfl

/-- This project after its second model was edited. -/
def sampleRedirected : Disk :=
  { sampleThroughLink with
    tree := sampleThroughLink.tree.set "y.fcm" ["axioms", "p"] (.file (Text.utf8
      "\x7b\"schema_version\":1,\"mappings\":\x7b\"a\":\"b\"\x7d,\"generated\":\x7b\x7d\x7d") false) }

/-- What was loaded for the run, and what is in the manifest after the edit. -/
theorem found_sampleRedirected :
    (load ("/p" : Text) sampleModelDraft).toOption = some sampleProject ∧
    sampleRedirected.tree.get? ["p".toList] = some .directory ∧
    sampleRedirected.tree.get? (manifestAddress ["p".toList]) =
      sampleThroughLink.tree.get? (manifestAddress ["p".toList]) ∧
    ((Manifest.load sampleProject.layout sampleRedirected).toOption.map fun m =>
      (m.artifactOf? "a", m.recordOf? "b")) = some (some "b".toList, none) := by
  decide +kernel

/-- Storing the manifest has put the link in its place, and editing the model has edited it: what is
loaded maps a model to an artifact that has no record. No write has failed. -/
theorem manifest_not_bijective_sampleRedirected :
    Course (· = .ample) (fun _ => True) sampleProject ["p".toList] sampleRedirected ∧
    ∃ m, Manifest.load sampleProject.layout sampleRedirected = .ok m ∧
      ¬ ∀ source artifact, m.artifactOf? source = some artifact ↔
        ∃ record, m.recordOf? artifact = some record ∧ record.source = source := by
  obtain ⟨hload, hroot, hmanifest, hmapped⟩ := found_sampleRedirected
  constructor
  · have hstart : Course (· = .ample) (fun _ => True) sampleProject ["p".toList] sampleModelDraft :=
      .start (by rfl) (by rfl) trivial
    have hgenerated : Course (· = .ample) (fun _ => True) sampleProject ["p".toList]
        sampleThroughLink :=
      sampleThroughLink_eq ▸ hstart.generate .ample rfl sampleOccasion "/p" (some "axioms/x.fcm")
        false (by decide) fun q hq => Except.ok.inj (hq.symm.trans (eq_ok_of_toOption hload))
    exact .edit hgenerated hroot hmanifest trivial
  · obtain ⟨m, hm, hmapped⟩ := Option.map_eq_some_iff.1 hmapped
    obtain ⟨hartifact, hrecord⟩ := Prod.mk.inj hmapped
    refine ⟨m, eq_ok_of_toOption hm, fun hbijective => ?_⟩
    obtain ⟨record, hrecord', -⟩ := (hbijective "a" "b").1 hartifact
    cases hrecord.symm.trans hrecord'

end Project

end ActionBundles
