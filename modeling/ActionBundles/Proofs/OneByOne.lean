import ActionBundles.Proofs.GenerationAlike
import ActionBundles.Proofs.ManifestHistory
import ActionBundles.Proofs.Opening

/-!
# A batch and one run for each model

A batch keeps the manifest in memory from one action to the next and reads it again only after a
failure; a run of its own for each model reads it every time. In a project without links both come
to the same: every model succeeds in one if it does in the other, and they leave the same files up
to times (`Command.batch_eq_oneByOne`). The disks stay alike from one model to the next, and what
the batch has in memory is what is stored (`Project.InStep`).

A link in the place of the manifest's draft breaks this: storing the manifest moves the link itself
into the place of the manifest, so it is not what was written that is read afterwards.
-/

namespace ActionBundles

open ActionBundles.Action

/-- Whether the files at an address of two trees differ at most in times; there is none in one of
them if there is none in the other. -/
def Tree.FileAlike (t t' : Tree) (x : Address) : Prop :=
  ∀ mode, (∀ content, t.get? x = some (.file content mode) →
      ∃ content', t'.get? x = some (.file content' mode) ∧ ContentAlike content content') ∧
    ∀ content', t'.get? x = some (.file content' mode) →
      ∃ content, t.get? x = some (.file content mode) ∧ ContentAlike content content'

namespace Tree

variable {t t' : Tree} {x : Address}

theorem FileAlike.congr {t'' : Tree} (h : t.FileAlike t' x)
    (hsame : ∀ content mode,
      t'.get? x = some (.file content mode) ↔ t''.get? x = some (.file content mode)) :
    t.FileAlike t'' x := fun mode => by
  simp only [← hsame]
  exact h mode

theorem Alike.fileAlike (h : t.Alike id t') (x : Address) : t.FileAlike t' x := fun mode => by
  have hx := h x
  rw [id_eq] at hx
  refine ⟨fun content hfile => ?_, fun content' hfile => ?_⟩
  · rw [hfile] at hx
    generalize t'.get? x = found at hx
    cases hx with
    | some hnode =>
      cases hnode with
      | file hcontent => exact ⟨_, rfl, hcontent⟩
  · rw [hfile] at hx
    generalize t.get? x = found at hx
    cases hx with
    | some hnode =>
      cases hnode with
      | file hcontent => exact ⟨_, rfl, hcontent⟩

end Tree

namespace Command

variable {root : Text} {strict : Bool} {occasion : Occasion} {model : Text} {d d' : Disk}
  {p : Project} {m : Manifest}

/-! ### Runs for one model each -/

/-- Whether a command succeeds. -/
def succeeds (occasion : Occasion) (command : Command) (d : Disk) : Bool :=
  (outcome occasion command d).1.exitCode == 0

/-- One run after another, each for one model and at its own time: which of them succeed, and the
disk that they leave. -/
def oneByOne (root : Text) (strict : Bool) : List (Occasion × Text) → Disk → List Bool × Disk
  | [], d => ([], d)
  | (occasion, model) :: rest, d =>
    let command := generate root (some model) strict
    let others := oneByOne root strict rest (outcome occasion command d).2
    (succeeds occasion command d :: others.1, others.2)

/-- A run for one model does nothing before the project is opened. -/
theorem outcome_congr
    (h : (openProject root strict).on d' = (openProject root strict).on d) :
    outcome occasion (.generate root (some model) strict) d' =
      outcome occasion (.generate root (some model) strict) d := by
  rw [outcome, run, ofWork_on, outcome, run, ofWork_on, runGenerate, on_bind, on_bind, h]

theorem oneByOne_congr {steps : List (Occasion × Text)} (hne : steps ≠ [])
    (h : (openProject root strict).on d' = (openProject root strict).on d) :
    oneByOne root strict steps d' = oneByOne root strict steps d := by
  obtain ⟨⟨occasion, model⟩, rest, rfl⟩ := List.exists_cons_of_ne_nil hne
  rw [oneByOne, oneByOne, succeeds, succeeds, outcome_congr h]

/-- A run for one model of a project that can be opened succeeds if the action is generated. -/
theorem succeeds_of_open {d₁ : Disk} (h : (openProject root strict).on d = (.ok (p, m), d₁)) :
    succeeds occasion (.generate root (some model) strict) d =
      ((p.generate occasion m model).on d₁).1.isOk := by
  rw [succeeds, outcome, run, ofWork_on, runGenerate, on_bind, h]
  dsimp only
  rw [on_bind]
  generalize (p.generate occasion m model).on d₁ = generated
  obtain ⟨e | ⟨g, m'⟩, d₂⟩ := generated <;> rfl

theorem oneByOne_cons {d₁ : Disk} (h : (openProject root strict).on d = (.ok (p, m), d₁))
    (rest : List (Occasion × Text)) :
    oneByOne root strict ((occasion, model) :: rest) d =
      (((p.generate occasion m model).on d₁).1.isOk ::
          (oneByOne root strict rest ((p.generate occasion m model).on d₁).2).1,
        (oneByOne root strict rest ((p.generate occasion m model).on d₁).2).2) := by
  rw [oneByOne, succeeds_of_open h, outcome_generate_one, h]

theorem fails_of_open {e : Failure} {d₁ : Disk}
    (h : (openProject root strict).on d = (.error e, d₁)) :
    succeeds occasion (.generate root (some model) strict) d = false := by
  rw [succeeds, outcome, run, ofWork_on, runGenerate, on_bind, h]
  rfl

/-- Where the project cannot be opened, no run does anything. -/
theorem oneByOne_of_stuck {e : Failure} (h : (openProject root strict).on d = (.error e, d))
    (steps : List (Occasion × Text)) :
    oneByOne root strict steps d = (List.replicate steps.length false, d) := by
  induction steps with
  | nil => rfl
  | cons step rest ih =>
    obtain ⟨occasion, model⟩ := step
    rw [oneByOne, fails_of_open h, outcome_generate_one, h]
    dsimp only
    rw [ih]
    rfl

/-- Which of so many models a batch has generated; one that has been stopped leaves out the last. -/
def successes (total : Nat) (batch : Project.Batch) : List Bool :=
  batch.map (·.2.isOk) ++ List.replicate (total - batch.length) false

theorem successes_cons (total : Nat) (path : Text) (result : Except Failure Generated)
    (batch : Project.Batch) :
    successes (total + 1) ((path, result) :: batch) = result.isOk :: successes total batch := by
  rw [successes, successes, List.map_cons, List.length_cons, Nat.add_sub_add_right,
    List.cons_append]

end Command

namespace Project

variable {root : Text} {strict : Bool} {a b : Address} {p q : Project}
  {occasion occasion' : Occasion} {m m' : Manifest} {path name : Text} {names models : List Text}
  {d₀ d d' : Disk} {content : Bytes} {mode : Bool}

/-! ### What generating an action leaves alone -/

theorem not_reach_lock {c : Address} : ¬ Reach a c (lockAddress a) := by
  have hbundle : ∀ n ∈ Transaction.bundleNames, n ≠ "manifest.lock".toList ∧
      Transaction.draftName n ≠ "manifest.lock".toList := by decide
  rintro (he | he | ⟨n, hn, he | he⟩)
  · exact absurd (List.cons.inj he).1 (by decide)
  · exact absurd (List.cons.inj he).1 (by decide)
  · exact (hbundle n hn).1 (List.cons.inj he).1.symm
  · exact (hbundle n hn).2 (List.cons.inj he).1.symm

section Generate

variable (hq : q.Usable) (hl : q.layout.root = Path.ofAddress a)
  (hname : isName occasion.transactionName = true) (hroot : d.tree.get? a = some .directory)
  (hno : d.tree.NoLinksIn a)

include hq hl hname hroot hno

theorem Locked.generate (h : Locked a d.tree) :
    Locked a ((q.generate occasion m path).on d).2.tree := by
  obtain ⟨content, mode, hfile⟩ := h
  obtain ⟨c, -, hchanged⟩ : ∃ c, _ ∧ d.tree.Changed (Reach a c) (Ways a c) a
      ((q.generate occasion m path).on d).2.tree := changed_generate hq hl hname hroot hno
  exact ⟨content, mode, (hchanged.get?_file_iff not_reach_lock content mode).2 hfile⟩

/-- A name for transactions stays free if the bundle is not where its transaction would be. -/
theorem free_of_generate
    (havoids : ∀ plan, q.plan occasion path d = .ok plan → plan.Avoids a name)
    (hfree : d.tree.get? (name :: transactionsAddress a) = none) :
    ((q.generate occasion m path).on d).2.tree.get? (name :: transactionsAddress a) = none := by
  cases hplan : q.plan occasion path d with
  | error e => rwa [generate, on_bind, on_consult, hplan]
  | ok plan =>
    obtain ⟨c, hc, hchanged⟩ : ∃ c, _ ∧ d.tree.Changed (Reach a c) (Ways a c) a
        ((q.generate occasion m path).on d).2.tree := changed_generate hq hl hname hroot hno
    obtain rfl := hc plan hplan
    exact free_of_changed (havoids plan hplan) hchanged hfree

/-- What may come of the manifest when an action is generated. -/
inductive ManifestOutcome (l : Layout) (a : Address) (m : Manifest) :
    Except Failure (Generated × Manifest) × Disk → Prop
  /-- The one that is returned has been stored. -/
  | stored (g : Generated) (m₁ : Manifest) (d₁ : Disk) (h : Manifest.load l d₁ = .ok m₁) :
      ManifestOutcome l a m (.ok (g, m₁), d₁)
  /-- It is as it was. -/
  | kept (e : Failure) (d₁ : Disk) (h : Manifest.load l d₁ = .ok m) :
      ManifestOutcome l a m (.error e, d₁)
  /-- A directory has been made in its place. -/
  | taken (e : Failure) (d₁ : Disk) (h : d₁.tree.get? (manifestAddress a) = some .directory) :
      ManifestOutcome l a m (.error e, d₁)

theorem manifest_outcome (hload : Manifest.load q.layout d = .ok m) :
    ManifestOutcome q.layout a m ((q.generate occasion m path).on d) := by
  have hsteady : Steady a d.tree ((q.generate occasion m path).on d).2.tree :=
    steady_generate hl hroot hno hq hname
  generalize hon : (q.generate occasion m path).on d = done at hsteady
  obtain ⟨e | ⟨g, m₁⟩, d₁⟩ := done
  · rcases manifestStays_of_generate_error hq hl hname hroot hno hon with hsame | hdir
    · exact .kept e d₁ ((load_congr hl hroot hno hsteady.root hsteady.noLinks hsame).trans hload)
    · exact .taken e d₁ hdir
  · exact .stored g m₁ d₁ (load_of_generate hq hl hname hroot hno hon)

end Generate

/-! ### Two disks in step -/

/-- Whether `q` is the project that is opened at `a` whenever a run is under way and the lock is
there. -/
structure Opens (root : Text) (strict : Bool) (a : Address) (d₀ : Disk) (q : Project) : Prop where
  usable : q.Usable
  rooted : q.layout.root = Path.ofAddress a
  opens : ∀ d, Steady a d₀.tree d.tree → d.workingDirectory = d₀.workingDirectory →
    Locked a d.tree → (Command.openProject root strict).on d =
      ((Manifest.load q.layout d).map fun m => (q, m), d)

theorem opens_of_load (hfind : d.find root = .ok (a, .directory))
    (hroot : d.tree.get? a = some .directory) (hno : d.tree.NoLinksIn a)
    (hload : load root d = .ok p) : Opens root strict a d (Command.withMode p strict) where
  usable := (usable_of_load hload).withMode strict
  rooted := by
    rw [layout_withMode]
    exact root_of_load hfind hload
  opens d' hsteady hstays hlocked := by
    rw [layout_withMode]
    have hlocated : Located root a p d' := ⟨(load_steady hfind hroot hno hstays hsteady).trans hload,
      root_of_load hfind hload, hsteady.root, hsteady.noLinks⟩
    exact hlocated.openProject_on hlocked

/-- A name that a transaction may have whenever the models are generated: nothing has it, and no
bundle is where its transaction would be. -/
structure FreeName (q : Project) (occasion : Occasion) (models : List Text) (a : Address)
    (d : Disk) (name : Text) : Prop where
  isName : isName name = true
  free : d.tree.get? (name :: transactionsAddress a) = none
  avoided : ∀ path ∈ models, ∀ plan, q.plan occasion path d = .ok plan → plan.Avoids a name

/-- The disk of a batch and the one of single runs, while both are under way. -/
structure Parallel (a : Address) (names : List Text) (d₀ d d' : Disk) : Prop where
  alike : d.tree.Alike id d'.tree
  steady : Steady a d₀.tree d.tree
  steady' : Steady a d₀.tree d'.tree
  workingDirectory : d'.workingDirectory = d₀.workingDirectory
  locked : Locked a d'.tree
  free : ∀ name ∈ names, d.tree.get? (name :: transactionsAddress a) = none

/-- **The batch and the single runs in step**: the manifest `m` that the batch has in memory is the
one that is stored, and up to times it is the one that the next run will read. -/
structure InStep (l : Layout) (a : Address) (names : List Text) (d₀ : Disk) (m m' : Manifest)
    (d d' : Disk) : Prop extends Parallel a names d₀ d d' where
  manifest : Manifest.load l d = .ok m
  manifest' : Manifest.load l d' = .ok m'
  manifests : m.Alike m'

/-- What comes of generating the action of a model in a batch and in a run of its own. -/
inductive StepOutcome (root : Text) (strict : Bool) (l : Layout) (a : Address) (names : List Text)
    (d₀ : Disk) (m m' : Manifest) :
    Except Failure (Generated × Manifest) × Disk → Except Failure (Generated × Manifest) × Disk → Prop
  /-- Both succeed. -/
  | done (g : Generated) (m₁ m₁' : Manifest) (d₁ d₁' : Disk)
      (h : InStep l a names d₀ m₁ m₁' d₁ d₁') :
      StepOutcome root strict l a names d₀ m m' (.ok (g, m₁), d₁) (.ok (g, m₁'), d₁')
  /-- Both fail and leave the manifest. -/
  | failed (e e' : Failure) (d₁ d₁' : Disk) (h : InStep l a names d₀ m m' d₁ d₁') :
      StepOutcome root strict l a names d₀ m m' (.error e, d₁) (.error e', d₁')
  /-- Both fail and leave a directory in the place of the manifest. -/
  | stopped (e e' stop stop' : Failure) (d₁ d₁' : Disk) (h : d₁.tree.Alike id d₁'.tree)
      (hstop : Manifest.load l d₁ = .error stop)
      (hstuck : (Command.openProject root strict).on d₁' = (.error stop', d₁')) :
      StepOutcome root strict l a names d₀ m m' (.error e, d₁) (.error e', d₁')

theorem InStep.step (h : InStep q.layout a names d₀ m m' d d') (hq : Opens root strict a d₀ q)
    (hnames : ∀ name ∈ names, FreeName q occasion models a d₀ name)
    (hn : occasion.transactionName ∈ names) (hn' : occasion'.transactionName ∈ names)
    (hpath : path ∈ models) (hmodel : IsModel a path b)
    (hget : d₀.tree.get? (b ++ a) = some (.file content mode)) :
    StepOutcome root strict q.layout a names d₀ m m' ((q.generate occasion m path).on d)
      ((q.generate occasion' m' path).on d') := by
  have hname := (hnames _ hn).isName
  have hname' := (hnames _ hn').isName
  have hnow := (hmodel.get?_iff h.steady).2 hget
  have hnow' := (hmodel.get?_iff h.steady').2 hget
  have havoids : ∀ name ∈ names, ∀ plan, q.plan occasion path d = .ok plan →
      plan.Avoids a name := fun name hmem plan hplan => by
    rw [hmodel.plan hq.rooted hnow, ← hmodel.plan hq.rooted hget] at hplan
    exact (hnames name hmem).avoided path hpath plan hplan
  have halike := generate_alike hq.usable hq.rooted hname hname' h.steady.root h.steady.noLinks
    h.alike h.manifests (h.free _ hn) (h.free _ hn') hmodel hnow hnow'
    fun plan hplan => ⟨havoids _ hn plan hplan, havoids _ hn' plan hplan⟩
  have hparallel : Parallel a names d₀ ((q.generate occasion m path).on d).2
      ((q.generate occasion' m' path).on d').2 :=
    ⟨halike.2,
      h.steady.trans (steady_generate hq.rooted h.steady.root h.steady.noLinks hq.usable hname),
      h.steady'.trans (steady_generate hq.rooted h.steady'.root h.steady'.noLinks hq.usable hname'),
      (stays_generate q occasion' m' path d').trans h.workingDirectory,
      h.locked.generate hq.usable hq.rooted hname' h.steady'.root h.steady'.noLinks,
      fun name hmem => free_of_generate hq.usable hq.rooted hname h.steady.root h.steady.noLinks
        (havoids name hmem) (h.free name hmem)⟩
  have hmanifest : ManifestOutcome q.layout a m ((q.generate occasion m path).on d) :=
    manifest_outcome hq.usable hq.rooted hname h.steady.root h.steady.noLinks h.manifest
  have hmanifest' : ManifestOutcome q.layout a m' ((q.generate occasion' m' path).on d') :=
    manifest_outcome hq.usable hq.rooted hname' h.steady'.root h.steady'.noLinks h.manifest'
  generalize (q.generate occasion m path).on d = done at halike hparallel hmanifest ⊢
  generalize (q.generate occasion' m' path).on d' = done' at halike hparallel hmanifest' ⊢
  obtain ⟨result, d₁⟩ := done
  obtain ⟨result', d₁'⟩ := done'
  obtain ⟨hends, htrees⟩ := halike
  cases hends with
  | @ok generated generated' hsame =>
    obtain ⟨g, m₁⟩ := generated
    obtain ⟨g', m₁'⟩ := generated'
    obtain ⟨rfl, hmanifests⟩ := hsame
    cases hmanifest with
    | stored _ _ _ hload =>
      cases hmanifest' with
      | stored _ _ _ hload' =>
        exact .done _ m₁ m₁' d₁ d₁' ⟨hparallel, hload, hload', hmanifests⟩
  | @error e e' _ =>
    have hdirectory := htrees.directory_iff (manifestAddress a)
    by_cases hdir : d₁.tree.get? (manifestAddress a) = some .directory
    · have hload : ∀ {d : Disk}, Steady a d₀.tree d.tree →
          d.tree.get? (manifestAddress a) = some .directory →
          ∃ stop, Manifest.load q.layout d = .error stop := fun hsteady hdir =>
        ⟨_, by rw [load_eq hq.rooted hsteady.root hsteady.noLinks, hdir]⟩
      obtain ⟨stop, hstop⟩ := hload hparallel.steady hdir
      obtain ⟨stop', hstop'⟩ := hload hparallel.steady' (hdirectory.2 hdir)
      refine .stopped e e' stop stop' d₁ d₁' htrees hstop ?_
      rw [hq.opens d₁' hparallel.steady' hparallel.workingDirectory hparallel.locked, hstop']
      rfl
    · cases hmanifest with
      | taken _ _ hdir' => exact absurd hdir' hdir
      | kept _ _ hload =>
        cases hmanifest' with
        | taken _ _ hdir' => exact absurd (hdirectory.1 hdir') hdir
        | kept _ _ hload' =>
          exact .failed e e' d₁ d₁' ⟨hparallel, hload, hload', h.manifests⟩

/-- What is known of the step for one model. -/
structure Step (names models : List Text) (a : Address) (d₀ : Disk) (step : Occasion × Text) :
    Prop where
  name : step.1.transactionName ∈ names
  mem : step.2 ∈ models
  model : ∃ b content mode, IsModel a step.2 b ∧ d₀.tree.get? (b ++ a) = some (.file content mode)

/-- From one model to the last, a batch and the single runs stay in step, or none of the models
that are left is generated in either. -/
theorem InStep.run {steps : List (Occasion × Text)} (h : InStep q.layout a names d₀ m m' d d')
    (hq : Opens root strict a d₀ q)
    (hnames : ∀ name ∈ names, FreeName q occasion models a d₀ name)
    (hn : occasion.transactionName ∈ names)
    (hsteps : ∀ step ∈ steps, Step names models a d₀ step) :
    (Command.oneByOne root strict steps d').1 =
        Command.successes steps.length (q.batch occasion m (steps.map Prod.snd) d).1.1 ∧
      Tree.Alike id (q.batch occasion m (steps.map Prod.snd) d).2.tree
        (Command.oneByOne root strict steps d').2.tree := by
  induction steps generalizing m m' d d' with
  | nil => exact ⟨rfl, h.alike⟩
  | cons step rest ih =>
    obtain ⟨hstep, hrest⟩ := List.forall_mem_cons.1 hsteps
    obtain ⟨occasion', path⟩ := step
    obtain ⟨b, content, mode, hmodel, hget⟩ := hstep.model
    have houtcome := h.step hq hnames hn hstep.name hstep.mem hmodel hget
    have hopen := hq.opens d' h.steady' h.workingDirectory h.locked
    rw [h.manifest'] at hopen
    rw [Command.oneByOne_cons hopen, List.map_cons, batch_cons]
    dsimp only at houtcome ⊢
    generalize (q.generate occasion m path).on d = done at houtcome ⊢
    generalize (q.generate occasion' m' path).on d' = done' at houtcome ⊢
    cases houtcome with
    | done g m₁ m₁' d₁ d₁' hnext =>
      obtain ⟨hflags, htrees⟩ := ih hnext hrest
      dsimp only
      rw [List.length_cons, Command.successes_cons, hflags]
      exact ⟨rfl, htrees⟩
    | failed e e' d₁ d₁' hnext =>
      obtain ⟨hflags, htrees⟩ := ih hnext hrest
      dsimp only
      rw [hnext.manifest]
      dsimp only
      rw [List.length_cons, Command.successes_cons, hflags]
      exact ⟨rfl, htrees⟩
    | stopped e e' stop stop' d₁ d₁' halike hstop hstuck =>
      dsimp only
      rw [hstop, Command.oneByOne_of_stuck hstuck]
      exact ⟨rfl, halike⟩

/-- Opening a project takes no name for transactions. -/
theorem free_of_openProject (hfind : d.find root = .ok (a, .directory))
    (hroot : d.tree.get? a = some .directory) (hno : d.tree.NoLinksIn a)
    (hfree : d.tree.get? (name :: transactionsAddress a) = none) :
    ((Command.openProject root strict).on d).2.tree.get? (name :: transactionsAddress a) = none := by
  have hchanged : d.tree.Changed (· = lockAddress a) (· <:+ bridgeAddress a) a
      ((Command.openProject root strict).on d).2.tree :=
    Command.changed_openProject hfind hroot hno
  refine Option.eq_none_iff_forall_ne_some.2 fun node hnode => ?_
  rcases hchanged.new _ node hnode with hold | ⟨-, hs⟩ | ⟨he, -⟩
  · cases hfree.symm.trans hold
  · have hlength := hs.length_le
    simp only [transactionsAddress, List.length_cons] at hlength
    omega
  · have hlength := congrArg List.length he
    simp [transactionsAddress, lockAddress] at hlength

end Project

namespace Command

variable {root : Text} {strict : Bool} {a : Address} {occasion : Occasion} {d : Disk}
  {p : Project} {steps : List (Occasion × Text)}

/-- A run that generates all actions: what comes of the models as far as it goes, and the disk that
it leaves. -/
def batchRun (occasion : Occasion) (root : Text) (strict : Bool) (d : Disk) :
    Project.Batch × Disk :=
  match (openProject root strict).on d with
  | (.error _, d₁) => ([], d₁)
  | (.ok (p, m), d₁) =>
    let done := p.batch occasion m ((p.layout.discover d₁).toOption.getD []) d₁
    (done.1.1, done.2)

theorem outcome_batchRun (occasion : Occasion) (root : Text) (strict : Bool) (d : Disk) :
    (outcome occasion (.generate root none strict) d).2 = (batchRun occasion root strict d).2 := by
  rw [outcome_generate_all, batchRun]
  generalize (openProject root strict).on d = opened
  obtain ⟨e | ⟨p, m⟩, d₁⟩ := opened
  · rfl
  · dsimp only
    cases p.layout.discover d₁ with
    | error e => rfl
    | ok models =>
      dsimp only [Except.toOption, Option.getD_some]
      split
      · next hnone => rw [hnone, Project.batch_nil]
      · rfl

/-- From the disk that opening the project leaves, a batch and the single runs come to the same. -/
theorem batchRun_alike {opened : Except Failure (Project × Manifest)} {d₁ : Disk}
    (hfind : d.find root = .ok (a, .directory)) (hroot : d.tree.get? a = some .directory)
    (hno : d.tree.NoLinksIn a) (hload : Project.load root d = .ok p)
    (hmodels : steps.map Prod.snd = (p.layout.discover d).toOption.getD [])
    (hnames : ∀ name ∈ occasion.transactionName :: steps.map (·.1.transactionName),
      (withMode p strict).FreeName occasion (steps.map Prod.snd) a d name)
    (hopen : (openProject root strict).on d = (opened, d₁)) :
    (oneByOne root strict steps d₁).1 =
        successes steps.length (batchRun occasion root strict d).1 ∧
      Tree.Alike id (batchRun occasion root strict d).2.tree
        (oneByOne root strict steps d₁).2.tree := by
  rw [batchRun, hopen]
  cases opened with
  | error e =>
    have hstuck : (openProject root strict).on ((openProject root strict).on d).2 = _ :=
      openProject_again hfind hroot hno
    rw [hopen] at hstuck
    rw [oneByOne_of_stuck hstuck]
    exact ⟨by simp [successes], Tree.alike_refl _⟩
  | ok opened =>
    obtain ⟨q, m⟩ := opened
    obtain ⟨p', rfl, hopened⟩ := Project.opened_of_openProject hfind hroot hno hopen
    cases hopened.loaded.symm.trans hload
    have ha := Tree.isWay_of_get? hroot
    have hfound : (p.layout.discover d₁).toOption.getD [] = steps.map Prod.snd := by
      rw [hmodels, Layout.discover_getD_steady hopened.root ha hopened.inside hroot hno
        hopened.steady]
    have hmanifest : Manifest.load (withMode p strict).layout d₁ = .ok m := by
      rw [Project.layout_withMode]
      exact hopened.manifest
    have hfree : ∀ name ∈ occasion.transactionName :: steps.map (·.1.transactionName),
        d₁.tree.get? (name :: Project.transactionsAddress a) = none := fun name hname => by
      have hstill : ((openProject root strict).on d).2.tree.get? _ = none :=
        Project.free_of_openProject hfind hroot hno (hnames name hname).free
      rwa [hopen] at hstill
    have hsteps : ∀ step ∈ steps, Project.Step
        (occasion.transactionName :: steps.map (·.1.transactionName)) (steps.map Prod.snd) a d
        step := fun step hstep => by
      have hmem : step.2 ∈ steps.map Prod.snd := List.mem_map_of_mem hstep
      refine ⟨List.mem_cons_of_mem _ (List.mem_map.2 ⟨step, hstep, rfl⟩), hmem, ?_⟩
      rw [hmodels] at hmem
      cases hmodels' : p.layout.discover d with
      | error e =>
        rw [hmodels'] at hmem
        cases hmem
      | ok models =>
        rw [hmodels'] at hmem
        exact Layout.exists_model hopened.root ha hopened.inside hroot hno hmodels' hmem
    have hinStep : Project.InStep (withMode p strict).layout a
        (occasion.transactionName :: steps.map (·.1.transactionName)) d m m d₁ d₁ :=
      ⟨⟨Tree.alike_refl _, hopened.steady, hopened.steady, hopened.workingDirectory,
        hopened.isLocked hroot hno, hfree⟩, hmanifest, hmanifest, .refl m⟩
    dsimp only
    rw [Project.layout_withMode, hfound]
    exact hinStep.run (Project.opens_of_load hfind hroot hno hload) hnames List.mem_cons_self hsteps

/-- **A batch and one run for each model come to the same** in a project without links: the same
models succeed, and the files that are left differ at most in times, apart from the lock. If there
are models at all, the directories are the same as well, and so is the lock. -/
theorem batch_eq_oneByOne (hfind : d.find root = .ok (a, .directory))
    (hroot : d.tree.get? a = some .directory) (hno : d.tree.NoLinksIn a)
    (hload : Project.load root d = .ok p)
    (hmodels : steps.map Prod.snd = (p.layout.discover d).toOption.getD [])
    (hnames : ∀ name ∈ occasion.transactionName :: steps.map (·.1.transactionName),
      (withMode p strict).FreeName occasion (steps.map Prod.snd) a d name) :
    let all := outcome occasion (.generate root none strict) d
    let each := oneByOne root strict steps d
    each.1 = successes steps.length (batchRun occasion root strict d).1 ∧
      (∀ x, x ≠ Project.lockAddress a → all.2.tree.FileAlike each.2.tree x) ∧
      (steps ≠ [] → all.2.tree.Alike id each.2.tree) := by
  have hagain : (openProject root strict).on ((openProject root strict).on d).2 = _ :=
    openProject_again hfind hroot hno
  have hchanged : d.tree.Changed (· = Project.lockAddress a) (· <:+ Project.bridgeAddress a) a
      ((openProject root strict).on d).2.tree := changed_openProject hfind hroot hno
  generalize hopen : (openProject root strict).on d = result at hagain hchanged
  obtain ⟨opened, d₁⟩ := result
  obtain ⟨hresults, htrees⟩ := batchRun_alike hfind hroot hno hload hmodels hnames hopen
  dsimp only
  rw [outcome_batchRun]
  by_cases hne : steps = []
  · subst hne
    exact ⟨hresults, fun x hx => (htrees.fileAlike x).congr (hchanged.get?_file_iff hx),
      fun hne => absurd rfl hne⟩
  · rw [oneByOne_congr hne (hagain.trans hopen.symm)] at hresults htrees
    exact ⟨hresults, fun x _ => htrees.fileAlike x, fun _ => htrees⟩

/-! ### Two models that resolve to the same action -/

/-- The sample project with a second model, which claims the action of the first one. -/
def sampleRivals : Disk :=
  { Project.sampleDisk with
    tree := Project.sampleDisk.tree.set "y.fcm" ["axioms", "p"] (.file (Text.utf8 "Model: x") false) }

/-- A run for each of its models. -/
def sampleSteps : List (Occasion × Text) :=
  [(⟨"2024-02-02T00:00:00Z", "txn-ghijkl"⟩, "/p/axioms/x.fcm"),
    (⟨"2024-03-03T00:00:00Z", "txn-mnopqr"⟩, "/p/axioms/y.fcm")]

/-- What is found and planned there. -/
theorem plans_sampleRivals :
    sampleRivals.find ("/p" : Text) = .ok (["p".toList], .directory) ∧
    (Project.load ("/p" : Text) sampleRivals).toOption = some Project.sampleProject ∧
    (Project.sampleProject.layout.discover sampleRivals).toOption =
      some (sampleSteps.map Prod.snd) ∧
    (∀ name ∈ Project.sampleOccasion.transactionName :: sampleSteps.map (·.1.transactionName),
      sampleRivals.tree.get? (name :: Project.transactionsAddress ["p".toList]) = none) ∧
    ∀ path ∈ sampleSteps.map Prod.snd,
      ∀ artifact ∈ ((Project.sampleProject.plan Project.sampleOccasion path
        sampleRivals).toOption.map fun plan => plan.artifact), artifact = "actions/core/x".toList := by
  decide

theorem freeName_sampleRivals :
    ∀ name ∈ Project.sampleOccasion.transactionName :: sampleSteps.map (·.1.transactionName),
      (withMode Project.sampleProject false).FreeName Project.sampleOccasion
        (sampleSteps.map Prod.snd) ["p".toList] sampleRivals name := fun name hname => by
  obtain ⟨-, -, -, hfree, hplans⟩ := plans_sampleRivals
  have hnames : ∀ name ∈ Project.sampleOccasion.transactionName ::
      sampleSteps.map (·.1.transactionName), isName name = true ∧
      ∀ n ∈ Transaction.bundleNames,
        ¬ name :: Project.transactionsAddress ["p".toList] <:+
          [n, "x".toList, "core".toList, "actions".toList, "p".toList] ∧
        ¬ name :: Project.transactionsAddress ["p".toList] <:+
          [Transaction.draftName n, "x".toList, "core".toList, "actions".toList, "p".toList] := by
    decide
  refine ⟨(hnames name hname).1, hfree name hname, fun path hpath plan hplan n hn => ?_⟩
  have hartifact : plan.artifact = "actions/core/x".toList := by
    refine hplans path hpath plan.artifact ?_
    rw [show Project.sampleProject = withMode Project.sampleProject false from rfl, hplan]
    rfl
  have hplace : plan.place = ["x".toList, "core".toList, "actions".toList] := by
    rw [Project.Plan.place, Project.Plan.gathering, hartifact]
    decide
  rw [hplace]
  exact (hnames name hname).2 n hn

/-- The second model is refused, in the batch and in its own run. -/
theorem batch_eq_oneByOne_sampleRivals :
    let all := outcome Project.sampleOccasion (.generate ("/p" : Text) none false) sampleRivals
    let each := oneByOne ("/p" : Text) false sampleSteps sampleRivals
    each.1 = [true, false] ∧ all.2.tree.Alike id each.2.tree := by
  obtain ⟨hfind, hload, hmodels, -, -⟩ := plans_sampleRivals
  have hno : sampleRivals.tree.NoLinksIn ["p".toList] := fun b =>
    Tree.noLinks_set Project.linkFree_sampleDisk (by simp) _
  have hresults : successes sampleSteps.length
      (batchRun Project.sampleOccasion ("/p" : Text) false sampleRivals).1 = [true, false] := by
    decide +kernel
  obtain ⟨heach, -, htrees⟩ := batch_eq_oneByOne hfind (by decide) hno
    (eq_ok_of_toOption hload) (by rw [hmodels]; rfl) freeName_sampleRivals
  exact ⟨heach.trans hresults, htrees (by decide)⟩

/-- The same project with a link in the place of the manifest's draft, which leads to where the
manifest will be. -/
def sampleDraftLink : Disk :=
  { sampleRivals with
    tree := (sampleRivals.tree.set ".bridge" ["p"] .directory).set ".manifest.json.tmp"
      [".bridge", "p"] (.link "manifest.json") }

/-- There the batch refuses the second model, and a run of its own does not: it finds no manifest. -/
theorem batch_ne_oneByOne_sampleDraftLink :
    (Project.load ("/p" : Text) sampleDraftLink).toOption = some Project.sampleProject ∧
    (Manifest.load Project.sampleProject.layout sampleDraftLink).toOption.isSome = true ∧
    (Project.sampleProject.layout.discover sampleDraftLink).toOption =
      some (sampleSteps.map Prod.snd) ∧
    (oneByOne ("/p" : Text) false sampleSteps sampleDraftLink).1 = [true, true] ∧
    successes sampleSteps.length
      (batchRun Project.sampleOccasion ("/p" : Text) false sampleDraftLink).1 = [true, false] := by
  decide +kernel

end Command

end ActionBundles
