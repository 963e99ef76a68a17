import ActionBundles.Command.Run
import ActionBundles.Proofs.Keeping

/-!
# What comes of generating

How far generating an action gets (`Project.Generating`) and how far opening a project does
(`Command.Opening`), step by step. What the commands that generate return, and the disk that they
leave, is put in terms of these two.
-/

namespace ActionBundles

open ActionBundles.Action

/-- The result and the disk that come of a command. -/
def Command.outcome [Medium] (occasion : Occasion) (command : Command) (d : Disk) :
    Outcome × Disk :=
  Id.run ((command.run occasion).run d)

namespace Project

/-! ### An action -/

section Action

variable [Medium] {p : Project} {occasion : Occasion} {m m' : Manifest} {path : Text} {d d' : Disk}

/-- What has been done when an action has been generated: its plan, the manifest after the claim,
and the disk after publishing. -/
structure Carried (p : Project) (occasion : Occasion) (m : Manifest) (path : Text) (d : Disk)
    (g : Generated) (m' : Manifest) (d' : Disk) (plan : Plan) (kept : Manifest) (d₁ : Disk) :
    Prop where
  planned : p.plan occasion path d = .ok plan
  claimed : claim p.layout m plan.source plan.artifact d = .ok kept
  published : (publish p.layout occasion plan).on d = (.ok g.files, d₁)
  manifest : m' = kept.upsert plan.source plan.artifact plan.record
  saved : (m'.save p.layout).on d₁ = (.ok (), d')
  source : g.source = plan.source
  artifact : g.artifact = plan.artifact
  identity : g.identity = plan.identity
  checksum : g.checksum = plan.bundle.sync.checksum

/-- How far generating an action gets, with the failure that stops it or what is generated: the
action is planned, its artifact is claimed, its bundle is published, and the manifest is stored. -/
inductive Generating (p : Project) (occasion : Occasion) (m : Manifest) (path : Text) (d : Disk) :
    Except Failure (Generated × Manifest) × Disk → Prop
  | notPlanned (e : Failure) (hplan : p.plan occasion path d = .error e) :
      Generating p occasion m path d (.error e, d)
  | notClaimed (plan : Plan) (e : Failure) (hplan : p.plan occasion path d = .ok plan)
      (hclaim : claim p.layout m plan.source plan.artifact d = .error e) :
      Generating p occasion m path d (.error e, d)
  | notPublished (plan : Plan) (kept : Manifest) (e : Failure) (d' : Disk)
      (hplan : p.plan occasion path d = .ok plan)
      (hclaim : claim p.layout m plan.source plan.artifact d = .ok kept)
      (hpublish : (publish p.layout occasion plan).on d = (.error e, d')) :
      Generating p occasion m path d (.error e, d')
  | notStored (plan : Plan) (kept : Manifest) (files : List Text) (d₁ : Disk) (e : Failure)
      (d' : Disk) (hplan : p.plan occasion path d = .ok plan)
      (hclaim : claim p.layout m plan.source plan.artifact d = .ok kept)
      (hpublish : (publish p.layout occasion plan).on d = (.ok files, d₁))
      (hsave : ((kept.upsert plan.source plan.artifact plan.record).save p.layout).on d₁ =
        (.error e, d')) : Generating p occasion m path d (.error e, d')
  | done (g : Generated) (m' : Manifest) (d' : Disk) (plan : Plan) (kept : Manifest) (d₁ : Disk)
      (h : Carried p occasion m path d g m' d' plan kept d₁) :
      Generating p occasion m path d (.ok (g, m'), d')

theorem generating (p : Project) (occasion : Occasion) (m : Manifest) (path : Text) (d : Disk) :
    Generating p occasion m path d ((p.generate occasion m path).on d) := by
  rw [generate, on_bind, on_consult]
  cases hplan : p.plan occasion path d with
  | error e => exact .notPlanned e hplan
  | ok plan =>
    dsimp only
    rw [on_bind, on_consult]
    cases hclaim : claim p.layout m plan.source plan.artifact d with
    | error e => exact .notClaimed plan e hplan hclaim
    | ok kept =>
      dsimp only
      rw [on_bind]
      generalize hpublish : (publish p.layout occasion plan).on d = published
      obtain ⟨e | files, d₁⟩ := published
      · exact .notPublished plan kept e d₁ hplan hclaim hpublish
      dsimp only
      rw [on_bind]
      generalize hsave : ((kept.upsert plan.source plan.artifact plan.record).save
        p.layout).on d₁ = saved
      obtain ⟨e | _, d₂⟩ := saved
      · exact .notStored plan kept files d₁ e d₂ hplan hclaim hpublish hsave
      · exact .done _ _ d₂ plan kept d₁ ⟨hplan, hclaim, hpublish, rfl, hsave, rfl, rfl, rfl, rfl⟩

theorem exists_of_generate {g : Generated}
    (h : (p.generate occasion m path).on d = (.ok (g, m'), d')) :
    ∃ plan kept d₁, Carried p occasion m path d g m' d' plan kept d₁ := by
  have hgenerating := generating p occasion m path d
  rw [h] at hgenerating
  cases hgenerating with
  | done _ _ _ plan kept d₁ hcarried => exact ⟨plan, kept, d₁, hcarried⟩

/-- What publishing the planned bundle keeps, and storing the manifest after it, generating keeps,
whatever comes of it. -/
theorem holds_of_generate {P : Tree → Prop} (h : P d.tree)
    (hpublish : ∀ plan, p.plan occasion path d = .ok plan →
      P ((publish p.layout occasion plan).on d).2.tree)
    (hsave : ∀ (plan : Plan) (kept : Manifest),
      claim p.layout m plan.source plan.artifact d = .ok kept →
        Keeps P ((kept.upsert plan.source plan.artifact plan.record).save p.layout)) :
    P ((p.generate occasion m path).on d).2.tree := by
  have hgenerating := generating p occasion m path d
  generalize (p.generate occasion m path).on d = generated at hgenerating ⊢
  cases hgenerating with
  | notPlanned | notClaimed => exact h
  | notPublished plan kept e d' hplan _ hpublished =>
    have hpublish := hpublish plan hplan
    rwa [hpublished] at hpublish
  | notStored plan kept files d₁ e d' hplan hclaim hpublished hsaved =>
    have hpublish := hpublish plan hplan
    rw [hpublished] at hpublish
    have hsave := hsave plan kept hclaim d₁ hpublish
    rwa [hsaved] at hsave
  | done g m' d' plan kept d₁ hcarried =>
    have hpublish := hpublish plan hcarried.planned
    rw [hcarried.published] at hpublish
    have hsave := hsave plan kept hcarried.claimed d₁ hpublish
    rwa [← hcarried.manifest, hcarried.saved] at hsave

end Action

/-! ### All actions -/

/-- The outcomes of a batch with the failure that stopped it, and the disk that it leaves. -/
def batch [Medium] (p : Project) (occasion : Occasion) (m : Manifest) (models : List Text)
    (d : Disk) : (Batch × Option Failure) × Disk :=
  Id.run ((p.generateEach occasion m models).run d)

theorem batch_nil [Medium] (p : Project) (occasion : Occasion) (m : Manifest) (d : Disk) :
    p.batch occasion m [] d = (([], none), d) := rfl

/-- A batch is its first model and the batch of the others. -/
theorem batch_cons [Medium] (p : Project) (occasion : Occasion) (m : Manifest) (path : Text)
    (rest : List Text) (d : Disk) :
    p.batch occasion m (path :: rest) d =
      match (p.generate occasion m path).on d with
      | (.ok (g, m'), d') =>
        let others := p.batch occasion m' rest d'
        (((path, .ok g) :: others.1.1, others.1.2), others.2)
      | (.error e, d') =>
        match Manifest.load p.layout d' with
        | .error stop => (([], some stop), d')
        | .ok m' =>
          let others := p.batch occasion m' rest d'
          (((path, .error e) :: others.1.1, others.1.2), others.2) := by
  have hon : (StateT.run (ExceptT.run (p.generate occasion m path)) d).run =
    (p.generate occasion m path).on d := rfl
  rw [batch, generateEach, StateT.run_bind, Id.run_bind, hon]
  generalize (p.generate occasion m path).on d = generated
  obtain ⟨e | ⟨g, m'⟩, d'⟩ := generated
  · dsimp only
    rw [StateT.run_bind]
    show Id.run (StateT.run (match Manifest.load p.layout d' with
      | .error stop => _
      | .ok m' => _) d') = _
    cases Manifest.load p.layout d' with
    | error stop => rfl
    | ok m' => rfl
  · rfl

/-- What holds at every moment between two models of a batch: `P` of the disk and the manifest that
the next model is given, `Q` of the disk alone, also if a model fails and the manifest cannot be
loaded again. -/
theorem holds_of_batch [Medium] {p : Project} {occasion : Occasion} {P : Manifest → Disk → Prop}
    {Q : Disk → Prop} (hend : ∀ m d, P m d → Q d)
    (hdone : ∀ m path d g m' d', P m d →
      (p.generate occasion m path).on d = (.ok (g, m'), d') → P m' d')
    (hfailed : ∀ m path d e d', P m d → (p.generate occasion m path).on d = (.error e, d') →
      Q d' ∧ ∀ m', Manifest.load p.layout d' = .ok m' → P m' d')
    {m : Manifest} {d : Disk} (h : P m d) (models : List Text) :
    Q (p.batch occasion m models d).2 := by
  induction models generalizing m d with
  | nil => exact hend m d h
  | cons path rest ih =>
    have hdone := hdone m path d
    have hfailed := hfailed m path d
    rw [batch_cons]
    generalize (p.generate occasion m path).on d = generated at hdone hfailed
    obtain ⟨e | ⟨g, m'⟩, d'⟩ := generated
    · obtain ⟨hd', hm'⟩ := hfailed e d' h rfl
      dsimp only
      cases hload : Manifest.load p.layout d' with
      | error stop => exact hd'
      | ok m' => exact ih (hm' m' hload)
    · exact ih (hdone g m' d' h rfl)

/-- To generate one action is a batch of one. -/
theorem batch_singleton [Medium] (p : Project) (occasion : Occasion) (m : Manifest) (path : Text)
    (d : Disk) :
    (p.batch occasion m [path] d).2 = ((p.generate occasion m path).on d).2 := by
  rw [batch_cons]
  generalize (p.generate occasion m path).on d = generated
  obtain ⟨e | ⟨g, m'⟩, d'⟩ := generated
  · dsimp only
    cases Manifest.load p.layout d' <;> rfl
  · rfl

end Project

namespace Command

theorem ofWork_on (work : Action Failure (List Text × Bool)) (d : Disk) :
    Id.run ((Outcome.ofWork work).run d) =
      (match (work.on d).1 with
        | .ok (lines, ok) => ⟨lines.flatMap (· ++ ['\n']), .ok ok⟩
        | .error e => ⟨[], .error e⟩, (work.on d).2) := by
  have hon : (StateT.run (ExceptT.run work) d).run = work.on d := rfl
  rw [Outcome.ofWork, StateT.run_bind, Id.run_bind, hon]
  generalize work.on d = done
  obtain ⟨e | ⟨lines, ok⟩, d'⟩ := done <;> rfl

/-- The project that a command works on. -/
def withMode (p : Project) (strict : Bool) : Project :=
  if strict then { p with config.mode := .strict } else p

end Command

/-- Whether a project is checked strictly does not move it. -/
theorem Project.layout_withMode {p : Project} (strict : Bool) :
    (Command.withMode p strict).layout = p.layout := by
  cases strict <;> rfl

namespace Command

theorem openProject_on [Medium] (root : Text) (strict : Bool) (d : Disk) :
    (openProject root strict).on d =
      match Project.load root d with
      | .error e => (.error e, d)
      | .ok p =>
        match (Manifest.lock (withMode p strict).layout).on d with
        | (.error e, d') => (.error e, d')
        | (.ok (), d') =>
          match Manifest.load (withMode p strict).layout d' with
          | .error e => (.error e, d')
          | .ok m => (.ok (withMode p strict, m), d') := by
  rw [openProject, on_bind, on_consult]
  cases Project.load root d with
  | error e => rfl
  | ok p =>
    show Action.on (do
      Manifest.lock (withMode p strict).layout
      let m ← consult (Manifest.load (withMode p strict).layout)
      return (withMode p strict, m)) d = _
    rw [on_bind]
    dsimp only
    generalize (Manifest.lock (withMode p strict).layout).on d = locked
    obtain ⟨e | _, d'⟩ := locked
    · rfl
    · dsimp only
      rw [on_bind, on_consult]
      cases Manifest.load (withMode p strict).layout d' <;> rfl

/-- How far opening the project at `root` gets, with the failure that stops it or what is opened:
the project is loaded, then it is locked, then its manifest is loaded. -/
inductive Opening [Medium] (root : Text) (strict : Bool) (d : Disk) :
    Except Failure (Project × Manifest) × Disk → Prop
  | notLoaded (e : Failure) (hload : Project.load root d = .error e) :
      Opening root strict d (.error e, d)
  | notLocked (p : Project) (e : Failure) (d' : Disk) (hload : Project.load root d = .ok p)
      (hlock : (Manifest.lock p.layout).on d = (.error e, d')) : Opening root strict d (.error e, d')
  | notRead (p : Project) (e : Failure) (d' : Disk) (hload : Project.load root d = .ok p)
      (hlock : (Manifest.lock p.layout).on d = (.ok (), d'))
      (hmanifest : Manifest.load p.layout d' = .error e) : Opening root strict d (.error e, d')
  | opened (p : Project) (m : Manifest) (d' : Disk) (hload : Project.load root d = .ok p)
      (hlock : (Manifest.lock p.layout).on d = (.ok (), d'))
      (hmanifest : Manifest.load p.layout d' = .ok m) :
      Opening root strict d (.ok (withMode p strict, m), d')

theorem opening [Medium] (root : Text) (strict : Bool) (d : Disk) :
    Opening root strict d ((openProject root strict).on d) := by
  rw [openProject_on]
  cases hload : Project.load root d with
  | error e => exact .notLoaded e hload
  | ok p =>
    dsimp only
    rw [Project.layout_withMode]
    cases hlock : (Manifest.lock p.layout).on d with
    | mk locked d' =>
      cases locked with
      | error e => exact .notLocked p e d' hload hlock
      | ok _ =>
        dsimp only
        cases hmanifest : Manifest.load p.layout d' with
        | error e => exact .notRead p e d' hload hlock hmanifest
        | ok m => exact .opened p m d' hload hlock hmanifest

/-- Opening leaves the disk as it was, or as locking the project leaves it. -/
theorem disk_openProject [Medium] (root : Text) (strict : Bool) (d : Disk) :
    ((openProject root strict).on d).2 = d ∨
      ∃ p, Project.load root d = .ok p ∧
        ((openProject root strict).on d).2 = ((Manifest.lock p.layout).on d).2 := by
  have hopening := opening root strict d
  generalize (openProject root strict).on d = opened at hopening ⊢
  cases hopening with
  | notLoaded => exact .inl rfl
  | notLocked p e d' hload hlock => exact .inr ⟨p, hload, by rw [hlock]⟩
  | notRead p e d' hload hlock => exact .inr ⟨p, hload, by rw [hlock]⟩
  | opened p m d' hload hlock => exact .inr ⟨p, hload, by rw [hlock]⟩

/-- The disk that generating one action leaves. -/
theorem outcome_generate_one [Medium] (occasion : Occasion) (root model : Text) (strict : Bool)
    (d : Disk) :
    (outcome occasion (.generate root (some model) strict) d).2 =
      match (openProject root strict).on d with
      | (.error _, d') => d'
      | (.ok (p, m), d') => ((p.generate occasion m model).on d').2 := by
  rw [outcome, run, ofWork_on, runGenerate, on_bind]
  generalize (openProject root strict).on d = opened
  obtain ⟨e | ⟨p, m⟩, d'⟩ := opened
  · rfl
  · dsimp only
    rw [on_bind]
    generalize (p.generate occasion m model).on d' = generated
    obtain ⟨e | ⟨g, m'⟩, d''⟩ := generated <;> rfl

/-- What comes of generating all actions. -/
theorem outcome_generate_all [Medium] (occasion : Occasion) (root : Text) (strict : Bool)
    (d : Disk) :
    outcome occasion (.generate root none strict) d =
      match (openProject root strict).on d with
      | (.error e, d') => (⟨[], .error e⟩, d')
      | (.ok (p, m), d') =>
        match p.layout.discover d' with
        | .error e => (⟨[], .error e⟩, d')
        | .ok models =>
          if models = [] then
            (⟨"no models found under " ++ p.layout.modelsDir ++ "\n", .ok true⟩, d')
          else
            let done := p.batch occasion m models d'
            (batchOutcome p.layout models.length done.1.1 done.1.2, done.2) := by
  have hopened : ∀ opened : Action Failure (Project × Manifest × List Text),
      (StateT.run (ExceptT.run opened) d).run = opened.on d := fun _ => rfl
  rw [outcome, run, runGenerateAll]
  dsimp only
  rw [StateT.run_bind, Id.run_bind, hopened, on_bind]
  generalize (openProject root strict).on d = opened
  obtain ⟨e | ⟨p, m⟩, d'⟩ := opened
  · rfl
  · dsimp only
    rw [on_bind, on_consult]
    cases p.layout.discover d' with
    | error e => rfl
    | ok models =>
      dsimp only [on_pure]
      by_cases h : models = []
      · rw [if_pos h, if_pos h]
        rfl
      · rw [if_neg h, if_neg h]
        rfl

/-- What a run that generates actions leaves is what opening the project leaves, or a batch after
that. -/
theorem outcome_generate_cases [Medium] (occasion : Occasion) (root : Text)
    (model : Option Text) (strict : Bool) (d : Disk) :
    (outcome occasion (.generate root model strict) d).2 =
        ((openProject root strict).on d).2 ∨
      ∃ q m d₁ models, (openProject root strict).on d = (.ok (q, m), d₁) ∧
        (outcome occasion (.generate root model strict) d).2 =
          (q.batch occasion m models d₁).2 := by
  cases model with
  | some model =>
    rw [outcome_generate_one]
    generalize (openProject root strict).on d = opened
    obtain ⟨e | ⟨q, m⟩, d₁⟩ := opened
    · exact .inl rfl
    · exact .inr ⟨q, m, d₁, [model], rfl, (Project.batch_singleton q occasion m model d₁).symm⟩
  | none =>
    rw [outcome_generate_all]
    generalize (openProject root strict).on d = opened
    obtain ⟨e | ⟨q, m⟩, d₁⟩ := opened
    · exact .inl rfl
    · dsimp only
      cases q.layout.discover d₁ with
      | error e => exact .inl rfl
      | ok models =>
        dsimp only
        split
        · exact .inl rfl
        · exact .inr ⟨q, m, d₁, models, rfl, rfl⟩

end Command

end ActionBundles
