import ActionBundles.Proofs.Freshness
import ActionBundles.Proofs.Recording

/-!
# Who may have an artifact

A model is refused an artifact that is on record for another model, unless that model's file is
gone. When models have exchanged their artifacts between two runs, what counts is the order in
which they are gone through: an artifact is free for a model if its record names the model itself,
a model that comes earlier, or something that is no file. A batch of models with different artifacts
refuses none exactly if that is so for each of them (`Project.batch_refuses_none_iff`); a model that
takes over the artifact of a later one is an example where it is not.
-/

namespace ActionBundles

open ActionBundles.Action

/-! ### Failures of work -/

/-- A failure of some work. -/
def Failure.IsOfWork (e : Failure) : Prop := ∃ work cause, e = .during work cause

namespace Action

variable {ε α β : Type}

/-- Whatever such an action fails with is the failure of some work. -/
def FailsAtWork (x : Action Failure α) : Prop := ∀ d e, (x.on d).1 = .error e → e.IsOfWork

theorem failsAtWork_pure (a : α) : FailsAtWork (pure a) := fun _ _ h => by cases h

theorem failsAtWork_within (x : Action OsError α) (work : Work) : FailsAtWork (x.within work) :=
  fun d e h => by
    rw [on_within] at h
    generalize (x.on d).1 = result at h
    cases result with
    | ok a => cases h
    | error cause => exact ⟨work, .os cause, (Except.error.inj h).symm⟩

theorem failsAtWork_during (x : Action Failure α) (work : Work) : FailsAtWork (x.during work) :=
  fun d e h => by
    rw [on_during] at h
    generalize (x.on d).1 = result at h
    cases result with
    | ok a => cases h
    | error cause => exact ⟨work, cause, (Except.error.inj h).symm⟩

theorem FailsAtWork.bind {x : Action Failure α} {f : α → Action Failure β} (hx : FailsAtWork x)
    (hf : ∀ a, FailsAtWork (f a)) : FailsAtWork (x >>= f) := fun d e h => by
  have hfirst := hx d
  rw [on_bind] at h
  generalize x.on d = done at h hfirst
  obtain ⟨e' | a, d'⟩ := done
  · exact hfirst e (by cases h; rfl)
  · exact hf a d' e h

end Action

namespace Transaction

variable (tx : Transaction)

theorem failsAtWork_stage (rel : Text) (content : Bytes) : FailsAtWork (tx.stage rel content) := by
  have hparent : ∀ path, FailsAtWork (makeParent path) := fun path => by
    rw [makeParent]
    split
    · exact failsAtWork_pure ()
    · exact failsAtWork_within _ _
  exact (hparent _).bind fun _ => failsAtWork_within _ _

/-- A transaction fails only at its work, if the work that is done in it does. -/
theorem failsAtWork_run {α : Type} (transactions name : Text)
    {work : Transaction → Action Failure α} (h : ∀ tx, FailsAtWork (work tx)) :
    FailsAtWork (run transactions name work) := by
  refine FailsAtWork.bind (FailsAtWork.bind (failsAtWork_within _ _) fun _ =>
    (failsAtWork_within _ _).bind fun _ => failsAtWork_pure _) fun tx d e he => ?_
  rw [on_bind_attempt] at he
  have hwork := h tx d
  generalize (work tx).on d = done at he hwork
  obtain ⟨result, d₁⟩ := done
  have hclose : ∃ d₂, tx.close.on d₁ = (.ok (), d₂) := ⟨_, rfl⟩
  obtain ⟨d₂, hclose⟩ := hclose
  dsimp only at he
  rw [on_bind_ok hclose] at he
  cases result with
  | ok a => cases he
  | error cause =>
    cases he
    exact hwork e rfl

end Transaction

namespace Project

variable {a b : Address} {l : Layout} {p : Project} {occasion : Occasion} {m m' : Manifest}
  {path source artifact : Text} {d d' : Disk} {plan : Plan}

theorem failsAtWork_publish (plan : Plan) : FailsAtWork (publish l occasion plan) :=
  Transaction.failsAtWork_run _ _ fun tx =>
    (tx.failsAtWork_stage _ _).bind fun _ => (tx.failsAtWork_stage _ _).bind fun _ =>
      ((tx.failsAtWork_stage _ _).bind fun _ => failsAtWork_within _ _).bind fun _ =>
        (tx.failsAtWork_stage _ _).bind fun _ => failsAtWork_during _ _

/-- An action that is planned and whose claim is granted fails at work, if it fails. -/
theorem isOfWork_of_generate_error {e : Failure} {kept : Manifest}
    (hplan : p.plan occasion path d = .ok plan)
    (hclaim : claim p.layout m plan.source plan.artifact d = .ok kept)
    (h : ((p.generate occasion m path).on d).1 = .error e) : e.IsOfWork := by
  have hsave : FailsAtWork
      ((kept.upsert plan.source plan.artifact plan.record).save p.layout) :=
    (failsAtWork_within _ _).bind fun _ => (failsAtWork_within _ _).bind fun _ =>
      failsAtWork_within _ _
  have hgenerating := generating p occasion m path d
  generalize (p.generate occasion m path).on d = generated at hgenerating h
  cases hgenerating with
  | notPlanned e hfails => cases hplan.symm.trans hfails
  | notClaimed plan' e hplan' hfails =>
    cases hplan.symm.trans hplan'
    cases hclaim.symm.trans hfails
  | notPublished plan' kept' e' d' _ _ hpublish =>
    cases h
    exact failsAtWork_publish plan' d _ (by rw [hpublish])
  | notStored plan' kept' files d₁ e' d' hplan' hclaim' _ hstore =>
    cases hplan.symm.trans hplan'
    cases hclaim.symm.trans hclaim'
    cases h
    exact hsave d₁ _ (by rw [hstore])
  | done => cases h

/-! ### The sources on record -/

/-- All models on record are named by their paths from the project. -/
def NamesSources (m : Manifest) : Prop := ∀ artifact record, m.recordOf? artifact = some record →
  ∃ b, Path.IsWay b ∧ record.source = Path.ofRelative b

theorem exists_source_of_plan (h : p.plan occasion path d = .ok plan) :
    ∃ b, Path.IsWay b ∧ plan.source = Path.ofRelative b := by
  rw [Project.plan] at h
  obtain ⟨file, -, h⟩ := exists_of_bind_eq_ok h
  obtain ⟨source, hsource, h⟩ := exists_of_bind_eq_ok h
  obtain ⟨text, -, h⟩ := exists_of_bind_eq_ok h
  obtain ⟨model, -, h⟩ := exists_of_bind_eq_ok h
  cases h
  have hrelative : p.layout.relative file = .ok source := by
    cases hrel : p.layout.relative file with
    | error e =>
      rw [hrel] at hsource
      cases hsource
    | ok rel =>
      rw [hrel] at hsource
      cases hsource
      rfl
  obtain ⟨names, hcomponents, rfl⟩ := Layout.relative_eq_ok hrelative
  obtain ⟨-, hnames⟩ := Path.undotted_of_components_append hcomponents
  exact ⟨names.reverse, fun n hn => hnames n (List.mem_reverse.1 hn), by
    rw [Path.ofRelative, List.reverse_reverse]⟩

theorem recordOf?_of_forget {record : GeneratedRecord}
    (h : (m.forget source).recordOf? artifact = some record) :
    m.recordOf? artifact = some record := by
  rw [Manifest.forget] at h
  split at h
  · exact h
  · next place _ =>
    change (m.release source place).recordOf? artifact = _ at h
    rw [Manifest.recordOf?_release] at h
    split at h
    · cases h
    · exact h

theorem recordOf?_of_claim {record : GeneratedRecord} {other : Text}
    (hclaim : claim l m source artifact d = .ok m') (h : m'.recordOf? other = some record) :
    m.recordOf? other = some record := by
  rcases eq_of_claim hclaim with ⟨rfl, -⟩ | ⟨owner, -, -, -, rfl⟩
  · exact h
  · exact recordOf?_of_forget h

theorem recordOf?_of_upsert {record record' : GeneratedRecord} {other : Text}
    (h : (m.upsert source artifact record).recordOf? other = some record') :
    record' = record ∨ m.recordOf? other = some record' := by
  have hset : ∀ n : Manifest, ({ mappings := n.mappings.insert source artifact
                                 generated := n.generated.insert artifact record } :
      Manifest).recordOf? other = if other = artifact then some record else n.recordOf? other :=
    fun n => by simp [Manifest.recordOf?, Dict.get?_insert]
  rw [Manifest.upsert, hset] at h
  split at h
  · exact .inl (Option.some.inj h).symm
  · right
    split at h
    · split at h
      · exact h
      · rw [Manifest.recordOf?_release] at h
        split at h
        · cases h
        · exact h
    · exact h

/-- Generating an action names its model by its path from the project. -/
theorem namesSources_generate {g : Generated} (hm : NamesSources m)
    (h : (p.generate occasion m path).on d = (.ok (g, m'), d')) : NamesSources m' := by
  obtain ⟨plan, kept, d₁, hcarried⟩ := exists_of_generate h
  intro other record hrecord
  rw [hcarried.manifest] at hrecord
  rcases recordOf?_of_upsert hrecord with rfl | hrecord
  · exact exists_source_of_plan hcarried.planned
  · exact hm other record (recordOf?_of_claim hcarried.claimed hrecord)

/-! ### What is on record after a history -/

section Loaded

variable {P : Manifest → Prop} (hstep : ∀ (q : Project) (occasion : Occasion) (m : Manifest) path d g
  m' d', P m → (q.generate occasion m path).on d = (.ok (g, m'), d') → P m')

include hstep

/-- What every action that is generated keeps of the manifest is kept by a batch. -/
theorem loaded_of_batch {models : List Text} (hp : p.Usable) (hl : p.layout.root = Path.ofAddress a)
    (hname : isName occasion.transactionName = true) (hroot : d.tree.get? a = some .directory)
    (hno : d.tree.NoLinksIn a) (hm : P m) (hload : ∀ m, Manifest.load p.layout d = .ok m → P m)
    (h : Manifest.load p.layout (p.batch occasion m models d).2 = .ok m') : P m' := by
  have hsteady : ∀ {m path d₁ outcome d₂}, d₁.tree.get? a = some .directory → d₁.tree.NoLinksIn a →
      (p.generate occasion m path).on d₁ = (outcome, d₂) → Steady a d₁.tree d₂.tree :=
    fun {m path d₁ outcome d₂} hroot hno hgenerate => by
      have hsteady : Steady a d₁.tree ((p.generate occasion m path).on d₁).2.tree :=
        steady_generate hl hroot hno hp hname
      rwa [hgenerate] at hsteady
  refine holds_of_batch (P := fun m d => P m ∧ d.tree.get? a = some .directory ∧
      d.tree.NoLinksIn a ∧ ∀ m', Manifest.load p.layout d = .ok m' → P m')
    (Q := fun d => ∀ m', Manifest.load p.layout d = .ok m' → P m') (fun _ _ h => h.2.2.2)
    ?_ ?_ ⟨hm, hroot, hno, hload⟩ models m' h
  · rintro m path d₁ g m₁ d₂ ⟨hm, hroot, hno, -⟩ hgenerate
    have hsteady := hsteady hroot hno hgenerate
    have hm₁ := hstep p occasion m path d₁ g m₁ d₂ hm hgenerate
    refine ⟨hm₁, hsteady.root, hsteady.noLinks, fun m₂ hm₂ => ?_⟩
    cases (load_of_generate hp hl hname hroot hno hgenerate).symm.trans hm₂
    exact hm₁
  · rintro m path d₁ e d₂ ⟨hm, hroot, hno, hload⟩ hgenerate
    have hsteady := hsteady hroot hno hgenerate
    have hload₂ : ∀ m₂, Manifest.load p.layout d₂ = .ok m₂ → P m₂ := fun m₂ hm₂ =>
      hload m₂ (load_of_generate_error hp hl hname hroot hno hgenerate hm₂)
    exact ⟨hload₂, fun m₂ hm₂ => ⟨hload₂ m₂ hm₂, hsteady.root, hsteady.noLinks, hload₂⟩⟩

/-- What every action that is generated keeps of the manifest holds after every history. -/
theorem loaded_of_history (hempty : P {}) (hl : p.layout.root = Path.ofAddress a)
    (h : History false p a d) (hload : Manifest.load p.layout d = .ok m) : P m := by
  induction h generalizing m with
  | start root manifest tree =>
    rw [load_eq hl root fun b => tree.linkFree rfl (b ++ a), manifest] at hload
    cases hload
    exact hempty
  | edit before root manifest tree ih =>
    have hguarded := before.guarded hl
    refine ih ?_
    rw [load_eq hl root fun b => tree.linkFree rfl (b ++ a), manifest] at hload
    rw [load_eq hl hguarded.root fun b => hguarded.linkFree rfl (b ++ a)]
    exact hload
  | @generate d before medium writes occasion root model strict name load ih =>
    subst writes
    have hguarded := before.guarded hl
    have hno : d.tree.NoLinksIn a := fun b => hguarded.linkFree rfl (b ++ a)
    have hlock : d.tree.Changed (· = lockAddress a) (fun _ => True) a
        ((Manifest.lock p.layout).on d).2.tree :=
      changed_lock hl (Tree.isWay_of_get? hguarded.root) (by rfl) (fun _ _ => trivial) d
        (.refl hguarded.root hno)
    have hlocked : ∀ m, Manifest.load p.layout ((Manifest.lock p.layout).on d).2 = .ok m → P m :=
      fun m hm => ih (load_of_changed hl hguarded.root hno hlock
        (fun he => absurd (List.cons.inj he).1 (by decide)) hm)
    have hbatch : ∀ {m : Manifest} {d₁ : Disk} {models : List Text}, p.Usable →
        d₁.tree.get? a = some .directory → d₁.tree.NoLinksIn a →
        (∀ m, Manifest.load p.layout d₁ = .ok m → P m) → Manifest.load p.layout d₁ = .ok m →
        ∀ {m'}, Manifest.load p.layout
          ((Command.withMode p strict).batch occasion m models d₁).2 = .ok m' → P m' :=
      fun hp hroot₁ hno₁ hload₁ hm m' hm' =>
        loaded_of_batch hstep (hp.withMode strict) (by rwa [layout_withMode]) name hroot₁ hno₁
          (hload₁ _ hm) (by rwa [layout_withMode]) (by rwa [layout_withMode])
    rcases Command.outcome_generate_cases occasion root model strict d with hnone | ⟨q, m₁, d₁, models,
      hopen, hdone⟩
    · rw [hnone] at hload
      rcases Command.disk_openProject root strict d with hsame | ⟨q, hq, hdisk⟩
      · rw [hsame] at hload
        exact ih hload
      · obtain rfl := load q hq
        rw [hdisk] at hload
        exact hlocked m hload
    · rw [hdone] at hload
      have hopening := Command.opening root strict d
      rw [hopen] at hopening
      cases hopening with
      | opened q' _ _ hq hlocks hm₁ =>
        obtain rfl := load q' hq
        rw [hlocks] at hlock hlocked
        exact hbatch (usable_of_load hq) hlock.root hlock.noLinks hlocked hm₁ hload

end Loaded

theorem namesSources_of_history (hl : p.layout.root = Path.ofAddress a) (h : History false p a d)
    (hload : Manifest.load p.layout d = .ok m) : NamesSources m :=
  loaded_of_history (fun _ _ _ _ _ _ _ _ => namesSources_generate)
    (fun artifact record hrecord => by cases hrecord) hl h hload

/-! ### Claims in a batch -/

/-- Whether the record of the artifact of a plan gives way to its model: there is none, or it names
the model itself, one of the `earlier` ones, or something that is no file. -/
def Yields (l : Layout) (m : Manifest) (d : Disk) (earlier : List Text) (plan : Plan) : Prop :=
  ∀ record, m.recordOf? plan.artifact = some record → record.source = plan.source ∨
    record.source ∈ earlier ∨ ¬ d.isFile (l.resolve record.source) = true

/-- A source that a run does not write is a file at every moment of a run or at none. -/
theorem isFile_source_steady (hl : l.root = Path.ofAddress a)
    (hroot : d.tree.get? a = some .directory) (hno : d.tree.NoLinksIn a) (hb : Path.IsWay b)
    (hwritten : ∀ n ∈ b.head?, n ∉ writtenNames) (h : Steady a d.tree d'.tree) :
    d'.isFile (l.resolve (Path.ofRelative b)) = d.isFile (l.resolve (Path.ofRelative b)) := by
  cases b with
  | nil =>
    have hnone : ∀ d : Disk, d.isFile (l.resolve (Path.ofRelative [])) = false := fun d =>
      Bool.eq_false_iff.2 Layout.not_isFile_resolve_nil
    rw [hnone, hnone]
  | cons n c =>
    have ha := Tree.isWay_of_get? hroot
    rw [Layout.resolve, hl, Path.join_ofRelative ha hb (List.cons_ne_nil n c)]
    exact (Disk.read_of_changed hroot hno (hb.append ha) (List.suffix_append _ a) h
      (not_written_of_not_mem (hwritten n rfl))).1

/-- What a claim and the mapping after it leave of the records of other artifacts: those that name
the model are gone. -/
theorem recordOf?_of_claimed {kept : Manifest} {record : GeneratedRecord} {other : Text}
    (hm : m.Bijective) (hclaim : claim l m source artifact d = .ok kept) (hne : other ≠ artifact) :
    (kept.upsert source artifact record).recordOf? other =
      (m.recordOf? other).filter fun r => r.source ≠ source := by
  have hkept : kept.Bijective ∧ kept.recordOf? other = m.recordOf? other := by
    refine ⟨(bijective_claim hm hclaim).1, ?_⟩
    rcases eq_of_claim hclaim with ⟨rfl, -⟩ | ⟨owner, howner, -, -, rfl⟩
    · rfl
    · rw [hm.recordOf?_forget, hm.mapped howner, if_neg]
      exact fun he => hne (Option.some.inj he).symm
  obtain ⟨hbijective, hrecord⟩ := hkept
  rw [hbijective.recordOf?_upsert, if_neg hne, ← hrecord]
  cases hother : kept.recordOf? other with
  | none => simp
  | some r =>
    by_cases hr : r.source = source
    · rw [if_pos (hr ▸ hbijective.mapped hother)]
      simp [Option.filter, hr]
    · rw [if_neg fun hmapped => ?_]
      · simp [Option.filter, hr]
      · obtain ⟨r', hr', hsource⟩ := hbijective.recorded hmapped
        cases hother.symm.trans hr'
        exact hr hsource

theorem forall_split_cons {α : Type} {Q : List α → α → Prop} {e : α} {rest : List α} :
    (∀ before e' after, e :: rest = before ++ e' :: after → Q before e') ↔
      Q [] e ∧ ∀ before e' after, rest = before ++ e' :: after → Q (e :: before) e' := by
  constructor
  · exact fun h => ⟨h [] e rest rfl, fun before e' after he => h (e :: before) e' after (by rw [he]; rfl)⟩
  · rintro ⟨hhead, htail⟩ before e' after he
    cases before with
    | nil =>
      cases he
      exact hhead
    | cons e'' before =>
      cases he
      exact htail before e' after rfl

section Claim

variable {m₀ : Manifest} {d₀ : Disk} {earlier : List Text}
  (hrecord : m.recordOf? plan.artifact =
    (m₀.recordOf? plan.artifact).filter fun r => r.source ∉ earlier)
  (hfile : ∀ r, m₀.recordOf? plan.artifact = some r →
    d.isFile (l.resolve r.source) = d₀.isFile (l.resolve r.source))

include hrecord hfile

/-- A claim is granted if the record of the artifact gives way. -/
theorem exists_claim (h : Yields l m₀ d₀ earlier plan) :
    ∃ kept, claim l m plan.source plan.artifact d = .ok kept := by
  rw [claim, hrecord]
  cases hr : m₀.recordOf? plan.artifact with
  | none => exact ⟨m, rfl⟩
  | some r =>
    by_cases hearlier : r.source ∈ earlier
    · simp [Option.filter, hearlier]
    · simp only [Option.filter, hearlier, not_false_eq_true, decide_true, ↓reduceIte]
      rcases h r hr with hsource | hmem | hgone
      · exact ⟨m, if_pos hsource⟩
      · exact absurd hmem hearlier
      · by_cases hsource : r.source = plan.source
        · exact ⟨m, if_pos hsource⟩
        · rw [if_neg hsource, hfile r hr, if_neg hgone]
          exact ⟨_, rfl⟩

/-- A claim is refused if it does not. -/
theorem exists_refusal (h : ¬ Yields l m₀ d₀ earlier plan) :
    ∃ r : GeneratedRecord, claim l m plan.source plan.artifact d =
      .error (.collision plan.artifact r.source plan.source) := by
  simp only [Yields, not_forall, not_or, not_not] at h
  obtain ⟨r, hr, hsource, hearlier, hstands⟩ := h
  refine ⟨r, ?_⟩
  rw [claim, hrecord, hr]
  simp only [Option.filter, hearlier, not_false_eq_true, decide_true, ↓reduceIte]
  rw [if_neg hsource, hfile r hr, if_pos hstands]

end Claim

/-- How far a batch has come that started at `d₀` with the manifest `m₀`, when the models `earlier`
are done and those of `planned` are left. The artifacts that are left have the records that they had
at the start, but for those that name a model that is done. -/
structure Halfway (a : Address) (p : Project) (m₀ : Manifest) (d₀ : Disk) (earlier : List Text)
    (planned : List (Text × Plan)) (m : Manifest) (d : Disk) : Prop where
  steady : Steady a d₀.tree d.tree
  bijective : m.Bijective
  loaded : Manifest.load p.layout d = .ok m
  records : ∀ e ∈ planned, m.recordOf? e.2.artifact =
    (m₀.recordOf? e.2.artifact).filter fun r => r.source ∉ earlier

/-- The plan of the model of `e` is that of `e`, at the start of the batch and all through it. -/
def IsPlanned (a : Address) (p : Project) (occasion : Occasion) (d₀ : Disk) (e : Text × Plan) : Prop :=
  ∃ b content mode, IsModel a e.1 b ∧ d₀.tree.get? (b ++ a) = some (.file content mode) ∧
    p.plan occasion e.1 d₀ = .ok e.2

section Batch

variable {m₀ : Manifest} {d₀ : Disk} {e : Text × Plan} {rest : List (Text × Plan)}
  {earlier : List Text} (hp : p.Usable) (hl : p.layout.root = Path.ofAddress a)
  (hname : isName occasion.transactionName = true)
  (hroot : d₀.tree.get? a = some .directory) (hno : d₀.tree.NoLinksIn a)
  (hsources : ∀ artifact record, m₀.recordOf? artifact = some record →
    ∃ b, Path.IsWay b ∧ record.source = Path.ofRelative b ∧ ∀ n ∈ b.head?, n ∉ writtenNames)

include hl in
theorem IsPlanned.plan_eq (h : IsPlanned a p occasion d₀ e) (hsteady : Steady a d₀.tree d.tree) :
    p.plan occasion e.1 d = .ok e.2 := by
  obtain ⟨b, content, mode, hmodel, hget, hplan⟩ := h
  rw [hmodel.plan hl ((hmodel.get?_iff hsteady).2 hget), ← hmodel.plan hl hget, hplan]

include hl hroot hno hsources in
theorem Halfway.isFile (h : Halfway a p m₀ d₀ earlier (e :: rest) m d) :
    ∀ r, m₀.recordOf? e.2.artifact = some r →
      d.isFile (p.layout.resolve r.source) = d₀.isFile (p.layout.resolve r.source) := fun r hr => by
  obtain ⟨b, hb, hsource, hwritten⟩ := hsources _ r hr
  rw [hsource]
  exact isFile_source_steady hl hroot hno hb hwritten h.steady

include hl hroot hno hsources in
/-- A model whose artifact gives way fails at nothing but its work. -/
theorem Halfway.isOfWork (h : Halfway a p m₀ d₀ earlier (e :: rest) m d)
    (hplanned : IsPlanned a p occasion d₀ e) (hyields : Yields p.layout m₀ d₀ earlier e.2)
    {f : Failure} (hf : ((p.generate occasion m e.1).on d).1 = .error f) : f.IsOfWork := by
  obtain ⟨kept, hclaim⟩ := exists_claim (h.records e List.mem_cons_self)
    (h.isFile hl hroot hno hsources) hyields
  exact isOfWork_of_generate_error (hplanned.plan_eq hl h.steady) hclaim hf

include hl hroot hno hsources in
/-- A model whose artifact does not give way is refused, and the disk stays as it is. -/
theorem Halfway.generate_refused (h : Halfway a p m₀ d₀ earlier (e :: rest) m d)
    (hplanned : IsPlanned a p occasion d₀ e) (hyields : ¬ Yields p.layout m₀ d₀ earlier e.2) :
    ∃ r : GeneratedRecord, (p.generate occasion m e.1).on d =
      (.error (.collision e.2.artifact r.source e.2.source), d) := by
  obtain ⟨r, hrefused⟩ := exists_refusal (h.records e List.mem_cons_self)
    (h.isFile hl hroot hno hsources) hyields
  refine ⟨r, ?_⟩
  rw [generate, on_bind, on_consult, hplanned.plan_eq hl h.steady]
  dsimp only
  rw [on_bind, on_consult, hrefused]

include hp hl hname in
/-- Generating a model takes the batch one model further. -/
theorem Halfway.step (h : Halfway a p m₀ d₀ earlier (e :: rest) m d)
    (hplanned : IsPlanned a p occasion d₀ e)
    (hdistinct : ∀ e' ∈ rest, e.2.artifact ≠ e'.2.artifact) {g : Generated}
    (hdone : (p.generate occasion m e.1).on d = (.ok (g, m'), d')) :
    Halfway a p m₀ d₀ (earlier ++ [e.2.source]) rest m' d' := by
  have hsteady : Steady a d.tree ((p.generate occasion m e.1).on d).2.tree :=
    steady_generate hl h.steady.root h.steady.noLinks hp hname
  rw [hdone] at hsteady
  obtain ⟨plan, kept, d₁, hcarried⟩ := exists_of_generate hdone
  cases (hplanned.plan_eq hl h.steady).symm.trans hcarried.planned
  obtain ⟨hbijective, hfree⟩ := bijective_claim h.bijective hcarried.claimed
  refine ⟨h.steady.trans hsteady, hcarried.manifest ▸ hbijective.upsert hfree rfl,
    load_of_generate hp hl hname h.steady.root h.steady.noLinks hdone, fun e' he' => ?_⟩
  rw [hcarried.manifest, recordOf?_of_claimed h.bijective hcarried.claimed (hdistinct e' he').symm,
    h.records e' (List.mem_cons_of_mem _ he'), Option.filter_filter]
  congr 1
  funext r
  simp [Bool.and_comm]

include hp hl hname hroot hno hsources

/-- The rest of a batch refuses none of its models if and only if their artifacts are free, where
the records that name a model of the part that is done are gone. -/
theorem rest_refuses_none_iff {planned : List (Text × Plan)}
    (hplanned : ∀ e ∈ planned, IsPlanned a p occasion d₀ e)
    (hdistinct : planned.Pairwise fun e e' => e.2.artifact ≠ e'.2.artifact)
    (h : Halfway a p m₀ d₀ earlier planned m d)
    (hstop : (p.batch occasion m (planned.map Prod.fst) d).1.2 = none)
    (hio : ∀ e ∈ (p.batch occasion m (planned.map Prod.fst) d).1.1, ∀ f, e.2 = .error f →
      ¬ f.IsOfWork) :
    (∀ e ∈ (p.batch occasion m (planned.map Prod.fst) d).1.1, ∃ g, e.2 = .ok g) ↔
      ∀ before e after, planned = before ++ e :: after →
        Yields p.layout m₀ d₀ (earlier ++ before.map fun e => e.2.source) e.2 := by
  induction planned generalizing m d earlier with
  | nil => simp [batch_nil]
  | cons e rest ih =>
    have hplan := hplanned e List.mem_cons_self
    obtain ⟨hhead, hpairwise⟩ := List.pairwise_cons.1 hdistinct
    rw [forall_split_cons]
    rw [List.map_cons, batch_cons] at hstop hio ⊢
    simp only [List.map_nil, List.append_nil, List.map_cons]
    by_cases hyields : Yields p.layout m₀ d₀ earlier e.2
    · -- the claim is granted, and nothing else may fail
      have hfailed : ∀ f, ((p.generate occasion m e.1).on d).1 = .error f → f.IsOfWork := fun _ =>
        h.isOfWork hl hroot hno hsources hplan hyields
      have hstep : ∀ g m₁ d₁, (p.generate occasion m e.1).on d = (.ok (g, m₁), d₁) →
          Halfway a p m₀ d₀ (earlier ++ [e.2.source]) rest m₁ d₁ := fun _ _ _ =>
        h.step hp hl hname hplan hhead
      generalize (p.generate occasion m e.1).on d = done at hfailed hstep hstop hio
      obtain ⟨f | ⟨g, m₁⟩, d₁⟩ := done
      · dsimp only at hstop hio hfailed
        cases hreload : Manifest.load p.layout d₁ with
        | error stop =>
          rw [hreload] at hstop
          cases hstop
        | ok m₁ =>
          rw [hreload] at hio
          exact absurd (hfailed f rfl) (hio _ List.mem_cons_self f rfl)
      · have hrest := ih (fun e' he' => hplanned e' (List.mem_cons_of_mem _ he')) hpairwise
          (hstep g m₁ d₁ rfl) hstop fun e' he' => hio e' (List.mem_cons_of_mem _ he')
        dsimp only
        rw [List.forall_mem_cons, hrest]
        simp only [List.append_assoc, List.singleton_append]
        exact ⟨fun h => ⟨hyields, h.2⟩, fun h => ⟨⟨g, rfl⟩, h.2⟩⟩
    · -- the owner stands, and the claim is refused
      obtain ⟨r, hrefused⟩ := h.generate_refused hl hroot hno hsources hplan hyields
      rw [hrefused]
      dsimp only
      rw [h.loaded]
      refine ⟨fun hall => ?_, fun h => absurd h.1 hyields⟩
      obtain ⟨g, hg⟩ := hall _ List.mem_cons_self
      cases hg

end Batch

/-- **Which batches refuse no model.** After any history of runs, let all models that are found have
plans with different artifacts, and let nothing fail but claims. Then no model of the batch is
refused if and only if, for each of them, the record of its artifact names the model itself, a model
that comes earlier, or something that is no file. -/
theorem batch_refuses_none_iff {planned : List (Text × Plan)} (hp : p.Usable)
    (hl : p.layout.root = Path.ofAddress a) (hinside : Config.isInside p.layout.models = true)
    (hname : isName occasion.transactionName = true) (h : History false p a d)
    (hload : Manifest.load p.layout d = .ok m)
    (hmodels : p.layout.discover d = .ok (planned.map Prod.fst))
    (hplanned : ∀ e ∈ planned, p.plan occasion e.1 d = .ok e.2)
    (hdistinct : planned.Pairwise fun e e' => e.2.artifact ≠ e'.2.artifact)
    (hwritten : ∀ artifact record, m.recordOf? artifact = some record →
      ∀ n ∈ (Path.steps record.source).getLast?, n ∉ writtenNames)
    (hstop : (p.batch occasion m (planned.map Prod.fst) d).1.2 = none)
    (hio : ∀ e ∈ (p.batch occasion m (planned.map Prod.fst) d).1.1, ∀ f, e.2 = .error f →
      ∃ artifact owner source, f = .collision artifact owner source) :
    (∀ e ∈ (p.batch occasion m (planned.map Prod.fst) d).1.1, ∃ g, e.2 = .ok g) ↔
      ∀ before e after, planned = before ++ e :: after →
        Yields p.layout m d (before.map fun e => e.2.source) e.2 := by
  have hguarded := h.guarded hl
  have hno : d.tree.NoLinksIn a := fun b => hguarded.linkFree rfl (b ++ a)
  have hsources : ∀ artifact record, m.recordOf? artifact = some record →
      ∃ b, Path.IsWay b ∧ record.source = Path.ofRelative b ∧ ∀ n ∈ b.head?, n ∉ writtenNames :=
    fun artifact record hrecord => by
      obtain ⟨b, hb, hsource⟩ := namesSources_of_history hl h hload artifact record hrecord
      refine ⟨b, hb, hsource, fun n hn => hwritten artifact record hrecord n ?_⟩
      rw [hsource, Path.ofRelative, Path.steps_join fun k hk => hb k (List.mem_reverse.1 hk),
        List.getLast?_reverse]
      exact hn
  have hfound : ∀ e ∈ planned, IsPlanned a p occasion d e := fun e he => by
    obtain ⟨b, content, mode, hmodel, hget⟩ := Layout.exists_model hl
      (Tree.isWay_of_get? hguarded.root) hinside hguarded.root hno hmodels (List.mem_map_of_mem he)
    exact ⟨b, content, mode, hmodel, hget, hplanned e he⟩
  have hstart : Halfway a p m d [] planned m d :=
    ⟨.refl hguarded.root hno, hguarded.bijective_of_load hl hload, hload, fun e _ => by
      cases m.recordOf? e.2.artifact <;> rfl⟩
  have hiff := rest_refuses_none_iff hp hl hname hguarded.root hno hsources hfound hdistinct hstart
    hstop fun e he f hf => by
      rintro ⟨work, cause, rfl⟩
      obtain ⟨artifact, owner, source, hcollision⟩ := hio e he _ hf
      cases hcollision
  simpa using hiff

/-! ### A model that takes over the artifact of a later one -/

/-- The sample project after its model has been given another id. -/
def sampleRenamed : Disk :=
  { sampleGenerated with
    tree := sampleGenerated.tree.set "x.fcm" ["axioms", "p"] (.file (Text.utf8 "Model: y") false) }

/-- The sample project after the former id of its model has been given to a new one, which comes
before it. -/
def samplePassedOn : Disk :=
  { sampleRenamed with
    tree := sampleRenamed.tree.set "a.fcm" ["axioms", "p"] (.file (Text.utf8 "Model: x") false) }

theorem history_samplePassedOn : History false sampleProject ["p".toList] samplePassedOn := by
  have hrenamed : History false sampleProject ["p".toList] sampleRenamed :=
    history_sampleGenerated.write (by rfl) (by decide) _ (by decide) _ _
  exact hrenamed.write (by rfl) (by decide) _ (by decide) _ _

/-- What is found, planned and on record there, and what the batch does. -/
theorem runs_samplePassedOn :
    (sampleProject.layout.discover samplePassedOn).toOption =
      some ["/p/axioms/a.fcm".toList, "/p/axioms/x.fcm".toList] ∧
    (sampleProject.plan sampleOccasion "/p/axioms/a.fcm".toList samplePassedOn).toOption.map
      (fun plan => (plan.source, plan.artifact)) =
        some ("axioms/a.fcm".toList, "actions/core/x".toList) ∧
    (sampleProject.plan sampleOccasion "/p/axioms/x.fcm".toList samplePassedOn).toOption.map
      (fun plan => (plan.source, plan.artifact)) =
        some ("axioms/x.fcm".toList, "actions/core/y".toList) ∧
    ((Manifest.load sampleProject.layout samplePassedOn).toOption.map fun m =>
      m.generated.toList.map fun e => (e.1, e.2.source)) =
        some [("actions/core/x".toList, "axioms/x.fcm".toList)] ∧
    ((Manifest.load sampleProject.layout samplePassedOn).toOption.map fun m =>
      let done := (sampleProject.batch sampleOccasion m
        ["/p/axioms/a.fcm".toList, "/p/axioms/x.fcm".toList] samplePassedOn).1
      (done.2, done.1.all fun e => match e.2 with
        | .ok _ => true
        | .error (.collision _ _ _) => true
        | .error _ => false)) = some (none, true) ∧
    samplePassedOn.isFile (sampleProject.layout.resolve "axioms/x.fcm") = true := by
  decide +kernel

/-- The batch refuses one of the two models, though their artifacts differ: the record of
`actions/core/x` names the model that is gone through after the one that claims it. -/
theorem batch_refuses_samplePassedOn :
    ∃ (m : Manifest) (planned : List (Text × Plan)),
      Manifest.load sampleProject.layout samplePassedOn = .ok m ∧
      sampleProject.layout.discover samplePassedOn = .ok (planned.map Prod.fst) ∧
      (planned.Pairwise fun e e' => e.2.artifact ≠ e'.2.artifact) ∧
      ¬ ∀ e ∈ (sampleProject.batch sampleOccasion m (planned.map Prod.fst) samplePassedOn).1.1,
        ∃ g, e.2 = .ok g := by
  have hruns := runs_samplePassedOn
  have hhistory := history_samplePassedOn
  -- from here on nothing is evaluated any more
  generalize samplePassedOn = d at hruns hhistory ⊢
  obtain ⟨hmodels, hfirst, hsecond, hrecords, hbatch, hfile⟩ := hruns
  obtain ⟨first, hfirst, hnames₁⟩ := Option.map_eq_some_iff.1 hfirst
  obtain ⟨second, hsecond, hnames₂⟩ := Option.map_eq_some_iff.1 hsecond
  obtain ⟨m, hm, hrecords⟩ := Option.map_eq_some_iff.1 hrecords
  obtain ⟨hsource₁, hartifact₁⟩ := Prod.mk.inj hnames₁
  obtain ⟨-, hartifact₂⟩ := Prod.mk.inj hnames₂
  rw [hm] at hbatch
  obtain ⟨hstop, hcollisions⟩ := Prod.mk.inj (Option.some.inj hbatch)
  -- the only record is the one that the earlier run has left
  have hrecorded : ∀ artifact record, m.recordOf? artifact = some record →
      record.source = "axioms/x.fcm".toList := fun artifact record hrecord => by
    have hmem : (artifact, record.source) ∈ m.generated.toList.map fun e => (e.1, e.2.source) :=
      List.mem_map.2 ⟨(artifact, record), Dict.mem_toList_iff.2 hrecord, rfl⟩
    rw [hrecords, List.mem_singleton] at hmem
    exact (Prod.mk.inj hmem).2
  obtain ⟨e, hmem, he⟩ := List.mem_map.1 (hrecords ▸ List.mem_singleton_self _)
  obtain ⟨hartifact, hsource⟩ := Prod.mk.inj he
  have hrecord : m.recordOf? first.artifact = some e.2 := by
    rw [hartifact₁, ← hartifact]
    exact Dict.mem_toList_iff.1 hmem
  let planned := [("/p/axioms/a.fcm".toList, first), ("/p/axioms/x.fcm".toList, second)]
  have hdistinct : planned.Pairwise fun e e' => e.2.artifact ≠ e'.2.artifact := by
    simp [planned, hartifact₁, hartifact₂]
  have hdiscover : sampleProject.layout.discover d = .ok (planned.map Prod.fst) :=
    eq_ok_of_toOption hmodels
  have hplanned : ∀ e ∈ planned, sampleProject.plan sampleOccasion e.1 d = .ok e.2 :=
    List.forall_mem_cons.2 ⟨eq_ok_of_toOption hfirst, List.forall_mem_singleton.2
      (eq_ok_of_toOption hsecond)⟩
  have hwritten : ∀ artifact record, m.recordOf? artifact = some record →
      ∀ n ∈ (Path.steps record.source).getLast?, n ∉ writtenNames := fun artifact record h => by
    rw [hrecorded artifact record h]
    decide
  have hio : ∀ e ∈ (sampleProject.batch sampleOccasion m (planned.map Prod.fst) d).1.1,
      ∀ f, e.2 = .error f → ∃ artifact owner source, f = .collision artifact owner source :=
    fun e he f hf => by
      have hcollision := List.all_eq_true.1 hcollisions e he
      rw [hf] at hcollision
      cases f <;> simp at hcollision ⊢
  have husable : sampleProject.Usable := ⟨by rfl, by rfl⟩
  have hiff := batch_refuses_none_iff husable (by rfl) (by decide) (by decide)
    hhistory (eq_ok_of_toOption hm) hdiscover hplanned hdistinct hwritten hstop hio
  refine ⟨m, planned, eq_ok_of_toOption hm, hdiscover, hdistinct, fun hall => ?_⟩
  have hyields := hiff.1 hall [] _ _ rfl e.2 hrecord
  rcases hyields with hown | hearlier | hgone
  · rw [hsource, hsource₁] at hown
    exact absurd hown (by decide)
  · cases hearlier
  · rw [hsource] at hgone
    exact hgone hfile

end Project

end ActionBundles
