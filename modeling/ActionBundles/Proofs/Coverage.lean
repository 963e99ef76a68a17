import ActionBundles.Proofs.Recording
import ActionBundles.Proofs.Verdicts
import ActionBundles.Proofs.WorkingDirectory

/-!
# Coverage after a batch

When all actions of a project without links have been generated without a failure, every model that
is found is mapped under the path that the coverage check computes for it, so the check passes
(`Command.covers_after_batch`). Generating an action maps its model; a claim in the same batch
forgets models, but only those whose file is gone, and a model that is found is there to the end.
-/

namespace ActionBundles

open ActionBundles.Action

namespace Project

variable {a : Address} {p : Project} {occasion : Occasion} {m m' : Manifest} {models : List Text}
  {path : Text} {d d' : Disk} {b : Address}

/-- Whether the model at `b` is mapped. -/
def Covers (m : Manifest) (b : Address) : Prop := (m.artifactOf? (Path.ofRelative b)).isSome = true

/-- Generating an action maps its model and keeps the models that are there mapped. -/
theorem covers_of_generate {g : Generated} (hl : p.layout.root = Path.ofAddress a)
    (h : (p.generate occasion m path).on d = (.ok (g, m'), d')) :
    (∀ path' b content mode, IsModel a path' b → d.tree.get? (b ++ a) = some (.file content mode) →
      Covers m b → Covers m' b) ∧
    ∀ b content mode, IsModel a path b → d.tree.get? (b ++ a) = some (.file content mode) →
      Covers m' b := by
  obtain ⟨plan, kept, d₁, hcarried⟩ := exists_of_generate h
  have hmapped : ∀ {path' b content mode}, IsModel a path' b →
      d.tree.get? (b ++ a) = some (.file content mode) →
      m'.artifactOf? (Path.ofRelative b) = if Path.ofRelative b = plan.source then
        some plan.artifact else m.artifactOf? (Path.ofRelative b) := fun hmodel hget =>
    hcarried.artifactOf? (hmodel.isFile hl hget)
  refine ⟨fun path' b content mode hmodel hget hcovers => ?_, fun b content mode hmodel hget => ?_⟩
  · rw [Covers, hmapped hmodel hget]
    split
    · rfl
    · exact hcovers
  · have hplan := hcarried.planned
    rw [hmodel.plan hl hget] at hplan
    rw [Covers, hmapped hmodel hget, if_pos (source_of_planOf hplan).symm]
    rfl

/-- After a batch without failures all its models are mapped in the manifest that is stored. -/
theorem covers_of_batch (hp : p.Usable) (hl : p.layout.root = Path.ofAddress a)
    (hname : isName occasion.transactionName = true) (hroot : d.tree.get? a = some .directory)
    (hno : d.tree.NoLinksIn a)
    (hload : Manifest.load p.layout d = .ok m)
    (hmodels : ∀ path ∈ models, ∃ b content mode, IsModel a path b ∧
      d.tree.get? (b ++ a) = some (.file content mode))
    (hstop : (p.batch occasion m models d).1.2 = none)
    (hall : ∀ e ∈ (p.batch occasion m models d).1.1, ∃ g, e.2 = .ok g) :
    ∃ m', Manifest.load p.layout (p.batch occasion m models d).2 = .ok m' ∧
      (∀ path b content mode, IsModel a path b →
        d.tree.get? (b ++ a) = some (.file content mode) → Covers m b → Covers m' b) ∧
      ∀ path ∈ models, ∃ b, IsModel a path b ∧ Covers m' b := by
  induction models generalizing m d with
  | nil => exact ⟨m, hload, fun _ _ _ _ _ _ hcovers => hcovers, by simp⟩
  | cons path rest ih =>
    have hsteady : Steady a d.tree ((p.generate occasion m path).on d).2.tree :=
      steady_generate hl hroot hno hp hname
    have hstored : ∀ g m' d', (p.generate occasion m path).on d = (.ok (g, m'), d') →
        Manifest.load p.layout d' = .ok m' := fun _ _ _ => load_of_generate hp hl hname hroot hno
    have hcovered := fun g m' d' (h : (p.generate occasion m path).on d = (.ok (g, m'), d')) =>
      covers_of_generate hl h
    rw [batch_cons] at hstop hall ⊢
    generalize (p.generate occasion m path).on d = generated at hsteady hstored hcovered hstop hall
    obtain ⟨e | ⟨g, m₁⟩, d₁⟩ := generated
    · -- a model that fails is either the last one of the batch or a failure in it
      dsimp only at hstop hall
      cases hreload : Manifest.load p.layout d₁ with
      | error stop =>
        rw [hreload] at hstop
        cases hstop
      | ok m₁ =>
        rw [hreload] at hall
        obtain ⟨g, hg⟩ := hall _ List.mem_cons_self
        cases hg
    · dsimp only at hsteady hstop hall ⊢
      obtain ⟨hkept, hnew⟩ := hcovered g m₁ d₁ rfl
      have hlater : ∀ path b content mode, IsModel a path b →
          (d₁.tree.get? (b ++ a) = some (.file content mode) ↔
            d.tree.get? (b ++ a) = some (.file content mode)) :=
        fun _ _ _ _ hmodel => hmodel.get?_iff hsteady
      obtain ⟨m', hm', hrest, hothers⟩ := ih hsteady.root hsteady.noLinks (hstored g m₁ d₁ rfl)
        (fun path' hpath' => by
          obtain ⟨b, content, mode, hmodel, hget⟩ := hmodels path' (List.mem_cons_of_mem _ hpath')
          exact ⟨b, content, mode, hmodel, (hlater _ _ _ _ hmodel).2 hget⟩)
        hstop fun e he => hall e (List.mem_cons_of_mem _ he)
      have hcarry : ∀ path b content mode, IsModel a path b →
          d.tree.get? (b ++ a) = some (.file content mode) → Covers m₁ b → Covers m' b :=
        fun path b content mode hmodel hget =>
          hrest path b content mode hmodel ((hlater _ _ _ _ hmodel).2 hget)
      refine ⟨m', hm', fun path' b content mode hmodel hget hcovers =>
        hcarry _ _ _ _ hmodel hget (hkept _ _ _ _ hmodel hget hcovers), ?_⟩
      refine List.forall_mem_cons.2 ⟨?_, hothers⟩
      obtain ⟨b, content, mode, hmodel, hget⟩ := hmodels path List.mem_cons_self
      exact ⟨b, hmodel, hcarry _ _ _ _ hmodel hget (hnew _ _ _ hmodel hget)⟩

end Project

namespace Command

/-- A batch that succeeds was not stopped and has no failure in it. -/
theorem batchOutcome_eq_ok {l : Layout} {total : Nat} {batch : Project.Batch} {stop : Option Failure}
    (h : (batchOutcome l total batch stop).result = .ok true) :
    stop = none ∧ ∀ e ∈ batch, ∃ g, e.2 = .ok g := by
  cases stop with
  | some e => cases h
  | none =>
    refine ⟨rfl, fun e he => ?_⟩
    change (if failures batch = 0 then _ else _) = _ at h
    split at h
    · next hnone =>
      have hok := List.countP_eq_zero.1 hnone e he
      cases hresult : e.2 with
      | ok g => exact ⟨g, rfl⟩
      | error failure => simp [hresult] at hok
    · cases h

/-- The coverage check passes if all models are mapped. -/
theorem verdicts_coverage_of_mapped {l : Layout} {m : Manifest} {d : Disk} {models : List Text}
    (hmodels : l.discover d = .ok models)
    (h : ∀ model ∈ models, ∃ rel, l.relative model = .ok rel ∧ (m.artifactOf? rel).isSome = true) :
    Check.coverage.verdicts l m d = .ok (models.map fun _ => .fine) := by
  rw [Check.verdicts, hmodels]
  refine mapM_eq_map fun model hmodel => ?_
  obtain ⟨rel, hrel, hmapped⟩ := h model hmodel
  rw [Check.mapped, hrel]
  simp [Except.map, hmapped]

variable {root : Text} {a : Address} {occasion : Occasion} {strict : Bool} {d : Disk}

/-- After all actions of a project without links have been generated without a failure, every model
that is found is mapped. -/
theorem exists_mapped_after_batch (hfind : d.find root = .ok (a, .directory))
    (hroot : d.tree.get? a = some .directory) (hno : d.tree.NoLinksIn a)
    (hname : isName occasion.transactionName = true)
    (h : (outcome occasion (.generate root none strict) d).1.result = .ok true) :
    let d' := (outcome occasion (.generate root none strict) d).2
    ∃ p m models, Project.load root d' = .ok p ∧ Manifest.load p.layout d' = .ok m ∧
      p.layout.discover d' = .ok models ∧
      ∀ model ∈ models, ∃ rel, p.layout.relative model = .ok rel ∧
        (m.artifactOf? rel).isSome = true := by
  have hstays := workingDirectory_outcome occasion root strict d
  rw [outcome_generate_all] at h hstays ⊢
  generalize hopen : (openProject root strict).on d = opened at h hstays
  obtain ⟨e | ⟨q, m⟩, d₁⟩ := opened
  · cases h
  obtain ⟨p, rfl, hopened⟩ := Project.opened_of_openProject hfind hroot hno hopen
  dsimp only at h hstays ⊢
  rw [Project.layout_withMode] at h hstays ⊢
  have hroot₁ := hopened.steady.root
  have hno₁ := hopened.steady.noLinks
  have ha := Tree.isWay_of_get? hroot
  cases hmodels : p.layout.discover d₁ with
  | error e =>
    rw [hmodels] at h
    cases h
  | ok models =>
    rw [hmodels] at h hstays
    dsimp only at h hstays ⊢
    by_cases hnone : models = []
    · -- nothing has been done but to take the lock
      subst hnone
      rw [if_pos rfl]
      exact ⟨p, m, [], (Project.load_steady hfind hroot hno hopened.workingDirectory
        hopened.steady).trans hopened.loaded, hopened.manifest, hmodels, by simp⟩
    · rw [if_neg hnone] at h hstays ⊢
      obtain ⟨hstop, hall⟩ := batchOutcome_eq_ok h
      have hp := hopened.usable.withMode strict
      have hl : (withMode p strict).layout.root = Path.ofAddress a := by
        rw [Project.layout_withMode]
        exact hopened.root
      have hfound : ∀ path ∈ models, ∃ b content mode, Project.IsModel a path b ∧
          d₁.tree.get? (b ++ a) = some (.file content mode) := fun path =>
        Layout.exists_model hopened.root ha hopened.inside hroot₁ hno₁ hmodels
      have hsteady : Project.Steady a d₁.tree
          ((withMode p strict).batch occasion m models d₁).2.tree :=
        Project.steady_batch hl hroot₁ hno₁ hp hname
      have hload : Manifest.load (withMode p strict).layout d₁ = .ok m := by
        rw [Project.layout_withMode]
        exact hopened.manifest
      obtain ⟨m', hm', -, hcovers⟩ :=
        Project.covers_of_batch hp hl hname hroot₁ hno₁ hload hfound hstop hall
      rw [Project.layout_withMode] at hm'
      obtain ⟨c, hdenotes, hdir⟩ :=
        Layout.exists_modelsAddress hopened.root ha hopened.inside hroot₁ hno₁ hmodels hnone
      have hdiscover := (Layout.discover_steady hdenotes (List.suffix_append c a) hno₁ hdir
        hsteady).trans hmodels
      have hmapped : ∀ model ∈ models, ∃ rel, p.layout.relative model = .ok rel ∧
          (m'.artifactOf? rel).isSome = true := fun model hmodel => by
        obtain ⟨b, hmodel, hcovered⟩ := hcovers model hmodel
        exact ⟨_, hmodel.relative hopened.root, hcovered⟩
      exact ⟨p, m', models, (Project.load_steady hfind hroot hno hstays
        (hopened.steady.trans hsteady)).trans hopened.loaded, hm', hdiscover, hmapped⟩

/-- **Coverage after a batch.** If all actions of a project without links have been generated
without a failure, the coverage check that follows finds every model mapped. -/
theorem covers_after_batch (hfind : d.find root = .ok (a, .directory))
    (hroot : d.tree.get? a = some .directory) (hno : d.tree.NoLinksIn a)
    (hname : isName occasion.transactionName = true)
    (h : (outcome occasion (.generate root none strict) d).1.result = .ok true) :
    let d' := (outcome occasion (.generate root none strict) d).2
    ∃ p m models, Project.load root d' = .ok p ∧ Manifest.load p.layout d' = .ok m ∧
      p.layout.discover d' = .ok models ∧
      (∀ model ∈ models, ∃ rel, p.layout.relative model = .ok rel ∧
        (m.artifactOf? rel).isSome = true) ∧
      Check.coverage.verdicts p.layout m d' = .ok (models.map fun _ => .fine) := by
  obtain ⟨p, m, models, hload, hm, hmodels, hmapped⟩ :=
    exists_mapped_after_batch hfind hroot hno hname h
  exact ⟨p, m, models, hload, hm, hmodels, hmapped, verdicts_coverage_of_mapped hmodels hmapped⟩

/-- The coverage check passes on the one model of `Project.sampleGenerated`. -/
theorem covers_after_batch_sampleDisk :
    ∃ p m, Project.load ("/p" : Text) Project.sampleGenerated = .ok p ∧
      Manifest.load p.layout Project.sampleGenerated = .ok m ∧
      Check.coverage.verdicts p.layout m Project.sampleGenerated = .ok [.fine] := by
  have hfind : Project.sampleDisk.find ("/p" : Text) = .ok (["p".toList], .directory) := by
    decide
  obtain ⟨hresult, hproject, hfound, -, -⟩ := Project.found_sampleGenerated
  obtain ⟨p, m, models, hload, hm, hmodels, -, hverdicts⟩ :=
    covers_after_batch hfind (by decide)
      (fun b target => Project.linkFree_sampleDisk (b ++ ["p".toList]) target)
      (by decide : isName Project.sampleOccasion.transactionName = true)
      (eq_ok_of_toOption hresult)
  rw [← Project.sampleGenerated_eq] at hload hm hmodels hverdicts
  cases (eq_ok_of_toOption hproject).symm.trans hload
  cases (eq_ok_of_toOption hfound).symm.trans hmodels
  exact ⟨_, m, hload, hm, hverdicts⟩

end Command

end ActionBundles
