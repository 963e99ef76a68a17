import ActionBundles.Proofs.BundleHistory
import ActionBundles.Proofs.Coverage
import ActionBundles.Proofs.Opening
import ActionBundles.Proofs.ReadDescriptors

/-!
# Projects whose actions are generated all at once

`Project.BatchLife` is the life of a project from a disk without manifest and actions on, in which
actions are only generated all at once. As long as no write fails, only files of the directory of
the models are ever mapped then, beside what holds when actions are generated one by one
(`Project.Agrees`), and every descriptor, also one whose model is mapped elsewhere by now, is as the
checks want it (`Project.Maintained`). After a run without a failure, each model that is there had
its action generated from the bytes that it has (`Command.ledger_after_batch`).
-/

namespace ActionBundles

open ActionBundles.Action

namespace Project

variable {a b : Address} {t t' : Tree} {d d' : Disk} {m m' : Manifest} {last : Ledger}
  {mode : ParseMode} {occasion : Occasion} {models : List Text} {path root : Text} {content : Bytes}
  {executable strict : Bool}

/-! ### Models that are found -/

/-- The directory of the models of a project under the default configuration. -/
def modelsAddress (a : Address) : Address := ("axioms" : Text) :: a

/-- Where models are found that are files, as seen from the project. -/
def IsFound (b : Address) : Prop := ∃ n c, b = n :: (c ++ ["axioms".toList]) ∧ IsModelName n

/-- The paths of the models have no line feeds in them. -/
def HasLineNames (a : Address) (t : Tree) : Prop := ∀ b content executable, IsFound b →
  t.get? (b ++ a) = some (.file content executable) → '\n' ∉ Path.ofRelative b

theorem usable_standard (a : Address) (mode : ParseMode) : (standard a mode).Usable :=
  ⟨rfl, rfl⟩

theorem IsFound.isModel (h : IsFound b) (hget : d.tree.get? (b ++ a) = some (.file content executable)) :
    IsModel a (Path.ofAddress (b ++ a)) b where
  denotes := Path.denotes_ofAddress (Tree.isWay_of_get? hget)
  named := by
    obtain ⟨n, c, rfl, hn⟩ := h
    exact ⟨n, rfl, hn⟩
  leads _ := rfl

/-- The models of a project are the files of the directory of the models with the name of one. -/
theorem mem_models_iff (hroot : d.tree.get? a = some .directory) (hno : d.tree.NoLinksIn a)
    (h : (standard a mode).layout.discover d = .ok models) :
    path ∈ models ↔ ∃ b content executable, path = Path.ofAddress (b ++ a) ∧ IsFound b ∧
      d.tree.get? (b ++ a) = some (.file content executable) := by
  have ha := Tree.isWay_of_get? hroot
  have hdir : (standard a mode).layout.modelsDir = Path.ofAddress (modelsAddress a) :=
    Path.join_ofAddress (n := "axioms".toList) ha (by decide)
  have hway : Path.IsWay (modelsAddress a) := ha.cons (by decide)
  have happend : ∀ n c, n :: (c ++ ["axioms".toList]) ++ a = n :: (c ++ modelsAddress a) := fun n c => by
    rw [modelsAddress]
    simp
  by_cases hthere : d.tree.get? (modelsAddress a) = some .directory
  · obtain ⟨models', hmodels, hall⟩ := Layout.mem_discover_iff (l := (standard a mode).layout)
      (by rw [hdir]; exact Disk.find_of_get? hthere (by simp))
      (fun c target hc => hno (c ++ ["axioms".toList]) target (by rwa [List.append_assoc]))
    cases h.symm.trans hmodels
    rw [hall]
    constructor
    · rintro ⟨n, c, content, executable, rfl, hname, hget⟩
      refine ⟨_, content, executable, ?_, ⟨n, c, rfl, hname⟩, by rwa [happend]⟩
      have hc : Path.IsWay (n :: c) := fun k hk =>
        Tree.isWay_of_get? hget k (List.mem_append_left (modelsAddress a) hk)
      rw [hdir, Path.down_ofAddress hway hc, happend, List.cons_append]
    · rintro ⟨b, content, executable, rfl, ⟨n, c, rfl, hname⟩, hget⟩
      rw [happend] at hget ⊢
      refine ⟨n, c, content, executable, ?_, hname, hget⟩
      have hc : Path.IsWay (n :: c) := fun k hk =>
        Tree.isWay_of_get? hget k (List.mem_append_left (modelsAddress a) hk)
      rw [hdir, Path.down_ofAddress hway hc, List.cons_append]
  · -- without the directory there is nothing to find
    refine iff_of_false (fun hmem => ?_) ?_
    · obtain ⟨c, hdenotes, hget⟩ := Layout.exists_modelsAddress (l := (standard a mode).layout)
        rfl ha (show Config.isInside "axioms".toList = true by decide) hroot hno h
          (List.ne_nil_of_mem hmem)
      rw [hdir] at hdenotes
      have he : modelsAddress a = c ++ a := List.reverse_injective <|
        (Path.denotes_ofAddress hway).names.symm.trans hdenotes.names
      exact hthere (he ▸ hget)
    · rintro ⟨b, content, executable, -, ⟨n, c, rfl, -⟩, hget⟩
      rw [happend] at hget
      exact hthere (Tree.directory_of_suffix (Tree.get?_dir hget) (List.suffix_append c _))

theorem IsFound.get?_iff (h : IsFound b) (hsteady : Steady a t t') :
    t'.get? (b ++ a) = some (.file content executable) ↔
      t.get? (b ++ a) = some (.file content executable) := by
  obtain ⟨n, c, rfl, hn⟩ := h
  exact hsteady.get?_file_iff (not_written_of_not_mem hn.not_mem) content executable

/-- Paths of models that are there. -/
def AreFound (a : Address) (t : Tree) (models : List Text) : Prop := ∀ path ∈ models,
  ∃ b content executable, path = Path.ofAddress (b ++ a) ∧ IsFound b ∧
    t.get? (b ++ a) = some (.file content executable)

theorem AreFound.tail (h : AreFound a t (path :: models)) : AreFound a t models :=
  fun other hother => h other (List.mem_cons_of_mem path hother)

/-- While a run is under way, models stay where they are. -/
theorem AreFound.steady (h : AreFound a t models) (hsteady : Steady a t t') : AreFound a t' models :=
  fun path hpath => by
    obtain ⟨b, content, executable, he, hb, hget⟩ := h path hpath
    exact ⟨b, content, executable, he, hb, (hb.get?_iff hsteady).2 hget⟩

theorem HasLineNames.steady (h : HasLineNames a t) (hsteady : Steady a t t') : HasLineNames a t' :=
  fun b content executable hb hget => h b content executable hb ((hb.get?_iff hsteady).1 hget)

/-! ### Descriptors -/

/-- Every descriptor in the directory of the actions is as the checks want it. -/
def Legible (a : Address) (t : Tree) : Prop := ∀ slug domain content executable,
  t.get? (Bundle.descriptorName :: slug :: domain :: actionsAddress a) =
    some (.file content executable) →
  ∃ text, content = Text.utf8 text ∧ Descriptor.problem? text = none ∧
    Descriptor.hasProvenance text = true

theorem legible_nothing (h : t.get? (actionsAddress a) = none) : Legible a t :=
  fun slug domain _ _ hget => by
    have hbundle := Tree.get?_cons_of_none (Tree.get?_cons_of_none h domain) slug
    cases (Tree.get?_cons_of_none hbundle _).symm.trans hget

theorem Legible.congr (h : Legible a t)
    (hsame : ∀ y, t'.get? (y ++ actionsAddress a) = t.get? (y ++ actionsAddress a)) :
    Legible a t' := fun slug domain content executable hget =>
  h slug domain content executable ((hsame [_, slug, domain]).symm.trans hget)

/-- What happens in the program's own directory leaves the descriptors as they are. -/
theorem Legible.changed {dirs : Address → Prop} (h : Legible a t)
    (hchanged : t.Changed (bridgeAddress a <:+ ·) dirs a t') : Legible a t' :=
  fun slug domain content executable hget => by
    refine h slug domain content executable ((hchanged.get?_file_iff ?_ _ _).1 hget)
    exact (apart_actions a).not_suffix [Bundle.descriptorName, slug, domain]

/-- Putting a bundle in its place leaves all descriptors legible if its own is. -/
theorem Legible.delivered {bundle : Bundle} {slug domain : Text} (h : Legible a t)
    (hdelivered : Delivered a (slug :: domain :: actionsAddress a) bundle.files t t')
    (hproblem : Descriptor.problem? bundle.descriptor = none)
    (hprovenance : Descriptor.hasProvenance bundle.descriptor = true) : Legible a t' := by
  intro slug' domain' content executable hget
  by_cases hne : slug' :: domain' :: actionsAddress a = slug :: domain :: actionsAddress a
  · rw [hne, hdelivered.file _ _ (.head _)] at hget
    cases hget
    exact ⟨_, rfl, hproblem, hprovenance⟩
  · have hbeside := hdelivered.get?_beside (y := [Bundle.descriptorName]) (by simp) hne
      (not_scratch_actions [_, slug', domain'])
    exact h slug' domain' content executable (hbeside.symm.trans hget)

/-- The descriptor that is planned for a model is as the checks want it. -/
theorem legible_of_planOf {p : Project} {time : Text} {plan : Plan}
    (h : p.planOf a b time content = .ok plan) (hb : '\n' ∉ Path.ofRelative b) :
    Descriptor.problem? plan.bundle.descriptor = none ∧
      Descriptor.hasProvenance plan.bundle.descriptor = true := by
  rw [planOf] at h
  split at h
  · cases h
  · next text htext =>
    rw [Model.ofText] at h
    cases hparse : Model.parse p.config.mode text with
    | error e =>
      rw [hparse] at h
      cases h
    | ok model =>
      rw [hparse] at h
      cases h
      have hm := Model.isLinear_parse hparse
      have hslug := Identity.lineFeed_not_mem_slug model (Path.ofAddress (b ++ a))
        p.config.defaultDomain
      have htitle := Identity.lineFeed_not_mem_title model (Path.ofAddress (b ++ a))
        p.config.defaultDomain
      exact ⟨Descriptor.problem?_render hm hslug htitle hb,
        Descriptor.hasProvenance_render hm hslug htitle hb⟩

/-- To publish a legible bundle and store a manifest after it leaves all descriptors legible. -/
theorem Legible.stored {plan : Plan} {out : List Text} (h : Legible a d.tree)
    (hagrees : Agrees a last m d.tree) (hname : isName occasion.transactionName = true)
    (hplan : (standard a mode).plan occasion path d = .ok plan)
    (hproblem : Descriptor.problem? plan.bundle.descriptor = none)
    (hprovenance : Descriptor.hasProvenance plan.bundle.descriptor = true)
    (hpublish : (publish (standard a mode).layout occasion plan).on d = (.ok out, d'))
    (m' : Manifest) : Legible a ((m'.save (standard a mode).layout).on d').2.tree := by
  have houtcome := hagrees.publishes hname hplan
  rw [hpublish] at houtcome
  cases houtcome with
  | done _ _ hdelivered =>
    have hstored : Keeps (d'.tree.Changed (bridgeAddress a <:+ ·) (fun _ => True) a)
        (m'.save (standard a mode).layout) :=
      changed_save rfl (Tree.isWay_of_get? hagrees.root) (List.suffix_cons _ _)
        (List.suffix_cons _ _) fun _ _ => trivial
    exact (h.delivered hdelivered hproblem hprovenance).changed <|
      hstored d' (.refl hdelivered.root hdelivered.noLinks)

/-- Generating the action of a model leaves all descriptors legible, whether it fails or not. -/
theorem Legible.generate (h : Legible a d.tree) (hagrees : Agrees a last m d.tree)
    (hname : isName occasion.transactionName = true) (hmodel : IsModel a path b)
    (hget : d.tree.get? (b ++ a) = some (.file content executable))
    (hb : '\n' ∉ Path.ofRelative b) :
    Legible a (((standard a mode).generate occasion m path).on d).2.tree := by
  have hlegible : ∀ {plan}, (standard a mode).plan occasion path d = .ok plan → _ := fun hplan =>
    legible_of_planOf ((hmodel.plan rfl hget).symm.trans hplan) hb
  have hgenerating := generating (standard a mode) occasion m path d
  generalize ((standard a mode).generate occasion m path).on d = generated at hgenerating ⊢
  cases hgenerating with
  | notPlanned | notClaimed => exact h
  | notPublished plan kept e d' hplan hclaim hpublish =>
    have houtcome := hagrees.publishes hname hplan
    rw [hpublish] at houtcome
    cases houtcome with
    | failed _ _ hconfined => exact h.congr fun y => hconfined.same _ (not_scratch_actions y)
  | notStored plan kept files d₁ e d' hplan hclaim hpublish hsave =>
    obtain ⟨hproblem, hprovenance⟩ := hlegible hplan
    have hstored := h.stored hagrees hname hplan hproblem hprovenance hpublish
      (kept.upsert plan.source plan.artifact plan.record)
    rwa [hsave] at hstored
  | done g m' d' plan kept d₁ hcarried =>
    obtain ⟨hproblem, hprovenance⟩ := hlegible hcarried.planned
    have hstored := h.stored hagrees hname hcarried.planned hproblem hprovenance
      hcarried.published m'
    rwa [hcarried.saved] at hstored

/-! ### Mapped models -/

/-- Only files of the directory of the models are mapped. -/
def SourcesFound (m : Manifest) : Prop := ∀ source artifact,
  m.artifactOf? source = some artifact → ∃ b, source = Path.ofRelative b ∧ IsFound b ∧ Path.IsWay b

/-- Generating the action of a model that was found maps no other model. -/
theorem SourcesFound.generate {g : Generated} (h : SourcesFound m) (hm : m.Bijective)
    (hmodel : IsModel a path b) (hb : IsFound b)
    (hget : d.tree.get? (b ++ a) = some (.file content executable))
    (hgenerate : ((standard a mode).generate occasion m path).on d = (.ok (g, m'), d')) :
    SourcesFound m' := fun source artifact hmapped => by
  obtain ⟨plan, kept, d₁, hcarried⟩ := exists_of_generate hgenerate
  have hplan := hcarried.planned
  rw [hmodel.plan rfl hget] at hplan
  rw [hcarried.manifest, Manifest.artifactOf?_upsert] at hmapped
  split at hmapped
  · next hsource =>
    refine ⟨b, hsource.trans (source_of_planOf hplan), hb, fun n hn => ?_⟩
    exact Tree.isWay_of_get? hget n (List.mem_append_left a hn)
  · exact h source artifact (mapped_of_claim hm hcarried.claimed hmapped).1

/-! ### Maintained projects -/

/-- **A maintained project**: bundles and manifest agree, no other files than models are mapped, and
every descriptor is as the checks want it. -/
structure Maintained (a : Address) (last : Ledger) (m : Manifest) (t : Tree) : Prop
    extends Agrees a last m t where
  lineNames : HasLineNames a t
  legible : Legible a t
  found : SourcesFound m

/-- Taking the lock leaves a project maintained. -/
theorem Maintained.locked {dirs : Address → Prop} (h : Maintained a last m t)
    (hagrees : Agrees a last m t') (hchanged : t.Changed (· = lockAddress a) dirs a t') :
    Maintained a last m t' where
  toAgrees := hagrees
  lineNames := h.lineNames.steady <| hchanged.mono
    (fun _ he => he ▸ ⟨_, _, rfl, by decide, suffix_bridgeAddress a⟩) fun _ _ => trivial
  legible := h.legible.changed <| hchanged.mono (fun _ he => he ▸ List.suffix_cons _ _) fun _ h => h
  found := h.found

/-- A batch of models that were found leaves a project maintained, whichever of them fail. -/
theorem Maintained.batch (h : Maintained a last m d.tree)
    (hname : isName occasion.transactionName = true)
    (hmodels : AreFound a d.tree models) :
    ∃ m', Maintained a
      (((standard a mode).generations occasion m models d).foldl Ledger.enter last) m'
      ((standard a mode).batch occasion m models d).2.tree := by
  induction models generalizing m d last with
  | nil => exact ⟨m, h⟩
  | cons path rest ih =>
    obtain ⟨b, content, executable, rfl, hb, hget⟩ := hmodels path List.mem_cons_self
    have hmodel := hb.isModel hget
    have hgenerate : GenerateOutcome a last m d
        (((standard a mode).generate occasion m (Path.ofAddress (b ++ a))).on d) :=
      h.toAgrees.generate hname _
    have hsteady : Steady a d.tree
        (((standard a mode).generate occasion m (Path.ofAddress (b ++ a))).on d).2.tree :=
      steady_generate rfl h.root h.noLinks (usable_standard a mode) hname
    have hlegible : Legible a
        (((standard a mode).generate occasion m (Path.ofAddress (b ++ a))).on d).2.tree :=
      h.legible.generate h.toAgrees hname hmodel hget (h.lineNames b content executable hb hget)
    have hfound := fun g m' d' (hdone : ((standard a mode).generate occasion m
        (Path.ofAddress (b ++ a))).on d = (.ok (g, m'), d')) =>
      h.found.generate h.bijective hmodel hb hget hdone
    have hlines := h.lineNames.steady hsteady
    have hrest := hmodels.tail.steady hsteady
    rw [generations, batch_cons]
    generalize ((standard a mode).generate occasion m (Path.ofAddress (b ++ a))).on d = generated
      at hgenerate hsteady hlegible hfound hlines hrest
    cases hgenerate with
    | failed e d' h' =>
      dsimp only
      rw [h'.load rfl]
      exact ih ⟨h', hlines, hlegible, h.found⟩ hrest
    | done g m' d' h' => exact ih ⟨h', hlines, hlegible, hfound g m' d' rfl⟩ hrest

/-! ### Runs -/

/-- A run for the project at `a`, which is given by the path `root`, under the default
configuration. -/
structure IsRun (a : Address) (d : Disk) (occasion : Occasion) (root : Text) : Prop where
  name : isName occasion.transactionName = true
  find : d.find root = .ok (a, .directory)
  load : ∀ q, Project.load root d = .ok q → ∃ mode, q = standard a mode

/-- A run that generates all actions leaves a project maintained, with success or not. -/
theorem Maintained.outcome (h : Maintained a last m d.tree) (hrun : IsRun a d occasion root)
    (strict : Bool) :
    ∃ m', Maintained a ((Command.generations occasion root none strict d).foldl Ledger.enter last) m'
      (Command.outcome occasion (.generate root none strict) d).2.tree := by
  have hopen := h.toAgrees.openProject hrun.load strict
  have hchanged : d.tree.Changed (· = lockAddress a) (· <:+ bridgeAddress a) a
      ((Command.openProject root strict).on d).2.tree :=
    Command.changed_openProject hrun.find h.root h.noLinks
  rw [Command.generations, Command.outcome_generate_all]
  generalize (Command.openProject root strict).on d = opened at hopen hchanged
  cases hopen with
  | failed e d' h' => exact ⟨m, h.locked h' hchanged⟩
  | done mode d' h' =>
    have hlocked := h.locked h' hchanged
    dsimp only
    cases hmodels : (standard a mode).layout.discover d' with
    | error e => exact ⟨m, hlocked⟩
    | ok models =>
      dsimp only
      split
      · next hnone =>
        subst hnone
        exact ⟨m, hlocked⟩
      · exact hlocked.batch hrun.name fun path hpath =>
          (mem_models_iff h'.root h'.noLinks hmodels).1 hpath

/-- A run is steady from its start to its end. -/
theorem IsRun.steady [Medium] (hrun : IsRun a d occasion root)
    (hroot : d.tree.get? a = some .directory) (hno : d.tree.NoLinksIn a) (strict : Bool) :
    Steady a d.tree (Command.outcome occasion (.generate root none strict) d).2.tree := by
  have hchanged : Steady a d.tree ((Command.openProject root strict).on d).2.tree :=
    (Command.changed_openProject hrun.find hroot hno).mono
      (fun _ he => he ▸ ⟨_, _, rfl, by decide, suffix_bridgeAddress a⟩) fun _ _ => trivial
  rcases Command.outcome_generate_cases occasion root none strict d with he | ⟨q, m, d₁, models, hopen, he⟩
  · rw [he]
    exact hchanged
  · obtain ⟨p, rfl, hopened⟩ := opened_of_openProject hrun.find hroot hno hopen
    rw [hopen] at hchanged
    have hl : (Command.withMode p strict).layout.root = Path.ofAddress a := by
      rw [layout_withMode, hopened.root]
    rw [he]
    exact hchanged.trans <| steady_batch hl hchanged.root hchanged.noLinks
      (hopened.usable.withMode strict) hrun.name

/-- The life of the project at `a` under the default configuration, from a disk without manifest and
actions on, if actions are only generated all at once. There are no links in the project, no path of
a model has a line feed in it, and its runs are on media of `media`. -/
inductive BatchLife (media : Medium → Prop) (a : Address) : Disk → Prop where
  /-- The project has no manifest and no actions yet. -/
  | start {d : Disk} (root : d.tree.get? a = some .directory) (noLinks : d.tree.NoLinksIn a)
      (lineNames : HasLineNames a d.tree) (manifest : d.tree.get? (manifestAddress a) = none)
      (actions : d.tree.get? (actionsAddress a) = none) : BatchLife media a d
  /-- Models, or any other files, are created, edited, renamed or deleted. The manifest, its draft
  and the actions are left alone. -/
  | edit {d d' : Disk} (before : BatchLife media a d) (root : d'.tree.get? a = some .directory)
      (noLinks : d'.tree.NoLinksIn a) (lineNames : HasLineNames a d'.tree)
      (manifest : d'.tree.get? (manifestAddress a) = d.tree.get? (manifestAddress a))
      (draft : d'.tree.get? (draftAddress a) = d.tree.get? (draftAddress a))
      (actions : ∀ y, d'.tree.get? (y ++ actionsAddress a) = d.tree.get? (y ++ actionsAddress a)) :
      BatchLife media a d'
  /-- All actions are generated, with success or not. -/
  | generate {d : Disk} (before : BatchLife media a d) (medium : Medium) (writes : media medium)
      (occasion : Occasion) (root : Text) (strict : Bool) (run : IsRun a d occasion root) :
      BatchLife media a (Command.outcome occasion (.generate root none strict) d).2

/-- All through such a life, on whatever media, the project is there and has no links, and no path
of a model has a line feed in it. -/
theorem BatchLife.surroundings {media : Medium → Prop} (h : BatchLife media a d) :
    d.tree.get? a = some .directory ∧ d.tree.NoLinksIn a ∧ HasLineNames a d.tree := by
  induction h with
  | start root noLinks lineNames => exact ⟨root, noLinks, lineNames⟩
  | edit before root noLinks lineNames => exact ⟨root, noLinks, lineNames⟩
  | generate before medium writes occasion root strict run ih =>
    obtain ⟨hroot, hno, hlines⟩ := ih
    have hsteady := run.steady hroot hno strict
    exact ⟨hsteady.root, hsteady.noLinks, hlines.steady hsteady⟩

/-- **A project is maintained** all through such a life if no write fails. -/
theorem BatchLife.maintained (h : BatchLife (· = .ample) a d) :
    ∃ last m, Maintained a last m d.tree := by
  induction h with
  | start root noLinks lineNames manifest actions =>
    have horderly : Orderly a _ := ⟨root, noLinks, tidy_nothing actions, fun _ => manifest⟩
    exact ⟨fun _ => none, {}, horderly.agrees_empty manifest, lineNames, legible_nothing actions,
      fun source artifact hmapped => by cases hmapped⟩
  | edit before root noLinks lineNames manifest draft actions ih =>
    obtain ⟨last, m, hm⟩ := ih
    exact ⟨last, m, hm.congr root noLinks manifest draft actions, lineNames, hm.legible.congr actions,
      hm.found⟩
  | generate before medium writes occasion root strict run ih =>
    obtain ⟨last, m, hm⟩ := ih
    subst writes
    exact ⟨_, hm.outcome run strict⟩

/-- Writing a model is an edit. -/
theorem BatchLife.write {media : Medium → Prop} (h : BatchLife media a d) (n : Text) (c : Address)
    (content : Bytes) (executable : Bool)
    (hline : '\n' ∉ Path.ofRelative (n :: (c ++ ["axioms".toList]))) :
    BatchLife media a
      { d with tree := d.tree.set n (c ++ modelsAddress a) (.file content executable) } := by
  obtain ⟨hroot, hno, hlines⟩ := h.surroundings
  have hset : ∀ x, ¬ modelsAddress a <:+ x →
      (d.tree.set n (c ++ modelsAddress a) (.file content executable)).get? x = d.tree.get? x :=
    fun x hx => by
      rw [Tree.get?_set, if_neg]
      rintro ⟨-, rfl⟩
      exact hx (List.suffix_append (n :: c) (modelsAddress a))
  have hown : ∀ k, ¬ modelsAddress a <:+ k :: bridgeAddress a := fun k =>
    ne_axioms (by decide) [k]
  refine .edit h ?_ (hno.set (by simp)) (fun b content' executable' hb hget => ?_)
    (hset _ (hown _)) (hset _ (hown _)) fun y => hset _ (ne_axioms (by decide) y)
  · exact (hset a (Transaction.not_suffix_of_cons _ a)).trans hroot
  · rw [Tree.get?_set] at hget
    split at hget
    · next he =>
      have hplace : b ++ a = n :: (c ++ ["axioms".toList]) ++ a := by
        rw [he.2, modelsAddress]
        simp
      rw [List.append_cancel_right hplace]
      exact hline
    · exact hlines b content' executable' hb hget

/-! ### What the ledger says after a run -/

/-- After a batch without a failure, the ledger has for each of its models the bytes that the model
has. -/
theorem ledger_batch (hroot : d.tree.get? a = some .directory) (hno : d.tree.NoLinksIn a)
    (hname : isName occasion.transactionName = true) (hmodels : AreFound a d.tree models)
    (hstop : ((standard a mode).batch occasion m models d).1.2 = none)
    (hall : ∀ e ∈ ((standard a mode).batch occasion m models d).1.1, ∃ g, e.2 = .ok g)
    (hb : IsFound b) (hget : d.tree.get? (b ++ a) = some (.file content executable))
    (h : last (Path.ofRelative b) = some content ∨ Path.ofAddress (b ++ a) ∈ models) :
    ((standard a mode).generations occasion m models d).foldl Ledger.enter last
      (Path.ofRelative b) = some content := by
  induction models generalizing m d last with
  | nil => exact h.resolve_right List.not_mem_nil
  | cons path rest ih =>
    obtain ⟨b', content', executable', rfl, hb', hget'⟩ := hmodels path List.mem_cons_self
    have hsteady : Steady a d.tree
        (((standard a mode).generate occasion m (Path.ofAddress (b' ++ a))).on d).2.tree :=
      steady_generate rfl hroot hno (usable_standard a mode) hname
    have hrest := hmodels.tail.steady hsteady
    have hsource : ∀ g m' d', ((standard a mode).generate occasion m
        (Path.ofAddress (b' ++ a))).on d = (.ok (g, m'), d') → g.source = Path.ofRelative b' :=
      fun g m' d' hdone => by
        obtain ⟨plan, kept, d₁, hcarried⟩ := exists_of_generate hdone
        have hplan := hcarried.planned
        rw [(hb'.isModel hget').plan rfl hget'] at hplan
        exact hcarried.source.trans (source_of_planOf hplan)
    have hread : d.read ((standard a mode).layout.resolve (Path.ofRelative b)) = .ok content := by
      rw [(hb.isModel hget).resolve rfl, Disk.read, Disk.find_of_get? hget (by simp)]
    rw [batch_cons] at hstop hall
    rw [generations]
    generalize ((standard a mode).generate occasion m (Path.ofAddress (b' ++ a))).on d = generated
      at hsteady hrest hsource hstop hall
    obtain ⟨e | ⟨g, m'⟩, d'⟩ := generated
    · -- a model that fails is either the last one of the batch or a failure in it
      dsimp only at hstop hall
      cases hreload : Manifest.load (standard a mode).layout d' with
      | error stop =>
        rw [hreload] at hstop
        cases hstop
      | ok m' =>
        rw [hreload] at hall
        obtain ⟨g, hg⟩ := hall _ List.mem_cons_self
        cases hg
    · refine ih hsteady.root hsteady.noLinks hrest hstop
        (fun e he => hall e (List.mem_cons_of_mem _ he)) ((hb.get?_iff hsteady).2 hget) ?_
      by_cases hs : Path.ofRelative b = g.source
      · refine .inl ((if_pos hs).trans ?_)
        rw [← hs, hread]
        rfl
      · refine h.imp (if_neg hs).trans fun hmem => (List.mem_cons.1 hmem).resolve_left fun he => hs ?_
        have hsame := Disk.ofAddress_injective (Tree.isWay_of_get? hget) (Tree.isWay_of_get? hget') he
        rw [hsource g m' d' rfl, List.append_cancel_right hsame]

end Project

namespace Command

open Project

variable {a b : Address} {d : Disk} {m : Manifest} {last : Ledger} {occasion : Occasion} {root : Text}
  {strict executable : Bool} {content : Bytes}

/-- **After a run without a failure** each model that is there had its action generated from the
bytes that it has. -/
theorem ledger_after_batch (h : Maintained a last m d.tree) (hrun : IsRun a d occasion root)
    (hresult : (outcome occasion (.generate root none strict) d).1.result = .ok true)
    (hb : IsFound b) (hget : (outcome occasion (.generate root none strict) d).2.tree.get? (b ++ a) =
      some (.file content executable)) :
    (generations occasion root none strict d).foldl Ledger.enter last (Path.ofRelative b) =
      some content := by
  have hopen := h.toAgrees.openProject hrun.load strict
  rw [outcome_generate_all] at hresult hget
  rw [generations]
  generalize (openProject root strict).on d = opened at hopen hresult hget
  cases hopen with
  | failed e d' h' => cases hresult
  | done mode d₁ h₁ =>
    dsimp only at hresult hget ⊢
    cases hmodels : (standard a mode).layout.discover d₁ with
    | error e =>
      rw [hmodels] at hresult
      cases hresult
    | ok models =>
      rw [hmodels] at hresult hget
      dsimp only at hresult hget ⊢
      have hmem : Path.ofAddress (b ++ a) ∈ models ↔ _ :=
        mem_models_iff h₁.root h₁.noLinks hmodels
      split at hget
      · next hnone =>
        subst hnone
        cases hmem.2 ⟨b, content, executable, rfl, hb, hget⟩
      · next hne =>
        rw [if_neg hne] at hresult
        obtain ⟨hstop, hall⟩ := batchOutcome_eq_ok hresult
        have hsteady : Steady a d₁.tree ((standard a mode).batch occasion m models d₁).2.tree :=
          steady_batch rfl h₁.root h₁.noLinks (usable_standard a mode) hrun.name
        have hbefore := (hb.get?_iff hsteady).1 hget
        exact ledger_batch h₁.root h₁.noLinks hrun.name
          (fun path hpath => (mem_models_iff h₁.root h₁.noLinks hmodels).1 hpath) hstop hall hb hbefore
          (.inr (hmem.2 ⟨b, content, executable, rfl, hb, hbefore⟩))

end Command

end ActionBundles
