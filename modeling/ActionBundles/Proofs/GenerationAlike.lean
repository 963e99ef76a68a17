import ActionBundles.Proofs.Lockstep
import ActionBundles.Proofs.Recording

/-!
# The same generation at another time

An action that is generated from disks and manifests that are alike, at whatever times and in
transactions of whatever names, is generated alike: both runs succeed or both fail, and they leave
disks and manifests that are alike again (`Project.generate_alike`). The names of the transactions
only have to be free, and no file of the bundle may lie where a transaction would be.
-/

namespace ActionBundles

open ActionBundles.Action

/-! ### Manifests -/

namespace Manifest.Alike

variable {m m' : Manifest} {source artifact : Text}

theorem owns (h : m.Alike m') (source artifact : Text) :
    m'.owns source artifact = m.owns source artifact := by
  have huntimed : ∀ o : Option GeneratedRecord, o.any (fun r => decide (r.source = source)) =
      (o.map GeneratedRecord.untimed).any fun r => decide (r.source = source) := fun o => by
    cases o <;> rfl
  rw [Manifest.owns, Manifest.owns, huntimed, h.recordOf?, ← huntimed]

theorem release (h : m.Alike m') (source artifact : Text) :
    (m.release source artifact).Alike (m'.release source artifact) where
  artifactOf? other := by rw [artifactOf?_release, artifactOf?_release, h.artifactOf?]
  recordOf? other := by
    rw [recordOf?_release, recordOf?_release, h.owns]
    split
    · rfl
    · exact h.recordOf? other

theorem forget (h : m.Alike m') (source : Text) : (m.forget source).Alike (m'.forget source) where
  artifactOf? other := by rw [artifactOf?_forget, artifactOf?_forget, h.artifactOf?]
  recordOf? other := by
    rw [Manifest.forget, Manifest.forget, h.artifactOf?]
    cases m.artifactOf? source with
    | none => exact h.recordOf? other
    | some artifact => exact (h.release source artifact).recordOf? other

theorem upsert (h : m.Alike m') {record record' : GeneratedRecord}
    (hrecord : record'.untimed = record.untimed) :
    (m.upsert source artifact record).Alike (m'.upsert source artifact record') where
  artifactOf? other := by rw [artifactOf?_upsert, artifactOf?_upsert, h.artifactOf?]
  recordOf? other := by
    have hput : ∀ {n n' : Manifest}, n.Alike n' →
        ((n'.generated.insert artifact record').get? other).map GeneratedRecord.untimed =
          ((n.generated.insert artifact record).get? other).map GeneratedRecord.untimed :=
      fun {n n'} hn => by
        rw [Dict.get?_insert, Dict.get?_insert]
        split
        · rw [Option.map_some, Option.map_some, hrecord]
        · exact hn.recordOf? other
    rw [Manifest.upsert, Manifest.upsert, h.artifactOf?]
    cases m.artifactOf? source with
    | none => exact hput h
    | some previous =>
      dsimp only
      split
      · exact hput h
      · exact hput (h.release source previous)

end Manifest.Alike

namespace Project

variable {p : Project} {l : Layout} {occasion occasion' : Occasion} {plan plan' : Plan}
  {m m' : Manifest} {path : Text} {a b : Address} {d d' : Disk}

/-! ### Plans -/

/-- Whether two plans differ at most in times. -/
structure Plan.Alike (plan plan' : Plan) : Prop where
  source : plan'.source = plan.source
  artifact : plan'.artifact = plan.artifact
  identity : plan'.identity = plan.identity
  descriptor : plan'.bundle.descriptor = plan.bundle.descriptor
  dockerfile : plan'.bundle.dockerfile = plan.bundle.dockerfile
  entrypoint : plan'.bundle.entrypoint = plan.bundle.entrypoint
  sync : plan'.bundle.sync.untimed = plan.bundle.sync.untimed

/-- A model is planned alike at any time. -/
theorem planOf_alike (p : Project) (a b : Address) (time time' : Text) (content : Bytes) :
    EndAlike AnyTwo Plan.Alike (p.planOf a b time content) (p.planOf a b time' content) := by
  rw [planOf, planOf]
  cases Text.ofUtf8? content with
  | none => exact .error trivial
  | some text =>
    dsimp only
    cases Model.ofText (Path.ofAddress (b ++ a)) p.config.mode text with
    | error e => exact .error trivial
    | ok model => exact .ok ⟨rfl, rfl, rfl, rfl, rfl, rfl, rfl⟩

theorem Plan.Alike.record (h : plan.Alike plan') : plan'.record.untimed = plan.record.untimed := by
  have hversion : plan'.bundle.sync.untimed.version = plan.bundle.sync.untimed.version := by
    rw [h.sync]
  have hversion : plan'.bundle.sync.version = plan.bundle.sync.version := hversion
  rw [Plan.record, Plan.record, GeneratedRecord.untimed, GeneratedRecord.untimed, h.source, hversion]

theorem Plan.Alike.checksum (h : plan.Alike plan') :
    plan'.bundle.sync.checksum = plan.bundle.sync.checksum := by
  have hchecksum : plan'.bundle.sync.untimed.checksum = plan.bundle.sync.untimed.checksum := by
    rw [h.sync]
  exact hchecksum

theorem Plan.Alike.place (h : plan.Alike plan') : plan'.place = plan.place := by
  rw [Plan.place, Plan.place, Plan.gathering, Plan.gathering, h.artifact]

/-! ### Claims -/

/-- On disks that are alike, a path leads to a file on both or on neither. -/
theorem isFile_alike (h : d.tree.Alike id d'.tree) (habs : Path.isAbsolute path = true) :
    d'.isFile path = d.isFile path := by
  have hfollow : EndAlike Eq (Spot.Alike id) (d.follow true path (Tree.stepsOf path))
      (d'.follow true path (Tree.stepsOf path)) := by
    rw [Disk.follow, Disk.follow]
    split
    · exact .error rfl
    split
    · exact .error rfl
    · rw [Tree.startOf, Tree.startOf, if_pos habs, if_pos habs]
      exact Tree.walk_alike h _ _ _
  rw [Disk.isFile, Disk.isFile, Disk.find, Disk.find]
  generalize d.follow true path (Tree.stepsOf path) = o at hfollow
  generalize d'.follow true path (Tree.stepsOf path) = o' at hfollow
  cases hfollow with
  | error _ => rfl
  | ok hspot =>
    cases hspot with
    | vacant _ => rfl
    | entry x hnode => cases hnode <;> rfl

theorem isAbsolute_resolve (hl : Path.isAbsolute l.root = true) (rel : Text) :
    Path.isAbsolute (l.resolve rel) = true := by
  cases hrel : Path.isAbsolute rel with
  | false => rw [Layout.resolve, Disk.isAbsolute_join hrel, hl]
  | true => rw [Layout.resolve, Path.join, if_pos hrel, hrel]

theorem claim_alike (hl : Path.isAbsolute l.root = true) (hm : m.Alike m')
    (h : d.tree.Alike id d'.tree) (source artifact : Text) :
    EndAlike AnyTwo Manifest.Alike (claim l m source artifact d)
      (claim l m' source artifact d') := by
  have hrecord := hm.recordOf? artifact
  rw [claim, claim]
  generalize m.recordOf? artifact = o at hrecord
  generalize m'.recordOf? artifact = o' at hrecord
  cases o with
  | none =>
    cases o' with
    | none => exact .ok hm
    | some record' => cases hrecord
  | some record =>
    cases o' with
    | none => cases hrecord
    | some record' =>
      have huntimed : record'.untimed = record.untimed := Option.some.inj hrecord
      have hsource : record'.untimed.source = record.untimed.source := by rw [huntimed]
      have hsource : record'.source = record.source := hsource
      dsimp only
      rw [hsource, isFile_alike h (isAbsolute_resolve hl record.source)]
      split
      · exact .ok hm
      split
      · exact .error trivial
      · exact .ok (hm.forget record.source)

/-! ### Publishing -/

section Gather

variable {f : Address → Address} {r : Address} {tx tx' : Transaction} {n : Text}
  (hp : p.Usable) (hplan : plan.Sound p) (h : Transaction.Paired f a r tx tx')

/-- Where a file of a bundle is gathered, by the directory of the transaction. -/
theorem join_gathering (hp : p.Usable) (hplan : plan.Sound p) (hne : r ≠ []) (hr : Path.IsWay r)
    (htx : tx.dir = Path.ofAddress r) (n : Text) :
    Path.join tx.stagingDir (plan.artifact ++ '/' :: n) =
      Path.ofAddress r ++ '/' :: ("staging" ++ '/' :: (plan.artifact ++ '/' :: n)) := by
  have hrel : Path.isAbsolute (plan.artifact ++ '/' :: n) = false := by
    rw [hplan.artifact]
    exact Layout.isAbsolute_artifact (isInside_actions hp) _ _ _
  rw [Transaction.stagingDir, htx, Path.join_ofAddress hr (by decide),
    Path.join_relative (by decide) hrel, Path.ofAddress_cons hne, List.append_assoc,
    List.cons_append]

include hp hplan h

theorem nested_gathering (hr : Path.IsWay r) (hr' : Path.IsWay (f r))
    (hn : n ∈ Transaction.bundleNames) :
    Path.Nested f a r (Path.join tx.stagingDir (plan.artifact ++ '/' :: n))
      (Path.join tx'.stagingDir (plan.artifact ++ '/' :: n)) := by
  have hne' : f r ≠ [] := fun he => h.ne_nil (h.renames.eq_nil_iff.1 he)
  obtain ⟨-, hsteps, hstays⟩ := steps_gathering hp hplan hr h.dir hn
  rw [join_gathering hp hplan h.ne_nil hr h.dir] at hsteps ⊢
  rw [join_gathering hp hplan hne' hr' h.dir']
  rw [Path.steps_within hr (.inr rfl), List.append_cancel_left_eq] at hsteps
  rw [← hsteps] at hstays
  have hmem : n ∈ Path.steps ('/' :: ("staging".toList ++ '/' :: (plan.artifact ++ '/' :: n))) := by
    rw [hsteps]
    exact List.mem_append_right _ (List.mem_singleton_self n)
  exact Path.nested_within h.ne_nil hr hr' hne' rfl hmem
    (Path.isStep_iff.1 (Transaction.ne_of_mem_bundleNames hn).2.2.2).2.1 hstays
    (h.own _ hstays)

theorem abreast_gather (hr : Path.IsWay r) (hr' : Path.IsWay (f r)) (hplans : plan.Alike plan') :
    Abreast (Disk.Alongside f a r) AnyTwo Eq (plan.gather tx) (plan'.gather tx') := by
  have hnested : ∀ n ∈ Transaction.bundleNames, _ := fun n =>
    nested_gathering (n := n) hp hplan h hr hr'
  rw [Plan.gather, Plan.gather, hplans.artifact, hplans.descriptor, hplans.dockerfile,
    hplans.entrypoint]
  exact (Transaction.abreast_stage h (hnested _ (by decide)) (.same _)).bind fun _ _ _ =>
    (Transaction.abreast_stage h (hnested _ (by decide)) (.same _)).bind fun _ _ _ =>
      (Transaction.abreast_stageExecutable h (hnested _ (by decide)) (.same _)).bind fun _ _ _ =>
        Transaction.abreast_stage h (hnested _ (by decide)) (.sync hplans.sync)

end Gather

/-- What was gathered for a plan is published to places that keep their names. -/
theorem keepNames_gathered {f : Address → Address} {r : Address} {d : Disk}
    (hcollects : Transaction.Collects r (Path.landing [] plan.gathering ++ r) plan.bundle.files
      d.tree)
    (hstaging : d.tree.get? (Transaction.stagingAddress r) = some .directory)
    (hfix : ∀ n ∈ Transaction.bundleNames, f (n :: (plan.place ++ a)) = n :: (plan.place ++ a) ∧
      f (Transaction.draftName n :: (plan.place ++ a)) =
        Transaction.draftName n :: (plan.place ++ a)) :
    Transaction.KeepNames f a (Transaction.gathered d r) := fun b hb => by
  have hnames : ∀ n node, (n, node) ∈ plan.bundle.files → n ∈ Transaction.bundleNames ∧
      ∃ content mode, node = .file content mode := fun n node => Bundle.mem_bundleNames_of_mem_files
  obtain ⟨-, content, mode, hget⟩ := ((Transaction.filesBelow_gathered hstaging
    (hcollects.noLinksStaging hnames)).2.2 b).1 hb
  obtain ⟨n, node, e, hn, rfl, he⟩ := (hcollects.mem_gathered hnames hstaging).1 hb
  obtain rfl := Plan.eq_place he
  obtain ⟨hplace, hdraft⟩ := hfix n (hnames n node hn).1
  exact ⟨n, plan.place, rfl,
    fun k hk => Tree.isName_of_mem hget k (List.mem_append_left _ hk), hplace, hdraft⟩

/-- What holds when the files of a plan have been gathered. -/
theorem GatherOutcome.of_gather {P S : Tree → Prop} {tx : Transaction} {d d' : Disk}
    (h : GatherOutcome P S (pure []) ((plan.gather tx >>= fun _ => pure []).on d))
    (hgather : (plan.gather tx).on d = (.ok (), d')) : P d'.tree ∧ S d'.tree := by
  rw [on_bind_ok hgather, on_pure] at h
  generalize hout : ((.ok [], d') : Except Failure (List Text) × Disk) = outcome at h
  cases h with
  | failed e d₁ _ => cases hout
  | gathered d₁ hP hS =>
    cases hout
    exact ⟨hP, hS⟩

/-- What is gathered for a plan, if all of it is. -/
theorem collects_of_gather {r : Address} {tx : Transaction} {d d' : Disk} (hp : p.Usable)
    (hplan : plan.Sound p) (hin : a <:+ r) (htx : tx.dir = Path.ofAddress r)
    (hroot : d.tree.get? a = some .directory) (hno : d.tree.NoLinksIn a)
    (h : Transaction.Collects r (Path.landing [] plan.gathering ++ r) [] d.tree)
    (hgather : (plan.gather tx).on d = (.ok (), d')) :
    Transaction.Collects r (Path.landing [] plan.gathering ++ r) plan.bundle.files d'.tree := by
  have houtcome : GatherOutcome (d.tree.Changed (fun _ => True) (fun _ => True) a) _ _ _ :=
    gather_outcome hp hplan hin (fun _ _ => trivial) (fun _ _ _ _ _ _ => trivial) htx
      (.refl hroot hno) h (pure [])
  exact (houtcome.of_gather hgather).2

/-- The files of a bundle, and their drafts, are not where a transaction of that name would be. -/
def Plan.Avoids (plan : Plan) (a : Address) (name : Text) : Prop :=
  ∀ n ∈ Transaction.bundleNames, ¬ name :: transactionsAddress a <:+ n :: (plan.place ++ a) ∧
    ¬ name :: transactionsAddress a <:+ Transaction.draftName n :: (plan.place ++ a)

/-- What comes of starting a transaction under two names. -/
inductive StartAlike (f : Address → Address) (a r : Address) :
    Except Failure Transaction × Disk → Except Failure Transaction × Disk → Prop
  | failed (e e' : Failure) {d d' : Disk} (h : d.tree.Alike id d'.tree) :
      StartAlike f a r (.error e, d) (.error e', d')
  | done {tx tx' : Transaction} {d d' : Disk} (hpaired : Transaction.Paired f a r tx tx')
      (h : d.Alongside f a r d')
      (hempty : ∀ b, b ≠ [] → d.tree.get? (b ++ r) = none) :
      StartAlike f a r (.ok tx, d) (.ok tx', d')

section Start

variable {name name' : Text} (hname : isName name = true) (hname' : isName name' = true)

include hname hname'

/-- Two directories of free names, made on disks that are alike. -/
theorem startAlike_of_free (h : d.Alongside id a a d')
    (hdir : d.tree.get? (transactionsAddress a) = some .directory)
    (hfree : d.tree.get? (name :: transactionsAddress a) = none)
    (hfree' : d.tree.get? (name' :: transactionsAddress a) = none) :
    StartAlike (Address.exchange (transactionsAddress a) name name') a
      (name :: transactionsAddress a)
      (.ok ⟨Path.ofAddress (name :: transactionsAddress a)⟩,
        { d with tree := d.tree.set name (transactionsAddress a) .directory })
      (.ok ⟨Path.ofAddress (name' :: transactionsAddress a)⟩,
        { d' with tree := d'.tree.set name' (transactionsAddress a) .directory }) := by
  have hrenaming : Renaming (Address.exchange (transactionsAddress a) name name') :=
    Address.renaming_exchange hname hname'
  have hown : Address.exchange (transactionsAddress a) name name' (name :: transactionsAddress a) =
      name' :: transactionsAddress a := Address.exchange_own []
  have hget := Tree.get?_set_of_directory hdir hname (.inl rfl : Node.directory = .directory ∨ _)
  have hchanged : d.tree.Changed (fun _ => False) (fun _ => True) a
      (d.tree.set name (transactionsAddress a) .directory) :=
    (Tree.Changed.refl h.root h.noLinks).makeDirectory hfree trivial
  refine .done
    { renames := hrenaming
      project := hrenaming.eq_of_suffix Address.exchange_above (suffix_transactionsAddress a)
      inside := (suffix_transactionsAddress a).trans (List.suffix_cons _ _)
      ne_nil := List.cons_ne_nil _ _
      own := fun ms hms => Address.passes_own (b := []) hms
      dir := rfl
      dir' := by rw [hown] }
    { alike := ?_
      root := hchanged.root
      base := (hget _).trans (if_pos rfl)
      noLinks := hchanged.noLinks } fun b hb => ?_
  · exact ((Tree.alike_exchange_iff hname hname' hfree hfree').2 h.alike).set hrenaming hown
      .directory
  · refine (hget _).trans ?_
    rw [if_neg fun he => hb (List.append_cancel_right (he.trans (List.nil_append _).symm))]
    exact get?_eq_none_of_suffix hfree (List.suffix_append _ _)

theorem start_alike (hroot : d.tree.get? a = some .directory) (hno : d.tree.NoLinksIn a)
    (h : d.tree.Alike id d'.tree) (hfree : d.tree.get? (name :: transactionsAddress a) = none)
    (hfree' : d.tree.get? (name' :: transactionsAddress a) = none) :
    StartAlike (Address.exchange (transactionsAddress a) name name') a
      (name :: transactionsAddress a)
      ((Transaction.start (Path.ofAddress (transactionsAddress a)) name).on d)
      ((Transaction.start (Path.ofAddress (transactionsAddress a)) name').on d') := by
  have hway : Path.IsWay (transactionsAddress a) :=
    (isWay_bridgeAddress (Tree.isWay_of_get? hroot)).cons (by decide)
  have hnul : ∀ k ∈ transactionsAddress a, '\x00' ∉ k :=
    List.forall_mem_cons.2 ⟨by decide, List.forall_mem_cons.2
      ⟨by decide, Disk.nul_not_mem_of_get? hroot⟩⟩
  have hmade := Disk.made_makeDirectories hway hnul
    (Disk.plain_of_noLinksIn (c := ["txns".toList, ".bridge".toList]) hno hroot)
  have hchanged : d.tree.Changed (fun _ => False) (· <:+ transactionsAddress a) a
      ((Disk.makeDirectories (Path.ofAddress (transactionsAddress a))).on d).2.tree :=
    Disk.changed_makeDirectories_ofAddress hway (suffix_transactionsAddress a) (fun _ hy => hy) d
      (.refl hroot hno)
  have habreast := Disk.abreast_makeDirectories renaming_id rfl (List.suffix_refl a)
    (.fixed hway (suffix_transactionsAddress a) rfl) d d' ⟨h, hroot, hroot, hno⟩
  rw [Transaction.start, Transaction.start, Path.join_ofAddress hway (isStep_of_isName hname),
    Path.join_ofAddress hway (isStep_of_isName hname'), on_bind, on_bind, on_within, on_within]
  generalize (Disk.makeDirectories (Path.ofAddress (transactionsAddress a))).on d = made
    at hmade hchanged habreast
  generalize (Disk.makeDirectories (Path.ofAddress (transactionsAddress a))).on d' = made'
    at habreast
  obtain ⟨made, d₁⟩ := made
  obtain ⟨made', d₁'⟩ := made'
  obtain ⟨hends, hd₁⟩ := habreast
  cases hends with
  | error _ => exact .failed _ _ hd₁.alike
  | ok _ =>
    have hdir : d₁.tree.get? (transactionsAddress a) = some .directory := by
      cases hmade with
      | done _ hnames => rw [Tree.get?_withDirectories hnames, if_pos (List.suffix_refl _)]
    have hstill : ∀ {k : Text}, d.tree.get? (k :: transactionsAddress a) = none →
        d₁.tree.get? (k :: transactionsAddress a) = none := fun {k} hk => by
      refine Option.eq_none_iff_forall_ne_some.2 fun node hnode => ?_
      rcases hchanged.new _ node hnode with hold | ⟨-, hs⟩ | ⟨hf, -⟩
      · cases hk.symm.trans hold
      · exact Nat.not_succ_le_self _ hs.length_le
      · exact hf
    have hdir' : d₁'.tree.get? (transactionsAddress a) = some .directory :=
      (hd₁.alike.directory_iff _).2 hdir
    have hvacant' : d₁'.tree.get? (name' :: transactionsAddress a) = none :=
      (hd₁.alike.none_iff _).2 (hstill hfree')
    dsimp only [Except.mapError]
    rw [on_bind, on_bind, on_within, on_within,
      Disk.makeDirectory_on_vacant hdir hname (hstill hfree),
      Disk.makeDirectory_on_vacant hdir' hname' hvacant']
    exact startAlike_of_free hname hname' hd₁ hdir (hstill hfree) (hstill hfree')

end Start

/-- What has been generated is not where a transaction would be. -/
theorem Plan.Avoids.not_reach {name : Text} (h : plan.Avoids a name) :
    ¬ Reach a plan.place (name :: transactionsAddress a) := by
  have hlength : ∀ n, name :: transactionsAddress a ≠ n :: bridgeAddress a := fun n he => by
    have := congrArg List.length he
    simp [transactionsAddress] at this
  rintro (he | he | ⟨n, hn, he | he⟩)
  · exact hlength _ he
  · exact hlength _ he
  · exact (h n hn).1 (he ▸ List.suffix_refl _)
  · exact (h n hn).2 (he ▸ List.suffix_refl _)

/-- A name for transactions stays free when the bundle of a plan is generated elsewhere. -/
theorem free_of_changed {name : Text} {t t' : Tree} (havoids : plan.Avoids a name)
    (h : t.Changed (Reach a plan.place) (Ways a plan.place) a t')
    (hfree : t.get? (name :: transactionsAddress a) = none) :
    t'.get? (name :: transactionsAddress a) = none := by
  refine Option.eq_none_iff_forall_ne_some.2 fun node hnode => ?_
  rcases h.new _ node hnode with hold | ⟨-, hs | hs⟩ | ⟨hf, -⟩
  · cases hfree.symm.trans hold
  · exact Nat.not_succ_le_self _ hs.length_le
  · exact (havoids Bundle.descriptorName (by decide)).1 (hs.trans (List.suffix_cons _ _))
  · exact havoids.not_reach hf

section Publish

variable (hp : p.Usable) (hl : p.layout.root = Path.ofAddress a)
  (hname : isName occasion.transactionName = true)
  (hname' : isName occasion'.transactionName = true)
  (hroot : d.tree.get? a = some .directory) (hno : d.tree.NoLinksIn a)
  (h : d.tree.Alike id d'.tree)
  (hfree : d.tree.get? (occasion.transactionName :: transactionsAddress a) = none)
  (hfree' : d.tree.get? (occasion'.transactionName :: transactionsAddress a) = none)

include hp hl in
/-- The work of two transactions in lockstep. -/
theorem work_alike {f : Address → Address} {r : Address} {tx tx' : Transaction}
    (hplan : plan.Sound p) (hplans : plan.Alike plan')
    (hpaired : Transaction.Paired f a r tx tx') (h : d.Alongside f a r d')
    (hempty : ∀ b, b ≠ [] → d.tree.get? (b ++ r) = none)
    (hfix : ∀ n ∈ Transaction.bundleNames, f (n :: (plan.place ++ a)) = n :: (plan.place ++ a) ∧
      f (Transaction.draftName n :: (plan.place ++ a)) =
        Transaction.draftName n :: (plan.place ++ a)) :
    let work (plan : Plan) (tx : Transaction) : Action Failure (List Text) :=
      plan.gather tx >>= fun _ => (tx.publish p.layout.root).during (.publishBundle plan.artifact)
    EndAlike AnyTwo Eq ((work plan tx).on d).1 ((work plan' tx').on d').1 ∧
      Disk.Alongside f a r ((work plan tx).on d).2 ((work plan' tx').on d').2 := by
  intro work
  have ha := Tree.isWay_of_get? h.root
  obtain ⟨hr, hr'⟩ := Transaction.isWay_of_alongside h
  have hcollects : ∀ d₁, (plan.gather tx).on d = (.ok (), d₁) →
      Transaction.Collects r (Path.landing [] plan.gathering ++ r) plan.bundle.files d₁.tree :=
    fun d₁ => collects_of_gather hp hplan hpaired.inside hpaired.dir h.root h.noLinks
      (Transaction.collects_nothing _ h.base hempty)
  have hgather := abreast_gather hp hplan hpaired hr hr' hplans d d' h
  rw [show (work plan tx).on d = _ from on_bind .., show (work plan' tx').on d' = _ from on_bind ..]
  generalize (plan.gather tx).on d = gathered at hgather hcollects
  generalize (plan'.gather tx').on d' = gathered' at hgather
  obtain ⟨gathered, d₁⟩ := gathered
  obtain ⟨gathered', d₁'⟩ := gathered'
  obtain ⟨hends, hd₁⟩ := hgather
  cases hends with
  | error _ => exact ⟨.error trivial, hd₁⟩
  | ok _ =>
    have hall := hcollects d₁ rfl
    have hpublish := Transaction.alongside_publish hpaired ha hd₁ fun hthere => by
      have hstaging := hall.staging (fun n node => Bundle.mem_bundleNames_of_mem_files)
        hpaired.dir hthere
      exact ⟨hstaging, keepNames_gathered hall hstaging hfix⟩
    dsimp only at hpublish ⊢
    rw [on_during, on_during, hl]
    generalize (tx.publish (Path.ofAddress a)).on d₁ = published at hpublish ⊢
    generalize (tx'.publish (Path.ofAddress a)).on d₁' = published' at hpublish ⊢
    obtain ⟨published, d₂⟩ := published
    obtain ⟨published', d₂'⟩ := published'
    obtain ⟨hends, hd₂⟩ := hpublish
    refine ⟨?_, hd₂⟩
    cases hends with
    | error _ => exact .error trivial
    | ok he => exact .ok he

include hp hl hname hname' hroot hno h hfree hfree' in
/-- **The same bundle is published alike in two transactions**, whatever fails. -/
theorem publish_alike (hplan : plan.Sound p) (hplans : plan.Alike plan')
    (havoids : plan.Avoids a occasion.transactionName)
    (havoids' : plan.Avoids a occasion'.transactionName) :
    EndAlike AnyTwo Eq ((publish p.layout occasion plan).on d).1
        ((publish p.layout occasion' plan').on d').1 ∧
      Tree.Alike id ((publish p.layout occasion plan).on d).2.tree
        ((publish p.layout occasion' plan').on d').2.tree := by
  have ha := Tree.isWay_of_get? hroot
  have hchanged := (changed_publish hp hl hname hplan hroot hno).mono
    (fun x hx => (.inr (.inr hx) : Reach a plan.place x)) fun _ hd => hd
  have hstarted := start_alike hname hname' hroot hno h hfree hfree'
  rw [publish_eq, transactionsDir_eq ha hl, Transaction.run_on] at hchanged ⊢
  rw [publish_eq, transactionsDir_eq ha hl, Transaction.run_on]
  generalize (Transaction.start (Path.ofAddress (transactionsAddress a))
    occasion.transactionName).on d = started at hstarted hchanged ⊢
  generalize (Transaction.start (Path.ofAddress (transactionsAddress a))
    occasion'.transactionName).on d' = started' at hstarted ⊢
  cases hstarted with
  | failed e e' hd₁ => exact ⟨.error trivial, hd₁⟩
  | @done tx tx' d₁ d₁' hpaired hd₁ hempty =>
    have hworked := work_alike hp hl hplan hplans hpaired hd₁ hempty fun n hn =>
      ⟨Address.exchange_of_not_suffix (havoids n hn).1 (havoids' n hn).1,
        Address.exchange_of_not_suffix (havoids n hn).2 (havoids' n hn).2⟩
    dsimp only at hworked hchanged ⊢
    generalize (plan.gather tx >>= fun _ => (tx.publish p.layout.root).during
      (.publishBundle plan.artifact)).on d₁ = worked at hworked hchanged ⊢
    generalize (plan'.gather tx' >>= fun _ => (tx'.publish p.layout.root).during
      (.publishBundle plan'.artifact)).on d₁' = worked' at hworked ⊢
    obtain ⟨hends, hd₂⟩ := hworked
    have hbase' := (hd₂.alike.directory_iff _).2 hd₂.base
    rw [Transaction.close_on hpaired.dir hd₂.base] at hchanged ⊢
    rw [Transaction.close_on hpaired.dir' hbase']
    refine ⟨hends, ?_⟩
    -- both names are free again
    exact (Tree.alike_exchange_iff hname hname' (free_of_changed havoids hchanged hfree)
      (free_of_changed havoids' hchanged hfree')).1 (hd₂.alike.prune hpaired.renames _)

end Publish

/-! ### Generating -/

/-- Manifests that are alike are stored alike. -/
theorem abreast_save (hl : l.root = Path.ofAddress a) (ha : Path.IsWay a) (hm : m.Alike m') :
    Abreast (Disk.Alongside id a a) AnyTwo Eq (m.save l) (m'.save l) := by
  have hin : a <:+ a := List.suffix_refl a
  have hway := isWay_bridgeAddress ha
  have hfixed : ∀ {n : Text}, Path.isStep n = true →
      Path.Twin id a a (Path.ofAddress (n :: bridgeAddress a)) (Path.ofAddress (n :: bridgeAddress a)) :=
    fun hn => .fixed (hway.cons hn) ((suffix_bridgeAddress a).trans (List.suffix_cons _ _)) rfl
  have hdraft : Path.Twin id a a (Path.ofAddress (draftAddress a)) (Path.ofAddress (draftAddress a)) :=
    hfixed (by decide)
  rw [save_eq ha hl, save_eq ha hl]
  exact ((Disk.abreast_makeDirectories renaming_id rfl hin
    (.fixed hway (suffix_bridgeAddress a) rfl)).within _ _).bind fun _ _ _ =>
      ((Disk.abreast_put renaming_id rfl hin hdraft (.manifest hm) none).within _ _).bind
        fun _ _ _ => (Disk.abreast_move renaming_id rfl hin hdraft (hfixed (by decide))).within _ _

/-- **The same model is generated alike** on disks and manifests that are alike, at any two times
and in transactions of any two free names. -/
theorem generate_alike {b : Address} {content : Bytes} {mode : Bool} (hp : p.Usable)
    (hl : p.layout.root = Path.ofAddress a) (hname : isName occasion.transactionName = true)
    (hname' : isName occasion'.transactionName = true)
    (hroot : d.tree.get? a = some .directory) (hno : d.tree.NoLinksIn a)
    (h : d.tree.Alike id d'.tree) (hm : m.Alike m')
    (hfree : d.tree.get? (occasion.transactionName :: transactionsAddress a) = none)
    (hfree' : d.tree.get? (occasion'.transactionName :: transactionsAddress a) = none)
    (hmodel : IsModel a path b) (hget : d.tree.get? (b ++ a) = some (.file content mode))
    (hget' : d'.tree.get? (b ++ a) = some (.file content mode))
    (havoids : ∀ plan, p.plan occasion path d = .ok plan →
      plan.Avoids a occasion.transactionName ∧ plan.Avoids a occasion'.transactionName) :
    EndAlike AnyTwo (fun done done' => done'.1 = done.1 ∧ done.2.Alike done'.2)
        ((p.generate occasion m path).on d).1 ((p.generate occasion' m' path).on d').1 ∧
      Tree.Alike id ((p.generate occasion m path).on d).2.tree
        ((p.generate occasion' m' path).on d').2.tree := by
  have ha := Tree.isWay_of_get? hroot
  have hplans := planOf_alike p a b occasion.time occasion'.time content
  rw [← hmodel.plan hl hget, ← hmodel.plan hl hget'] at hplans
  rw [generate, generate, on_bind, on_bind, on_consult, on_consult]
  generalize hplan : p.plan occasion path d = o at hplans
  generalize p.plan occasion' path d' = o' at hplans
  cases hplans with
  | error _ => exact ⟨.error trivial, h⟩
  | @ok plan plan' hplans =>
    obtain ⟨havoid, havoid'⟩ := havoids plan hplan
    have hclaims := claim_alike (by rw [hl, Path.isAbsolute_ofAddress]) hm h plan.source plan.artifact
    dsimp only
    rw [on_bind, on_bind, on_consult, on_consult, hplans.source, hplans.artifact]
    generalize claim p.layout m plan.source plan.artifact d = claimed at hclaims
    generalize claim p.layout m' plan.source plan.artifact d' = claimed' at hclaims
    cases hclaims with
    | error _ => exact ⟨.error trivial, h⟩
    | @ok kept kept' hkept =>
      have hpublish := publish_alike hp hl hname hname' hroot hno h hfree hfree'
        (sound_of_plan hp hplan) hplans havoid havoid'
      have hchanged := changed_publish hp hl hname (sound_of_plan hp hplan) hroot hno
      dsimp only
      rw [on_bind, on_bind]
      generalize (publish p.layout occasion plan).on d = published at hpublish hchanged
      generalize (publish p.layout occasion' plan').on d' = published' at hpublish
      obtain ⟨published, d₁⟩ := published
      obtain ⟨published', d₁'⟩ := published'
      obtain ⟨hends, hd₁⟩ := hpublish
      cases hends with
      | error _ => exact ⟨.error trivial, hd₁⟩
      | @ok files files' hfiles =>
        have hstored : (kept.upsert plan.source plan.artifact plan.record).Alike
            (kept'.upsert plan.source plan.artifact plan'.record) := hkept.upsert hplans.record
        have hsave := abreast_save hl ha hstored d₁ d₁'
          ⟨hd₁, hchanged.root, hchanged.root, hchanged.noLinks⟩
        dsimp only
        rw [on_bind, on_bind]
        generalize (Manifest.save p.layout _).on d₁ = saved at hsave ⊢
        generalize (Manifest.save p.layout _).on d₁' = saved' at hsave ⊢
        obtain ⟨saved, d₂⟩ := saved
        obtain ⟨saved', d₂'⟩ := saved'
        obtain ⟨hends, hd₂⟩ := hsave
        cases hends with
        | error _ => exact ⟨.error trivial, hd₂.alike⟩
        | ok _ =>
          refine ⟨.ok ⟨?_, hstored⟩, hd₂.alike⟩
          rw [hplans.identity, hplans.checksum, hfiles]

end Project

end ActionBundles
