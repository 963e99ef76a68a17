import ActionBundles.Proofs.Enclosures
import ActionBundles.Proofs.Settlement
import ActionBundles.Proofs.Together

/-!
# Generating an action again

An action that has been generated can be generated once more, whatever stood in the way of its
bundle the first time: its files are in their places, no draft is left beside them, and gathering
depends on nothing else (`Project.publish_again`). The second run gives the same artifact and leaves
the same tree, but for the times in the sync record and in the manifest (`Project.generate_again`).

This takes a model that is not overwritten by its own bundle. A domain of two dots can lead the
bundle out of its directory and over the model.
-/

namespace ActionBundles

open ActionBundles.Action

theorem Tree.Changed.get?_eq {files dirs : Address → Prop} {a x : Address} {t t' : Tree}
    (h : t.Changed files dirs a t') (hfile : ¬ files x)
    (hdir : dirs x → t.get? x = some .directory) : t'.get? x = t.get? x := by
  cases hget' : t'.get? x with
  | none =>
    cases hget : t.get? x with
    | none => rfl
    | some node => cases (h.kept x node hget (.inr hfile)).symm.trans hget'
  | some node =>
    rcases h.new x node hget' with hold | ⟨rfl, hx⟩ | ⟨hx, -⟩
    · exact hold.symm
    · exact (hdir hx).symm
    · exact absurd hx hfile

/-- Whether two manifests differ at most in the time of the record of an artifact. -/
structure Manifest.Retimed (artifact : Text) (m m' : Manifest) : Prop where
  mappings : m'.mappings = m.mappings
  other : ∀ k, k ≠ artifact → m'.recordOf? k = m.recordOf? k
  record : ∃ record record', m.recordOf? artifact = some record ∧
    m'.recordOf? artifact = some record' ∧ record'.untimed = record.untimed

/-- Mapping a model to its artifact again changes nothing but the time of the record. -/
theorem Manifest.retimed_upsert (m : Manifest) (source artifact : Text)
    {record record' : GeneratedRecord} (h : record'.untimed = record.untimed) :
    Manifest.Retimed artifact (m.upsert source artifact record)
      ((m.upsert source artifact record).upsert source artifact record') := by
  have hmapped : (m.upsert source artifact record).artifactOf? source = some artifact := by
    rw [artifactOf?_upsert, if_pos rfl]
  have hmappings : (m.upsert source artifact record).mappings.insert source artifact =
      (m.upsert source artifact record).mappings := Dict.ext_get? fun k => by
    rw [Dict.get?_insert]
    split
    · next he =>
      rw [Std.LawfulEqOrd.eq_of_compare he]
      exact hmapped.symm
    · rfl
  refine ⟨?_, fun k hk => ?_, record, record', recordOf?_upsert_self .., recordOf?_upsert_self .., h⟩
  · rw [upsert, hmapped]
    dsimp only
    rw [if_pos rfl, hmappings]
  · rw [upsert, hmapped]
    dsimp only
    rw [if_pos rfl, recordOf?, Dict.get?_insert, if_neg fun he => hk
      (Std.LawfulEqOrd.eq_of_compare he)]
    rfl

namespace Project

variable {p : Project} {l : Layout} {occasion occasion' : Occasion} {plan plan' : Plan}
  {m m' : Manifest} {path path' name : Text} {a b : Address} {d d' : Disk} {files : List Text}

/-- The files of a bundle are in their places, and no draft is beside them. -/
structure Plan.InPlace (plan : Plan) (a : Address) (t : Tree) : Prop where
  file : ∀ n node, (n, node) ∈ plan.bundle.files → t.get? (n :: (plan.place ++ a)) = some node
  draft : ∀ n ∈ Transaction.bundleNames,
    t.get? (Transaction.draftName n :: (plan.place ++ a)) = none

theorem Plan.InPlace.directory {t : Tree} (h : plan.InPlace a t) :
    t.get? (plan.place ++ a) = some .directory :=
  Tree.get?_dir (h.file _ _ (.head _))

/-- Where a bundle is in its place, there is room for it. -/
theorem Plan.InPlace.hasRoom {t : Tree} (h : plan.InPlace a t) :
    t.HasRoom (plan.place ++ a) Transaction.bundleNames where
  clear := Tree.clear_of_directory h.directory
  place n hn := by
    obtain ⟨content, mode, hmem⟩ := plan.bundle.exists_mem_files hn
    rw [h.file n _ hmem]
    simp
  draft := h.draft

theorem Plan.InPlace.congr {t t' : Tree} (h : plan.InPlace a t)
    (hsame : ∀ n, n ∈ Transaction.bundleNames → ∀ k, k = n ∨ k = Transaction.draftName n →
      t'.get? (k :: (plan.place ++ a)) = t.get? (k :: (plan.place ++ a))) : plan.InPlace a t' where
  file n node hn :=
    (hsame n (Bundle.mem_bundleNames_of_mem_files hn).1 n (.inl rfl)).trans (h.file n node hn)
  draft n hn := (hsame n hn _ (.inr rfl)).trans (h.draft n hn)

theorem Plan.Avoids.spares (h : plan.Avoids a name) : Address.Spares
    (name :: transactionsAddress a) (plan.place ++ a) Transaction.bundleNames where
  directory hs := (h Bundle.descriptorName (by decide)).1 (hs.trans (List.suffix_cons _ _))
  place n hn := (h n hn).1
  draft n hn := (h n hn).2

/-! ### Publishing -/

/-- Whether a transaction has just been started at `r`: its directory is there and is empty, and
everything else is as it was. -/
structure Begun (a r : Address) (tx : Transaction) (t t' : Tree) : Prop where
  dir : tx.dir = Path.ofAddress r
  root : t'.get? a = some .directory
  noLinks : t'.NoLinksIn a
  directory : t'.get? r = some .directory
  empty : ∀ b, b ≠ [] → t'.get? (b ++ r) = none
  same : ∀ x, ¬ r <:+ x → t'.get? x = t.get? x

/-- A transaction whose name is free is started where there are transactions. -/
theorem begun_of_free (hno : d.tree.NoLinksIn a)
    (hdir : d.tree.get? (transactionsAddress a) = some .directory)
    (hname : isName name = true) (hfree : d.tree.get? (name :: transactionsAddress a) = none) :
    ∃ tx d', (Transaction.start (Path.ofAddress (transactionsAddress a)) name).on d = (.ok tx, d') ∧
      Begun a (name :: transactionsAddress a) tx d.tree d'.tree := by
  have hmake := Disk.makeDirectories_on_clear (Tree.clear_of_directory hdir) (Tree.isName_of_mem hdir)
  rw [Tree.withDirectories_of_directory hdir] at hmake
  rw [Transaction.start, Path.join_ofAddress (Tree.isWay_of_get? hdir) (isStep_of_isName hname),
    on_bind, on_within, hmake]
  dsimp only [Except.mapError]
  rw [on_bind, on_within, Disk.makeDirectory_on_vacant hdir hname hfree]
  have hget : ∀ x, (d.tree.set name (transactionsAddress a) .directory).get? x =
      if x = name :: transactionsAddress a then some .directory else d.tree.get? x :=
    Tree.get?_set_of_directory hdir hname (.inl rfl)
  have hthere := (hget (name :: transactionsAddress a)).trans (if_pos rfl)
  refine ⟨_, _, rfl, rfl, Tree.directory_of_suffix hthere
    ((suffix_transactionsAddress a).trans (List.suffix_cons _ _)), fun b target hlink => ?_, hthere,
    fun b hb => ?_, fun x hx => ?_⟩
  · rw [hget] at hlink
    split at hlink
    · cases hlink
    · exact hno b target hlink
  · rw [hget, if_neg fun he => hb (List.append_cancel_right (he.trans (List.nil_append _).symm))]
    exact get?_eq_none_of_suffix hfree (List.suffix_append b _)
  · rw [hget, if_neg fun he : x = _ => hx (he ▸ List.suffix_refl _)]

/-- Whether the bundle of a plan has been gathered in the transaction at `r` and is ready to be
published, with everything else as it was. -/
structure Plan.Packed (plan : Plan) (a r : Address) (t : Tree) (d : Disk) : Prop where
  root : d.tree.get? a = some .directory
  noLinks : d.tree.NoLinksIn a
  ready : Transaction.Gathered d a r
  collects : Transaction.Collects r (plan.place ++ Transaction.stagingAddress r) plan.bundle.files
    d.tree
  same : ∀ x, ¬ r <:+ x → d.tree.get? x = t.get? x

theorem packed_of_gather {r : Address} {tx : Transaction} (hp : p.Usable) (hplan : plan.Sound p)
    (hbelow : Path.staysBelow 0 (Path.steps plan.artifact) = true) (havoids : plan.Avoids a name)
    (hr : r = name :: transactionsAddress a) (htx : tx.dir = Path.ofAddress r)
    (hroot : d.tree.get? a = some .directory) (hno : d.tree.NoLinksIn a)
    (hdir : d.tree.get? r = some .directory)
    (hempty : ∀ b, b ≠ [] → d.tree.get? (b ++ r) = none)
    (hgather : (plan.gather tx).on d = (.ok (), d')) : plan.Packed a r d.tree d' := by
  have hstaging : r <:+ Transaction.stagingAddress r := List.suffix_cons _ r
  obtain ⟨hchanged, hcollects⟩ : d.tree.Changed (Transaction.stagingAddress r <:+ ·)
        (fun x => x <:+ Transaction.stagingAddress r ∨ Transaction.stagingAddress r <:+ x) a
        d'.tree ∧ _ :=
    (gather_safely hp hplan hbelow
      (hr ▸ (suffix_transactionsAddress a).trans (List.suffix_cons _ _)) htx (.refl hroot hno)
      (Transaction.collects_nothing _ hdir hempty) (pure [])).of_gather hgather
  refine ⟨hchanged.root, hchanged.noLinks, gathered_of_collects (fun n hn => hr ▸ (havoids n hn).1)
    hchanged (hempty ["backup".toList] (by simp)) hcollects, hcollects, fun x hx => ?_⟩
  refine hchanged.get?_eq (fun hs => hx (hstaging.trans hs)) fun hs => ?_
  rcases hs with hs | hs
  · rcases List.suffix_cons_iff.1 hs with rfl | hs
    · exact absurd hstaging hx
    · exact Tree.directory_of_suffix hdir hs
  · exact absurd (hstaging.trans hs) hx

section Publish

variable (hp : p.Usable) (hl : p.layout.root = Path.ofAddress a)
  (hname : isName occasion.transactionName = true) (hroot : d.tree.get? a = some .directory)
  (hno : d.tree.NoLinksIn a) (hplan : plan.Sound p)
  (hbelow : Path.staysBelow 0 (Path.steps plan.artifact) = true)
  (havoids : plan.Avoids a occasion.transactionName)

include hp hl hname hroot hno hplan hbelow havoids

/-- **A bundle that has been published** is in its place, and could be gathered in its
transaction. -/
theorem inPlace_of_publish (h : (publish p.layout occasion plan).on d = (.ok files, d')) :
    plan.InPlace a d'.tree ∧
      plan.CanGather (occasion.transactionName :: transactionsAddress a) ∧
      d'.tree.get? (transactionsAddress a) = some .directory := by
  obtain ⟨r, hr⟩ : ∃ r, r = occasion.transactionName :: transactionsAddress a := ⟨_, rfl⟩
  rw [publish_eq, transactionsDir_eq (Tree.isWay_of_get? hroot) hl, Transaction.run_on] at h
  have hstarted := start_outcome (a := a) hroot hno hname
  generalize (Transaction.start (Path.ofAddress (transactionsAddress a))
    occasion.transactionName).on d = started at hstarted h
  cases hstarted with
  | failed e d₁ _ => cases h
  | done d₁ tx htx hstart hdir hempty hvacant =>
  rw [← hr] at htx hdir hempty ⊢
  dsimp only at h
  rw [on_bind] at h
  generalize hgather : (plan.gather tx).on d₁ = gathered at h
  obtain ⟨e | _, d₂⟩ := gathered
  · cases h
  have hpacked := packed_of_gather hp hplan hbelow havoids hr htx hstart.root hstart.noLinks hdir
    hempty hgather
  dsimp only at h
  rw [on_during, hl] at h
  generalize hpublish : (tx.publish (Path.ofAddress a)).on d₂ = published at h
  obtain ⟨e | out, d₃⟩ := published
  · cases h
  have hown := own_of_publish hr hbelow htx hpacked.root hpacked.noLinks hpacked.collects
  rw [hpublish] at hown
  dsimp only at h hown
  rw [Transaction.close_on htx hown] at h
  cases h
  -- what lies outside the transaction stays when it is closed
  have hclosed : ∀ x, ¬ r <:+ x → (d₃.tree.prune r).get? x = d₃.tree.get? x := fun _ =>
    Tree.get?_prune_of_not_suffix
  have hspares : Address.Spares r (plan.place ++ a) Transaction.bundleNames := hr ▸ havoids.spares
  have hmem : ∀ n node, (n, node) ∈ plan.bundle.files →
      n :: plan.place ∈ Transaction.gathered d₂ r := fun n node hn =>
    (mem_gathered_iff hpacked.collects).2 ⟨n, node, hn, rfl⟩
  refine ⟨⟨fun n node hn => ?_, fun n hn => ?_⟩, ⟨d₁, d₂, hdir, hempty, ?_⟩, ?_⟩
  · have hname := (Bundle.mem_bundleNames_of_mem_files hn).1
    exact (hclosed _ (hspares.place n hname)).trans
      ((Transaction.settled_of_publish htx hpacked.ready hpublish n plan.place (hmem n node hn)
        (Transaction.ne_draftName hname)).trans (hpacked.collects.file n node hn))
  · obtain ⟨content, mode, hfile⟩ := plan.bundle.exists_mem_files hn
    exact (hclosed _ (hspares.draft n hn)).trans
      (Transaction.get?_draft_of_publish htx hpacked.ready Transaction.areNames_bundleNames
        (fun b => exists_name_of_mem_gathered hpacked.collects) hspares hpublish (hmem n _ hfile))
  · obtain rfl : tx = ⟨Path.ofAddress r⟩ := congrArg Transaction.mk htx
    exact hgather
  · refine (hclosed _ fun hs => ?_).trans (Tree.get?_dir (hr ▸ hown))
    rw [hr] at hs
    exact Nat.not_succ_le_self _ hs.length_le

/-- **A bundle that can be gathered is published into a directory with room for it**: its files are
written, and nothing else is changed. -/
theorem publish_again (hthere : d.tree.get? (plan.place ++ a) = some .directory)
    (hroom : d.tree.HasRoom (plan.place ++ a) Transaction.bundleNames)
    (hgather : plan.CanGather (occasion.transactionName :: transactionsAddress a))
    (hdir : d.tree.get? (transactionsAddress a) = some .directory)
    (hfree : d.tree.get? (occasion.transactionName :: transactionsAddress a) = none) :
    ∃ files d', (publish p.layout occasion plan).on d = (.ok files, d') ∧
      (∀ n node, (n, node) ∈ plan.bundle.files →
        d'.tree.get? (n :: (plan.place ++ a)) = some node) ∧
      ∀ x, (∀ n ∈ Transaction.bundleNames, x ≠ n :: (plan.place ++ a)) →
        d'.tree.get? x = d.tree.get? x := by
  obtain ⟨tx, d₁, hstart, hbegun⟩ := begun_of_free hno hdir hname hfree
  rw [publish_eq, transactionsDir_eq (Tree.isWay_of_get? hroot) hl, Transaction.run_on, hstart]
  obtain ⟨r, hr⟩ : ∃ r, r = occasion.transactionName :: transactionsAddress a := ⟨_, rfl⟩
  have hspares : Address.Spares r (plan.place ++ a) Transaction.bundleNames := hr ▸ havoids.spares
  have hne : r ≠ [] := hr ▸ List.cons_ne_nil _ _
  rw [← hr] at hbegun hfree hgather
  obtain ⟨d₂, hgathered⟩ :=
    hgather.gather hp hplan hne hbegun.dir hbegun.directory hbegun.empty
  have hpacked := packed_of_gather hp hplan hbelow havoids hr hbegun.dir hbegun.root hbegun.noLinks
    hbegun.directory hbegun.empty hgathered
  have hsame : ∀ x, ¬ r <:+ x → d₂.tree.get? x = d.tree.get? x := fun x hx =>
    (hpacked.same x hx).trans (hbegun.same x hx)
  obtain ⟨out, d₃, hpublish, harrived⟩ := hpacked.ready.arrive hbegun.dir (List.cons_ne_nil _ _)
    Transaction.areNames_bundleNames (fun n node hn => (Bundle.mem_bundleNames_of_mem_files hn).1)
    (fun b => mem_gathered_iff hpacked.collects) hpacked.collects.file
    (hspares.hasRoom hsame hroom) hspares
  -- the transaction is closed
  have hclosed : ∀ x, ¬ r <:+ x → (d₃.tree.prune r).get? x = d₃.tree.get? x := fun _ =>
    Tree.get?_prune_of_not_suffix
  refine ⟨out, { d₃ with tree := d₃.tree.prune r }, ?_, fun n node hn => ?_, fun x hx => ?_⟩
  · dsimp only
    rw [on_bind, hgathered]
    dsimp only
    rw [on_during, hl, hpublish]
    dsimp only [Except.mapError]
    rw [Transaction.close_on hbegun.dir harrived.own]
  · exact (hclosed _ (hspares.place n (Bundle.mem_bundleNames_of_mem_files hn).1)).trans
      (harrived.file n node hn)
  · by_cases hown : r <:+ x
    · have hx : x ≠ [] := fun he => hne (List.suffix_nil.1 (he ▸ hown))
      exact ((Tree.get?_prune x).trans (if_pos ⟨hx, hown⟩)).trans
        (get?_eq_none_of_suffix hfree hown).symm
    refine (hclosed x hown).trans ?_
    by_cases hway : x <:+ plan.place ++ a
    · rw [Tree.directory_of_suffix harrived.directory hway, Tree.directory_of_suffix hthere hway]
    · refine (harrived.other x hown (fun n node hn => ?_) hway).trans (hsame x hown)
      exact hx n (Bundle.mem_bundleNames_of_mem_files hn).1

end Publish

/-! ### The first run -/

/-- A transaction that has been run had a free name. -/
theorem free_of_publish (hl : p.layout.root = Path.ofAddress a)
    (hname : isName occasion.transactionName = true) (hroot : d.tree.get? a = some .directory)
    (hno : d.tree.NoLinksIn a) (h : (publish p.layout occasion plan).on d = (.ok files, d')) :
    d.tree.get? (occasion.transactionName :: transactionsAddress a) = none := by
  rw [publish_eq, transactionsDir_eq (Tree.isWay_of_get? hroot) hl, Transaction.run_on] at h
  have hstarted := start_outcome (a := a) hroot hno hname
  generalize (Transaction.start (Path.ofAddress (transactionsAddress a))
    occasion.transactionName).on d = started at hstarted h
  cases hstarted with
  | failed e d₁ _ => cases h
  | done d₁ tx _ _ _ _ hvacant => exact hvacant _ (List.suffix_refl _)

/-- What there is for a second run: the bundle is in its place and the manifest is stored, both
without a draft. -/
structure Standing (a : Address) (plan : Plan) (m : Manifest) (mode : Bool) (t : Tree) : Prop where
  bundle : plan.InPlace a t
  transactions : t.get? (transactionsAddress a) = some .directory
  manifest : t.get? (manifestAddress a) = some (.file m.render.utf8 mode)
  draft : t.get? (draftAddress a) = none

section Generate

variable (hp : p.Usable) (hl : p.layout.root = Path.ofAddress a)
  (hname : isName occasion.transactionName = true) (hroot : d.tree.get? a = some .directory)
  (hno : d.tree.NoLinksIn a)

include hp hl hname hroot hno

/-- After an action has been generated, all is there for a second run. The manifest is executable
only if a draft that was left there was. -/
theorem standing_of_generate {g : Generated} {kept : Manifest} {d₁ : Disk}
    (h : Carried p occasion m path d g m' d' plan kept d₁)
    (hbelow : Path.staysBelow 0 (Path.steps plan.artifact) = true)
    (havoids : plan.Avoids a occasion.transactionName) :
    ∃ mode, Standing a plan m' mode d'.tree ∧
      (mode = true → ∃ content, d.tree.get? (draftAddress a) = some (.file content true)) := by
  have hplan := sound_of_plan hp h.planned
  have hchanged := changed_publish hp hl hname hplan hroot hno
  rw [h.published] at hchanged
  dsimp only at hchanged
  obtain ⟨hplace, -, htransactions⟩ :=
    inPlace_of_publish hp hl hname hroot hno hplan hbelow havoids h.published
  have hmanifest : d₁.tree.get? (manifestAddress a) ≠ some .directory := fun hdir => by
    obtain ⟨e, he⟩ := save_on_directory (m := m') hl hchanged.noLinks hdir
    rw [h.saved] at he
    cases he
  have hsaved := save_on (m := m') hl hchanged.root hchanged.noLinks hmanifest
  rw [h.saved] at hsaved
  cases hsaved with
  | done _ mode hdraft hget hmode =>
  have hother : ∀ n c, n ≠ "manifest.json".toList → n ≠ ".manifest.json.tmp".toList →
      n ≠ ".bridge".toList → d'.tree.get? (n :: c) = d₁.tree.get? (n :: c) := fun n c hm ht hb => by
    rw [hget, if_neg fun he : n :: c = manifestAddress a => hm (List.cons.inj he).1,
      if_neg fun he : n :: c = draftAddress a => ht (List.cons.inj he).1,
      if_neg fun he : n :: c = bridgeAddress a => hb (List.cons.inj he).1]
  have hnames : ∀ n ∈ Transaction.bundleNames, ∀ k, k = n ∨ k = Transaction.draftName n →
      k ≠ "manifest.json".toList ∧ k ≠ ".manifest.json.tmp".toList ∧ k ≠ ".bridge".toList := by
    have hall : ∀ n ∈ Transaction.bundleNames, ∀ k ∈ [n, Transaction.draftName n],
        k ≠ "manifest.json".toList ∧ k ≠ ".manifest.json.tmp".toList ∧ k ≠ ".bridge".toList := by
      decide
    exact fun n hn k hk => hall n hn k (by simpa using hk)
  refine ⟨mode, ⟨hplace.congr fun n hn k hk => ?_, ?_, (hget _).trans (if_pos rfl), ?_⟩,
    fun he => ?_⟩
  · obtain ⟨hm, ht, hb⟩ := hnames n hn k hk
    exact hother k _ hm ht hb
  · rwa [transactionsAddress, hother _ _ (by decide) (by decide) (by decide)]
  · have hne : draftAddress a ≠ manifestAddress a := fun he =>
      absurd (List.cons.inj he).1 (by decide)
    rw [hget, if_neg hne, if_pos rfl]
  · obtain ⟨content, hfile⟩ := hmode he
    refine ⟨content, (hchanged.get?_file_iff ?_ content true).1 hfile⟩
    rintro ⟨n, hn, he | he⟩
    · exact (hnames n hn n (.inl rfl)).2.1 (List.cons.inj he).1.symm
    · exact (hnames n hn _ (.inr rfl)).2.1 (List.cons.inj he).1.symm

/-- The same bundle could have been gathered in a transaction of another name. -/
theorem canGather_of_alike (hname' : isName occasion'.transactionName = true)
    (hfree' : d.tree.get? (occasion'.transactionName :: transactionsAddress a) = none)
    (hplan : plan.Sound p) (hplan' : plan'.Sound p) (hplans : plan.Alike plan')
    (hbelow : Path.staysBelow 0 (Path.steps plan.artifact) = true)
    (havoids : plan.Avoids a occasion.transactionName)
    (havoids' : plan.Avoids a occasion'.transactionName)
    (h : (publish p.layout occasion plan).on d = (.ok files, d')) :
    plan'.CanGather (occasion'.transactionName :: transactionsAddress a) := by
  have hagain := publish_alike hp hl hname hname' hroot hno (Tree.alike_refl d.tree)
    (free_of_publish hl hname hroot hno h) hfree' hplan hplans havoids havoids'
  rw [h] at hagain
  generalize hpublish : (publish p.layout occasion' plan').on d = again at hagain
  obtain ⟨outcome, d''⟩ := again
  cases hagain.1 with
  | ok _ =>
    refine (inPlace_of_publish hp hl hname' hroot hno hplan' ?_ ?_ hpublish).2.1
    · rwa [hplans.artifact]
    · rwa [Plan.Avoids, hplans.place]

end Generate

/-! ### The second run -/

/-- A bundle that is planned alike has the same files, but for the time in the sync record. -/
theorem Plan.Alike.mem_files (h : plan.Alike plan') {n : Text} {node : Node}
    (hn : (n, node) ∈ plan'.bundle.files) :
    n = SyncRecord.fileName ∧ node = .file plan'.bundle.sync.document.utf8 false ∨
      n ≠ SyncRecord.fileName ∧ (n, node) ∈ plan.bundle.files := by
  rw [Bundle.files, h.descriptor, h.dockerfile, h.entrypoint] at hn
  simp only [List.mem_cons, List.not_mem_nil, or_false, Prod.mk.injEq] at hn
  rcases hn with ⟨rfl, rfl⟩ | ⟨rfl, rfl⟩ | ⟨rfl, rfl⟩ | ⟨rfl, rfl⟩
  · exact .inr ⟨by decide, .head _⟩
  · exact .inr ⟨by decide, .tail _ (.head _)⟩
  · exact .inr ⟨by decide, .tail _ (.tail _ (.head _))⟩
  · exact .inl ⟨rfl, rfl⟩

section Again

variable {mode : Bool} (hp : p.Usable) (hl : p.layout.root = Path.ofAddress a)
  (hname : isName occasion.transactionName = true) (hroot : d.tree.get? a = some .directory)
  (hno : d.tree.NoLinksIn a) (hplan : plan'.Sound p) (hplans : plan.Alike plan')
  (hbelow : Path.staysBelow 0 (Path.steps plan'.artifact) = true)
  (havoids : plan'.Avoids a occasion.transactionName)
  (hgather : plan'.CanGather (occasion.transactionName :: transactionsAddress a))
  (hfree : d.tree.get? (occasion.transactionName :: transactionsAddress a) = none)
  (hstanding : Standing a plan m mode d.tree)

include hp hl hname hroot hno hplan hplans hbelow havoids hgather hfree hstanding

/-- Where a bundle stands, publishing it again changes nothing but its sync record. -/
theorem publish_standing : ∃ files d', (publish p.layout occasion plan').on d = (.ok files, d') ∧
    ∀ x, d'.tree.get? x = if x = SyncRecord.fileName :: (plan.place ++ a) then
      some (.file plan'.bundle.sync.document.utf8 false) else d.tree.get? x := by
  have hplace := hplans.place
  obtain ⟨files, d', hpublish, hfiles, hother⟩ := publish_again hp hl hname hroot hno hplan hbelow
    havoids (hplace ▸ hstanding.bundle.directory) (hplace ▸ hstanding.bundle.hasRoom) hgather
    hstanding.transactions hfree
  rw [hplace] at hfiles hother
  refine ⟨files, d', hpublish, fun x => ?_⟩
  by_cases hx : ∃ n ∈ Transaction.bundleNames, x = n :: (plan.place ++ a)
  · obtain ⟨n, hn, rfl⟩ := hx
    obtain ⟨content, executable, hmem⟩ := plan'.bundle.exists_mem_files hn
    rw [hfiles n _ hmem]
    rcases hplans.mem_files hmem with ⟨rfl, he⟩ | ⟨hne, hold⟩
    · rw [if_pos rfl, he]
    · rw [if_neg fun he => hne (List.cons.inj he).1, hstanding.bundle.file n _ hold]
  · rw [hother x fun n hn he => hx ⟨n, hn, he⟩, if_neg]
    exact fun he => hx ⟨_, by decide, he⟩

/-- Where an action has been generated, generating it again changes nothing but its sync record and
the manifest. -/
theorem carried_again (hplanned : p.plan occasion path d = .ok plan')
    (hclaim : claim p.layout m plan'.source plan'.artifact d = .ok m) :
    ∃ g d₁ d', Carried p occasion m path d g (m.upsert plan'.source plan'.artifact plan'.record) d'
        plan' m d₁ ∧
      ∀ x, d'.tree.get? x = if x = manifestAddress a then
          some (.file (m.upsert plan'.source plan'.artifact plan'.record).render.utf8 false)
        else if x = SyncRecord.fileName :: (plan.place ++ a) then
          some (.file plan'.bundle.sync.document.utf8 false)
        else d.tree.get? x := by
  obtain ⟨files, d₁, hpublish, hget₁⟩ := publish_standing hp hl hname hroot hno hplan hplans hbelow
    havoids hgather hfree hstanding
  have hchanged := changed_publish hp hl hname hplan hroot hno
  rw [hpublish] at hchanged
  dsimp only at hchanged
  have hbridge : d₁.tree.get? (bridgeAddress a) = some .directory :=
    hchanged.directory (Tree.get?_dir hstanding.manifest)
  have hsame : ∀ n, n ≠ SyncRecord.fileName →
      d₁.tree.get? (n :: bridgeAddress a) = d.tree.get? (n :: bridgeAddress a) := fun n hn => by
    rw [hget₁, if_neg fun he => hn (List.cons.inj he).1]
  have hmanifest : d₁.tree.get? (manifestAddress a) ≠ some .directory := fun hdir => by
    cases ((hsame _ (by decide)).trans hstanding.manifest).symm.trans hdir
  have hdraft : d₁.tree.get? (draftAddress a) = none :=
    (hsame _ (by decide)).trans hstanding.draft
  have hsaved := save_on (m := m.upsert plan'.source plan'.artifact plan'.record) hl hchanged.root
    hchanged.noLinks hmanifest
  generalize hsave : ((m.upsert plan'.source plan'.artifact plan'.record).save p.layout).on d₁ =
    saved at hsaved
  cases hsaved with
  | blocked e hnot => exact absurd hbridge hnot
  | refused e d' hdir => cases hdraft.symm.trans hdir
  | done d' mode _ hget hmode =>
    have hmode : mode = false := Bool.eq_false_iff.2 fun he => by
      obtain ⟨content, hfile⟩ := hmode he
      cases hdraft.symm.trans hfile
    subst hmode
    refine ⟨⟨plan'.source, plan'.artifact, plan'.identity, plan'.bundle.sync.checksum, files⟩, d₁, d',
      ⟨hplanned, hclaim, hpublish, rfl, hsave, rfl, rfl, rfl, rfl⟩, fun x => ?_⟩
    rw [hget, ← hget₁]
    split
    · rfl
    split
    · next hx => rw [hx, hdraft]
    split
    · next hx => rw [hx, hbridge]
    · rfl

end Again

/-- Outside the program's own directory and the bundle a model is as it was, and so the same is planned
for it again. -/
theorem plan_again {content : Bytes} {executable : Bool} (hl : p.layout.root = Path.ofAddress a)
    (hfile : modelFile p.layout path d = .ok (Path.ofAddress (b ++ a)))
    (hget : d.tree.get? (b ++ a) = some (.file content executable))
    (hplan : p.plan occasion path d = .ok plan)
    (hbridge : ¬ bridgeAddress a <:+ b ++ a) (hbundle : ¬ plan.place ++ a <:+ b ++ a)
    (hchanged : d.tree.Changed (Reach a plan.place) (Ways a plan.place) a d'.tree)
    (hfile' : modelFile p.layout path' d' = .ok (Path.ofAddress (b ++ a))) :
    ∃ plan', p.plan occasion' path' d' = .ok plan' ∧ plan.Alike plan' := by
  have hmodel : ¬ Reach a plan.place (b ++ a) := by
    rintro (he | he | ⟨n, -, he | he⟩)
    · exact hbridge (he ▸ List.suffix_cons _ _)
    · exact hbridge (he ▸ List.suffix_cons _ _)
    · exact hbundle (he ▸ List.suffix_cons _ _)
    · exact hbundle (he ▸ List.suffix_cons _ _)
  have hget' := (hchanged.get?_file_iff hmodel content executable).2 hget
  have hplans := planOf_alike p a b occasion.time occasion'.time content
  rw [← plan_of_modelFile hl hfile hget, hplan] at hplans
  rw [plan_of_modelFile hl hfile' hget']
  generalize p.planOf a b occasion'.time content = planned at hplans
  cases hplans with
  | @ok _ plan' hplans => exact ⟨plan', rfl, hplans⟩

/-- Whether two trees of a project at `a` differ at most in the time of the sync record in `dir`, and
in the manifest: that is `m` in the first tree and `m'` in the second. -/
structure Retimed (a dir : Address) (m m' : Manifest) (mode : Bool) (t t' : Tree) : Prop where
  sync : ∃ s s' : SyncRecord,
    t.get? (SyncRecord.fileName :: dir) = some (.file s.document.utf8 false) ∧
    t'.get? (SyncRecord.fileName :: dir) = some (.file s'.document.utf8 false) ∧
    s'.untimed = s.untimed
  manifest : t.get? (manifestAddress a) = some (.file m.render.utf8 mode)
  manifest' : t'.get? (manifestAddress a) = some (.file m'.render.utf8 false)
  other : ∀ x, x ≠ manifestAddress a → x ≠ SyncRecord.fileName :: dir → t'.get? x = t.get? x

/-- **To generate an action again changes nothing but times.** An action has been generated of a model
outside the program's own directory and outside of its bundle, and the path of its bundle does not
lead out of the project. Then the stored manifest is the one that was returned, and by any path that
leads to the model the action can be generated again, in a transaction of any free name: with the
same source, artifact, identity and checksum, and with the same tree, but for the times in the sync
record and in the record of the artifact. Only where an executable file was left in the place of the
manifest's draft, the manifest is executable between the two runs. -/
theorem generate_again {g : Generated} {content : Bytes} {executable : Bool} (hp : p.Usable)
    (hl : p.layout.root = Path.ofAddress a) (hname : isName occasion.transactionName = true)
    (hname' : isName occasion'.transactionName = true)
    (hroot : d.tree.get? a = some .directory) (hno : d.tree.NoLinksIn a)
    (hfile : modelFile p.layout path d = .ok (Path.ofAddress (b ++ a)))
    (hget : d.tree.get? (b ++ a) = some (.file content executable))
    (h : (p.generate occasion m path).on d = (.ok (g, m'), d'))
    (hplan : p.plan occasion path d = .ok plan)
    (hbelow : Path.staysBelow 0 (Path.steps plan.artifact) = true)
    (havoids : plan.Avoids a occasion.transactionName)
    (havoids' : plan.Avoids a occasion'.transactionName)
    (hbridge : ¬ bridgeAddress a <:+ b ++ a) (hbundle : ¬ plan.place ++ a <:+ b ++ a)
    (hfile' : modelFile p.layout path' d' = .ok (Path.ofAddress (b ++ a)))
    (hfree : d'.tree.get? (occasion'.transactionName :: transactionsAddress a) = none) :
    Manifest.load p.layout d' = .ok m' ∧
    ∃ g' m'' d'' mode, (p.generate occasion' m' path').on d' = (.ok (g', m''), d'') ∧
      (g'.source = g.source ∧ g'.artifact = g.artifact ∧ g'.identity = g.identity ∧
        g'.checksum = g.checksum) ∧
      Manifest.Retimed g.artifact m' m'' ∧
      Retimed a (plan.place ++ a) m' m'' mode d'.tree d''.tree ∧
      (mode = true → ∃ draft, d.tree.get? (draftAddress a) = some (.file draft true)) := by
  refine ⟨load_of_generate hp hl hname hroot hno h, ?_⟩
  obtain ⟨planned, kept, d₁, hcarried⟩ := exists_of_generate h
  obtain rfl : plan = planned := Except.ok.inj (hplan.symm.trans hcarried.planned)
  obtain ⟨mode, hstanding, hmode⟩ :=
    standing_of_generate hp hl hname hroot hno hcarried hbelow havoids
  have hreach : d.tree.Changed (Reach a plan.place) (Ways a plan.place) a d'.tree := by
    obtain ⟨c, hc, hchanged⟩ : ∃ c, (∀ plan, p.plan occasion path d = .ok plan → c = plan.place) ∧
        d.tree.Changed (Reach a c) (Ways a c) a ((p.generate occasion m path).on d).2.tree :=
      changed_generate hp hl hname hroot hno
    rwa [h, hc plan hplan] at hchanged
  obtain ⟨plan', hplan', hplans⟩ : ∃ plan', p.plan occasion' path' d' = .ok plan' ∧
      plan.Alike plan' := plan_again hl hfile hget hplan hbridge hbundle hreach hfile'
  have hsound' := sound_of_plan hp hplan'
  -- the name of the second transaction was free before the first run
  have hfree₀ : d.tree.get? (occasion'.transactionName :: transactionsAddress a) = none :=
    Option.eq_none_iff_forall_ne_some.2 fun node hnode =>
      by cases hfree.symm.trans (hreach.kept _ node hnode (.inr havoids'.not_reach))
  have hgather := canGather_of_alike hp hl hname hroot hno hname' hfree₀ (sound_of_plan hp hplan)
    hsound' hplans hbelow havoids havoids' hcarried.published
  have hclaim : claim p.layout m' plan'.source plan'.artifact d' = .ok m' := by
    have hrecord : m'.recordOf? plan'.artifact = some plan.record := by
      rw [hcarried.manifest, hplans.artifact, Manifest.recordOf?_upsert_self]
    rw [claim, hrecord]
    exact if_pos hplans.source.symm
  obtain ⟨g', d₂, d'', hagain, hget''⟩ := carried_again hp hl hname' hreach.root hreach.noLinks
    hsound' hplans (by rwa [hplans.artifact]) (by rwa [Plan.Avoids, hplans.place]) hgather hfree
    hstanding hplan' hclaim
  have hretimed : Manifest.Retimed g.artifact m'
      (m'.upsert plan'.source plan'.artifact plan'.record) := by
    rw [hcarried.manifest, hplans.source, hplans.artifact, hcarried.artifact]
    exact Manifest.retimed_upsert kept _ _ hplans.record
  refine ⟨g', _, d'', mode, hagain.generate_on, ⟨?_, ?_, ?_, ?_⟩, hretimed,
    ⟨⟨plan.bundle.sync, plan'.bundle.sync, ?_, ?_, hplans.sync⟩, hstanding.manifest, ?_,
      fun x hm hs => ?_⟩, hmode⟩
  · rw [hagain.source, hcarried.source, hplans.source]
  · rw [hagain.artifact, hcarried.artifact, hplans.artifact]
  · rw [hagain.identity, hcarried.identity, hplans.identity]
  · rw [hagain.checksum, hcarried.checksum, hplans.checksum]
  · exact hstanding.bundle.file _ _ (.tail _ (.tail _ (.tail _ (.head _))))
  · have hne : SyncRecord.fileName :: (plan.place ++ a) ≠ manifestAddress a := fun he =>
      absurd (List.cons.inj he).1 (by decide)
    rw [hget'', if_neg hne, if_pos rfl]
  · rw [hget'', if_pos rfl]
  · rw [hget'', if_neg hm, if_neg hs]

/-- On the sample project the model is given by another path the second time. -/
theorem generate_again_sampleDisk :
    ∃ g m d g' m' d' mode, (sampleProject.generate sampleOccasion {} "/p/axioms/x.fcm").on sampleDisk =
        (.ok (g, m), d) ∧
      (sampleProject.generate laterOccasion m "actions/../axioms/x.fcm").on d =
        (.ok (g', m'), d') ∧
      g'.checksum = g.checksum ∧ Manifest.Retimed g.artifact m m' ∧
      Retimed ["p".toList] ["x", "core", "actions", "p"] m m' mode d.tree d'.tree := by
  have hruns : ((sampleProject.plan sampleOccasion "/p/axioms/x.fcm" sampleDisk).toOption.map
        fun plan => plan.artifact) = some "actions/core/x".toList ∧
      ((sampleProject.generate sampleOccasion {} "/p/axioms/x.fcm").on sampleDisk).1.isOk = true ∧
      (modelFile sampleProject.layout "/p/axioms/x.fcm" sampleDisk).toOption =
        some (Path.ofAddress ["x.fcm".toList, "axioms".toList, "p".toList]) ∧
      (modelFile sampleProject.layout "actions/../axioms/x.fcm"
        ((sampleProject.generate sampleOccasion {} "/p/axioms/x.fcm").on sampleDisk).2).toOption =
          some (Path.ofAddress ["x.fcm".toList, "axioms".toList, "p".toList]) ∧
      ((sampleProject.generate sampleOccasion {} "/p/axioms/x.fcm").on sampleDisk).2.tree.get?
        (laterOccasion.transactionName :: transactionsAddress ["p".toList]) = none ∧
      sampleDisk.tree.get? ["x.fcm", "axioms", "p"] = some (.file [] false) ∧
      sampleDisk.tree.get? ["p".toList] = some .directory := by
    decide +kernel
  have hlinks := linkFree_sampleDisk
  generalize sampleDisk = d at hruns hlinks ⊢
  obtain ⟨hartifact, hok, hfile, hfile', hfree, hget, hroot⟩ := hruns
  generalize hrun : (sampleProject.generate sampleOccasion {} "/p/axioms/x.fcm").on d = run
    at hok hfile' hfree
  obtain ⟨e | ⟨g, m⟩, d₁⟩ := run
  · cases hok
  cases hplan : sampleProject.plan sampleOccasion "/p/axioms/x.fcm" d with
  | error e =>
    rw [hplan] at hartifact
    cases hartifact
  | ok plan =>
    rw [hplan] at hartifact
    have hartifact : plan.artifact = "actions/core/x".toList := Option.some.inj hartifact
    have hplace : plan.place = ["x".toList, "core".toList, "actions".toList] := by
      rw [Plan.place, Plan.gathering, hartifact]
      decide
    obtain ⟨-, g', m', d', mode, hagain, ⟨-, -, -, hchecksum⟩, hmanifest, htree, -⟩ :=
      generate_again (b := ["x.fcm".toList, "axioms".toList])
        ⟨by rfl, by rfl⟩ (by rfl) (by decide) (by decide) hroot (fun b => hlinks _)
        (eq_ok_of_toOption hfile) hget hrun hplan (by rw [hartifact]; decide)
        (by rw [Plan.Avoids, hplace]; decide) (by rw [Plan.Avoids, hplace]; decide) (by decide)
        (by rw [hplace]; decide) (eq_ok_of_toOption hfile') hfree
    rw [hplace] at htree
    exact ⟨g, m, d₁, g', m', d', mode, rfl, hagain, hchecksum, hmanifest, htree⟩

/-! ### A model that is overwritten -/

/-- A project whose bundles are in its root, in the domain of two dots. -/
def sampleUpwardProject : Project :=
  let config : Config := { actionsDir := ".", defaultDomain := ".." }
  ⟨.ofConfig ("/p" : Text) config, config⟩

/-- A disk with this project and a model whose action has the name of the directory where files are
gathered. -/
def sampleNamesake : Disk where
  tree := (Tree.empty.set "p" [] .directory).set "action.yml" ["p"]
    (.file (Text.utf8 "Model: staging\n") false)

/-- This disk after the action was generated. -/
def sampleOverwritten : Disk :=
  ((sampleUpwardProject.generate sampleOccasion {} "/p/action.yml").on sampleNamesake).2

/-- The configuration passes its check, and the directory of the bundle is not even there. But its
files are published to the root, where the descriptor takes the place of the model, and the second run
gives another artifact. -/
theorem generate_again_sampleNamesake :
    sampleUpwardProject.config.check = .ok () ∧
    sampleOverwritten.isThere (sampleUpwardProject.layout.resolve "./../staging") = false ∧
    (((sampleUpwardProject.generate sampleOccasion {} "/p/action.yml").on
        sampleNamesake).1.toOption.bind fun done =>
      ((sampleUpwardProject.generate laterOccasion done.2 "/p/action.yml").on
        sampleOverwritten).1.toOption.map fun again =>
          ((done.1.source, done.1.artifact), (again.1.source, again.1.artifact))) =
      some (("action.yml".toList, "./../staging".toList),
        ("action.yml".toList, "./../action".toList)) := by
  decide +kernel

end Project

end ActionBundles
