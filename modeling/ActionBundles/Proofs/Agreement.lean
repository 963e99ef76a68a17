import ActionBundles.Proofs.Plans

/-!
# Bundles and the manifest agree

A project without links is in order (`Project.Agrees`) if its actions are nothing but bundles that
stand alone in their directories, and if the manifest that is stored maps a model to an artifact
only if a bundle stands there that was generated from the model: its sync record names the model
and carries the time and the version that are on record, and the checksum of the bytes that the
model had then. Generating an action, with success or not, leaves a project in order.
-/

namespace ActionBundles

open ActionBundles.Action

theorem Tree.get?_cons_of_none {t : Tree} {dir : Address} (h : t.get? dir = none) (n : Text) :
    t.get? (n :: dir) = none := by
  cases hnode : t.get? (n :: dir) with
  | none => rfl
  | some node => cases h.symm.trans (get?_dir hnode)

/-! ### Bundles in their directories -/

namespace Bundle

/-- A bundle is the rendered bundle of some model. -/
def IsRendered (b : Bundle) : Prop :=
  ∃ m identity source bytes time image, b = render m identity source bytes time image

/-- The files of a bundle are all that is in a directory. -/
structure Stands (b : Bundle) (t : Tree) (dir : Address) : Prop where
  directory : t.get? dir = some .directory
  file : ∀ n node, (n, node) ∈ b.files → t.get? (n :: dir) = some node
  only : ∀ n, n ∉ Transaction.bundleNames → t.get? (n :: dir) = none

variable {b : Bundle} {t t' : Tree} {dir : Address}

theorem Stands.congr (h : b.Stands t dir) (hsame : ∀ y, t'.get? (y ++ dir) = t.get? (y ++ dir)) :
    b.Stands t' dir where
  directory := (hsame []).trans h.directory
  file n node hn := (hsame [n]).trans (h.file n node hn)
  only n hn := (hsame [n]).trans (h.only n hn)

theorem exists_mem_files {n : Text} (b : Bundle) (h : n ∈ Transaction.bundleNames) :
    ∃ content mode, (n, .file content mode) ∈ b.files := by
  simp only [Transaction.bundleNames, List.mem_cons, List.not_mem_nil, or_false] at h
  rcases h with rfl | rfl | rfl | rfl
  · exact ⟨_, _, .head _⟩
  · exact ⟨_, _, .tail _ (.head _)⟩
  · exact ⟨_, _, .tail _ (.tail _ (.head _))⟩
  · exact ⟨_, _, .tail _ (.tail _ (.tail _ (.head _)))⟩

/-- There is room for a bundle where another one stands. -/
theorem Stands.hasRoom (h : b.Stands t dir) : t.HasRoom dir Transaction.bundleNames where
  clear := Tree.clear_of_directory h.directory
  place n hn := by
    obtain ⟨content, mode, hmem⟩ := b.exists_mem_files hn
    rw [h.file n _ hmem]
    simp
  draft n hn := h.only _ (Transaction.draftName_not_mem hn).1

end Bundle

namespace Project

variable {a dir dir' : Address} {t t₀ : Tree} {d d' : Disk} {b : Bundle} {m : Manifest}
  {files : List (Text × Node)} {domain slug : Text}

/-- Beside the directory that files were put into nothing has changed. -/
theorem Delivered.get?_beside (h : Delivered a dir files t₀ t) (hlength : dir'.length = dir.length)
    (hne : dir' ≠ dir) {y : Address} (hscratch : ¬ Scratch a (y ++ dir')) :
    t.get? (y ++ dir') = t₀.get? (y ++ dir') := by
  have hway : ¬ dir' <:+ dir := not_suffix_of_length hlength hne
  have hin : dir' <:+ y ++ dir' := List.suffix_append y dir'
  refine h.other _ hscratch (fun n node _ he => ?_) fun hs => hway (hin.trans hs)
  rcases List.suffix_cons_iff.1 (he ▸ hin) with he | hs
  · have := congrArg List.length he
    rw [List.length_cons] at this
    omega
  · exact hway hs

/-- A bundle stands where its files were put, if there was at most another bundle before. -/
theorem Delivered.stands (h : Delivered a dir b.files t₀ t)
    (hbefore : ∀ n, n ∉ Transaction.bundleNames → t₀.get? (n :: dir) = none)
    (hscratch : ∀ n, ¬ Scratch a (n :: dir)) : b.Stands t dir where
  directory := h.directory
  file := h.file
  only n hn := by
    rw [h.other _ (hscratch n) (fun k node hk he => ?_) (Transaction.not_suffix_of_cons n dir),
      hbefore n hn]
    exact hn ((List.cons.inj he).1 ▸ (Bundle.mem_bundleNames_of_mem_files hk).1)

/-! ### Nothing but bundles -/

/-- There is nothing but bundles in the directory of the actions, each two levels below. -/
structure Tidy (a : Address) (t : Tree) : Prop where
  actions : t.get? (actionsAddress a) = none ∨ t.get? (actionsAddress a) = some .directory
  domain : ∀ domain node, t.get? (domain :: actionsAddress a) = some node → node = .directory
  bundle : ∀ slug domain node, t.get? (slug :: domain :: actionsAddress a) = some node →
    ∃ b : Bundle, b.IsRendered ∧ b.Stands t (slug :: domain :: actionsAddress a)

theorem tidy_nothing (h : t.get? (actionsAddress a) = none) : Tidy a t where
  actions := .inl h
  domain domain node hnode := by
    cases (Tree.get?_cons_of_none h domain).symm.trans hnode
  bundle slug domain node hnode := by
    cases (Tree.get?_cons_of_none (Tree.get?_cons_of_none h domain) slug).symm.trans hnode

theorem Tidy.congr (h : Tidy a t₀)
    (hsame : ∀ y, t.get? (y ++ actionsAddress a) = t₀.get? (y ++ actionsAddress a)) : Tidy a t where
  actions := hsame [] ▸ h.actions
  domain domain node hnode := h.domain domain node ((hsame [domain]).symm.trans hnode)
  bundle slug domain node hnode := by
    obtain ⟨b, hb, hstands⟩ := h.bundle slug domain node ((hsame [slug, domain]).symm.trans hnode)
    exact ⟨b, hb, hstands.congr fun y => by simpa using hsame (y ++ [slug, domain])⟩

/-- In a tidy project there is room for every bundle. -/
theorem Tidy.hasRoom (h : Tidy a t) (hroot : t.get? a = some .directory) (domain slug : Text) :
    t.HasRoom (slug :: domain :: actionsAddress a) Transaction.bundleNames := by
  cases hdir : t.get? (slug :: domain :: actionsAddress a) with
  | some node =>
    obtain ⟨b, -, hstands⟩ := h.bundle slug domain node hdir
    exact hstands.hasRoom
  | none =>
    have hnone : ∀ n, t.get? (n :: slug :: domain :: actionsAddress a) = none :=
      Tree.get?_cons_of_none hdir
    refine ⟨fun x hx => ?_, fun n _ => by simp [hnone], fun n _ => hnone _⟩
    rcases List.suffix_cons_iff.1 hx with rfl | hx
    · exact .inl hdir
    rcases List.suffix_cons_iff.1 hx with rfl | hx
    · cases hnode : t.get? (domain :: actionsAddress a) with
      | none => exact .inl rfl
      | some node => exact .inr (congrArg some (h.domain domain node hnode))
    rcases List.suffix_cons_iff.1 hx with rfl | hx
    · exact h.actions
    · exact .inr (Tree.directory_of_suffix hroot hx)

theorem not_scratch_actions (y : Address) : ¬ Scratch a (y ++ actionsAddress a) := fun h =>
  (apart_actions a).not_suffix y (bridge_suffix_of_scratch h)

/-- Publishing a bundle leaves a project tidy. -/
theorem Tidy.delivered (h : Tidy a t₀) (hb : b.IsRendered)
    (hdelivered : Delivered a (slug :: domain :: actionsAddress a) b.files t₀ t) :
    Tidy a t ∧ b.Stands t (slug :: domain :: actionsAddress a) := by
  have hstands : b.Stands t (slug :: domain :: actionsAddress a) := by
    refine hdelivered.stands (fun n hn => ?_) fun n => not_scratch_actions [n, slug, domain]
    cases hdir : t₀.get? (slug :: domain :: actionsAddress a) with
    | none => exact Tree.get?_cons_of_none hdir n
    | some node =>
      obtain ⟨b', -, hstands⟩ := h.bundle slug domain node hdir
      exact hstands.only n hn
  refine ⟨⟨.inr ?_, fun domain' node hnode => ?_, fun slug' domain' node hnode => ?_⟩, hstands⟩
  · exact Tree.directory_of_suffix hdelivered.directory (List.suffix_append [slug, domain] _)
  · by_cases hs : domain' :: actionsAddress a <:+ slug :: domain :: actionsAddress a
    · exact Option.some.inj (hnode.symm.trans (Tree.directory_of_suffix hdelivered.directory hs))
    · refine h.domain domain' node ((hdelivered.other _ (not_scratch_actions [domain'])
        (fun n _ _ he => ?_) hs).symm.trans hnode)
      have hlength : [domain'].length + (actionsAddress a).length =
          [n, slug, domain].length + (actionsAddress a).length := by
        simpa using congrArg List.length he
      exact absurd (Nat.add_right_cancel hlength) (by simp)
  · by_cases hne : slug' :: domain' :: actionsAddress a = slug :: domain :: actionsAddress a
    · rw [hne]
      exact ⟨b, hb, hstands⟩
    · have hsame : ∀ y, t.get? (y ++ slug' :: domain' :: actionsAddress a) =
          t₀.get? (y ++ slug' :: domain' :: actionsAddress a) := fun y =>
        hdelivered.get?_beside (by rw [List.length_cons, List.length_cons, List.length_cons,
          List.length_cons]) hne (by simpa using not_scratch_actions (y ++ [slug', domain']))
      obtain ⟨b', hb', hstands'⟩ := h.bundle slug' domain' node ((hsame []).symm.trans hnode)
      exact ⟨b', hb', hstands'.congr hsame⟩

/-! ### Projects in order -/

/-- The bytes that each model had when its action was generated last. -/
abbrev Ledger := Text → Option Bytes

/-- The ledger after a model was generated. -/
def Ledger.enter (last : Ledger) (e : Text × Option Bytes) : Ledger :=
  fun source => if source = e.1 then e.2 else last source

/-- The manifest is stored; where none is, it is empty. -/
def Stored (a : Address) (m : Manifest) (t : Tree) : Prop :=
  t.get? (manifestAddress a) = none ∧ m = {} ∨
    ∃ mode, t.get? (manifestAddress a) = some (.file m.render.utf8 mode)

/-- A bundle that was generated from the model stands where the model is mapped to. -/
def Backed (a : Address) (last : Ledger) (m : Manifest) (t : Tree) (source artifact : Text) :
    Prop :=
  ∃ domain slug record bytes, ∃ b : Bundle,
    Identity.IsSegment domain ∧ Identity.IsSegment slug ∧
    artifact = Path.ofRelative (bundleAddress domain slug) ∧
    b.Stands t (slug :: domain :: actionsAddress a) ∧
    m.recordOf? artifact = some record ∧ last source = some bytes ∧
    b.sync = ⟨source, record.generatedAt, record.version, Sha256.checksum bytes⟩

/-- A project without links whose actions are bundles. Where a manifest is stored, no directory is
in the way of the next one. -/
structure Orderly (a : Address) (t : Tree) : Prop where
  root : t.get? a = some .directory
  noLinks : t.NoLinksIn a
  tidy : Tidy a t
  draft : t.get? (draftAddress a) = some .directory → t.get? (manifestAddress a) = none

/-- **Bundles and manifest agree**: a bundle backs every mapping of the manifest that is stored. -/
structure Agrees (a : Address) (last : Ledger) (m : Manifest) (t : Tree) : Prop
    extends Orderly a t where
  stored : Stored a m t
  bijective : m.Bijective
  backed : ∀ source artifact, m.artifactOf? source = some artifact →
    Backed a last m t source artifact

variable {last : Ledger} {l : Layout}

theorem ne_of_apart {x b : Address} (h : ¬ b <:+ x) : x ≠ b := fun he => h (he ▸ List.suffix_refl _)

theorem Orderly.congr (h : Orderly a t₀) (hroot : t.get? a = some .directory) (hno : t.NoLinksIn a)
    (hmanifest : t.get? (manifestAddress a) = t₀.get? (manifestAddress a))
    (hdraft : t.get? (draftAddress a) = t₀.get? (draftAddress a))
    (hactions : ∀ y, t.get? (y ++ actionsAddress a) = t₀.get? (y ++ actionsAddress a)) :
    Orderly a t where
  root := hroot
  noLinks := hno
  tidy := h.tidy.congr hactions
  draft hdir := hmanifest.trans (h.draft (hdraft.symm.trans hdir))

/-- Without a manifest there is nothing to back. -/
theorem Orderly.agrees_empty (h : Orderly a t) (hnone : t.get? (manifestAddress a) = none) :
    Agrees a last {} t where
  toOrderly := h
  stored := .inl ⟨hnone, rfl⟩
  bijective := Manifest.bijective_empty
  backed source artifact hmapped := by cases hmapped

theorem Agrees.congr (h : Agrees a last m t₀) (hroot : t.get? a = some .directory)
    (hno : t.NoLinksIn a) (hmanifest : t.get? (manifestAddress a) = t₀.get? (manifestAddress a))
    (hdraft : t.get? (draftAddress a) = t₀.get? (draftAddress a))
    (hactions : ∀ y, t.get? (y ++ actionsAddress a) = t₀.get? (y ++ actionsAddress a)) :
    Agrees a last m t where
  toOrderly := h.toOrderly.congr hroot hno hmanifest hdraft hactions
  stored := by
    rw [Stored, hmanifest]
    exact h.stored
  bijective := h.bijective
  backed source artifact hmapped := by
    obtain ⟨domain, slug, record, bytes, b, hdomain, hslug, he, hstands, hrest⟩ :=
      h.backed source artifact hmapped
    exact ⟨domain, slug, record, bytes, b, hdomain, hslug, he,
      hstands.congr fun y => by simpa using hactions (y ++ [slug, domain]), hrest⟩

theorem not_scratch_own {n : Text} (hlock : n ≠ "manifest.lock".toList)
    (htxns : n ≠ "txns".toList) : ¬ Scratch a (n :: bridgeAddress a) := by
  rintro (he | he | hs)
  · exact List.cons_ne_self _ _ he
  · exact hlock (List.cons.inj he).1
  · rcases List.suffix_cons_iff.1 hs with he | hs
    · exact htxns (List.cons.inj he).1.symm
    · exact Transaction.not_suffix_of_cons _ _ hs

theorem not_scratch_manifest : ¬ Scratch a (manifestAddress a) :=
  not_scratch_own (by decide) (by decide)

theorem not_scratch_draft : ¬ Scratch a (draftAddress a) := not_scratch_own (by decide) (by decide)

/-- What locks and transactions change leaves bundles and manifest agreeing. -/
theorem Agrees.confined (h : Agrees a last m t₀) (hconfined : t₀.Confined (Scratch a) a t) :
    Agrees a last m t :=
  h.congr hconfined.root hconfined.noLinks (hconfined.same _ not_scratch_manifest)
    (hconfined.same _ not_scratch_draft) fun y => hconfined.same _ (not_scratch_actions y)

/-- The manifest that is stored is loaded. -/
theorem Agrees.load (h : Agrees a last m d.tree) (hl : l.root = Path.ofAddress a) :
    Manifest.load l d = .ok m := by
  have ha := Tree.isWay_of_get? h.root
  have hway : Path.IsWay (manifestAddress a) := (isWay_bridgeAddress ha).cons (by decide)
  have hthere := Disk.isThere_ofAddress hway
    (nul_not_mem_bridge (Disk.nul_not_mem_of_get? h.root) (by decide))
    (Disk.plain_of_noLinksIn (c := ["manifest.json".toList, ".bridge".toList]) h.noLinks h.root)
  rw [Manifest.load, manifestPath_eq ha hl]
  rcases h.stored with ⟨hnone, rfl⟩ | ⟨mode, hfile⟩
  · rw [if_neg fun he => hthere.1 he hnone]
  · rw [if_pos (hthere.2 (by simp [hfile])), Disk.read, Disk.find_of_get? hfile (by simp)]
    exact Manifest.read_render _ m

/-! ### Generating an action -/

/-- What a claim leaves of the manifest. -/
theorem mapped_of_claim {m' : Manifest} {source artifact : Text} (hm : m.Bijective)
    (h : claim l m source artifact d = .ok m') {other place : Text}
    (hmapped : m'.artifactOf? other = some place) :
    m.artifactOf? other = some place ∧ m'.recordOf? place = m.recordOf? place := by
  rcases eq_of_claim h with ⟨rfl, -⟩ | ⟨owner, -, -, -, rfl⟩
  · exact ⟨hmapped, rfl⟩
  · rw [Manifest.artifactOf?_forget] at hmapped
    split at hmapped
    · cases hmapped
    · next hne =>
      refine ⟨hmapped, ?_⟩
      rw [hm.recordOf?_forget, if_neg fun hs => hne (hm.injective hmapped hs)]

variable {occasion : Occasion} {plan : Plan} {time path : Text} {mode : ParseMode}

/-- **Every mapping is backed again** after the bundle of a plan was published and the manifest was
changed accordingly. -/
theorem Agrees.backed_upsert {m₁ : Manifest} {bytes : Bytes} (h : Agrees a last m t₀)
    (hslug : Identity.IsSegment plan.identity.slug)
    (hdomain : Identity.IsSegment plan.identity.domain)
    (hartifact : plan.artifact =
      Path.ofRelative (bundleAddress plan.identity.domain plan.identity.slug))
    (hsource : plan.bundle.sync.source = plan.source)
    (hchecksum : plan.bundle.sync.checksum = Sha256.checksum bytes)
    (hclaim : claim l m plan.source plan.artifact d = .ok m₁)
    (hstands : plan.bundle.Stands t
      (plan.identity.slug :: plan.identity.domain :: actionsAddress a))
    (hbeside : ∀ slug domain, slug :: domain :: actionsAddress a ≠
        plan.identity.slug :: plan.identity.domain :: actionsAddress a →
      ∀ y, t.get? (y ++ slug :: domain :: actionsAddress a) =
        t₀.get? (y ++ slug :: domain :: actionsAddress a))
    {source artifact : Text}
    (hmapped : (m₁.upsert plan.source plan.artifact plan.record).artifactOf? source =
      some artifact) :
    Backed a (last.enter (plan.source, some bytes))
      (m₁.upsert plan.source plan.artifact plan.record) t source artifact := by
  obtain ⟨hm₁, hfree⟩ := bijective_claim h.bijective hclaim
  have hm₂ : (m₁.upsert plan.source plan.artifact plan.record).Bijective := hm₁.upsert hfree rfl
  have hmapped₂ := hmapped
  rw [Manifest.artifactOf?_upsert] at hmapped
  by_cases hs : source = plan.source
  · rw [if_pos hs] at hmapped
    cases hmapped
    refine ⟨_, _, plan.record, bytes, plan.bundle, hdomain, hslug, hartifact, hstands,
      Manifest.recordOf?_upsert_self .., if_pos hs, ?_⟩
    rw [hs, ← hsource, ← hchecksum]
    rfl
  · rw [if_neg hs] at hmapped
    obtain ⟨hbefore, hrecordOf⟩ := mapped_of_claim h.bijective hclaim hmapped
    obtain ⟨domain, slug, record, bytes', b, hdomain', hslug', rfl, hstands', hrecord, hlast,
      hsync⟩ := h.backed source artifact hbefore
    -- another model has another artifact, and so another directory
    have hself : (m₁.upsert plan.source plan.artifact plan.record).artifactOf? plan.source =
        some plan.artifact := by rw [Manifest.artifactOf?_upsert, if_pos rfl]
    have hne : Path.ofRelative (bundleAddress domain slug) ≠ plan.artifact := fun he =>
      hs (hm₂.injective (he ▸ hmapped₂) hself)
    have hdir : slug :: domain :: actionsAddress a ≠
        plan.identity.slug :: plan.identity.domain :: actionsAddress a := fun he => hne <| by
      rw [hartifact, (List.cons.inj he).1, (List.cons.inj (List.cons.inj he).2).1]
    refine ⟨domain, slug, record, bytes', b, hdomain', hslug', rfl,
      hstands'.congr (hbeside slug domain hdir), ?_, (if_neg hs).trans hlast, hsync⟩
    rw [hm₁.recordOf?_upsert, if_neg hne, if_neg fun hold => hs (hm₁.injective hmapped hold),
      hrecordOf, hrecord]

/-- What may come of generating an action in a project in order: it is still in order. -/
inductive GenerateOutcome (a : Address) (last : Ledger) (m : Manifest) (d : Disk) :
    Except Failure (Generated × Manifest) × Disk → Prop
  | failed (e : Failure) (d' : Disk) (h : Agrees a last m d'.tree) :
      GenerateOutcome a last m d (.error e, d')
  | done (g : Generated) (m' : Manifest) (d' : Disk)
      (h : Agrees a (last.enter (g.source,
        (d.read (Path.join (Path.ofAddress a) g.source)).toOption)) m' d'.tree) :
      GenerateOutcome a last m d (.ok (g, m'), d')

/-- Where no manifest is stored, there is nothing to agree with. -/
theorem Agrees.of_missing (h : Agrees a last m t₀) (ht : Orderly a t)
    (hmanifest : t.get? (manifestAddress a) = t₀.get? (manifestAddress a))
    (hnone : t₀.get? (manifestAddress a) = none) : Agrees a last m t := by
  rcases h.stored with ⟨-, rfl⟩ | ⟨mode, hfile⟩
  · exact ht.agrees_empty (hmanifest.trans hnone)
  · cases hnone.symm.trans hfile

/-- Publishing a bundle changes nothing among the program's own entries but what transactions
change. -/
theorem Delivered.get?_own (h : Delivered a (slug :: domain :: actionsAddress a) files t₀ t)
    {x : Address} (hscratch : ¬ Scratch a x) (hx : bridgeAddress a <:+ x) :
    t.get? x = t₀.get? x := by
  refine h.other x hscratch (fun n node _ he => ?_) fun hs => ?_
  · rw [he] at hx
    exact (apart_actions a).not_suffix [n, slug, domain] hx
  · exact (apart_actions a).not_suffix [slug, domain] (hx.trans hs)

/-- Making the program's own directory leaves a project in order. -/
theorem Orderly.withBridge (h : Orderly a t₀)
    (hget : ∀ x, t.get? x = if x = bridgeAddress a then some .directory else t₀.get? x) :
    Orderly a t := by
  have hsame : ∀ x, x ≠ bridgeAddress a → t.get? x = t₀.get? x := fun x hx =>
    (hget x).trans (if_neg hx)
  refine h.congr ?_ (fun b target hlink => ?_) (hsame _ (List.cons_ne_self _ _))
    (hsame _ (List.cons_ne_self _ _)) fun y =>
      hsame _ (ne_of_apart ((apart_actions a).not_suffix y))
  · rw [hsame a (Transaction.ne_of_suffix (List.suffix_refl a)), h.root]
  · rw [hget] at hlink
    split at hlink
    · cases hlink
    · exact h.noLinks b target hlink

section Saved

variable {stored : Option Node} (hget : ∀ x, t.get? x =
  if x = manifestAddress a then stored else if x = draftAddress a then none
  else if x = bridgeAddress a then some .directory else t₀.get? x)

include hget

/-- Storing the manifest changes nothing outside the program's own directory. -/
theorem get?_saved {x : Address} (hx : ¬ bridgeAddress a <:+ x) : t.get? x = t₀.get? x := by
  have hmanifest : x ≠ manifestAddress a := fun he => hx (he ▸ List.suffix_cons _ (bridgeAddress a))
  have hdraft : x ≠ draftAddress a := fun he => hx (he ▸ List.suffix_cons _ (bridgeAddress a))
  rw [hget, if_neg hmanifest, if_neg hdraft, if_neg (ne_of_apart hx)]

/-- Storing the manifest leaves a project in order. -/
theorem Orderly.saved (h : Orderly a t₀) (hstored : ∀ target, stored ≠ some (.link target)) :
    Orderly a t := by
  refine ⟨?_, fun b target hlink => ?_,
    h.tidy.congr fun y => get?_saved hget ((apart_actions a).not_suffix y), fun hdir => ?_⟩
  · rw [get?_saved hget (Transaction.not_suffix_of_cons _ a), h.root]
  · rw [hget] at hlink
    split at hlink
    · exact hstored target hlink
    split at hlink
    · cases hlink
    split at hlink
    · cases hlink
    · exact h.noLinks b target hlink
  · have hne : draftAddress a ≠ manifestAddress a := fun he =>
      absurd (List.cons.inj he).1 (by decide)
    rw [hget, if_neg hne, if_pos rfl] at hdir
    cases hdir

end Saved

theorem Agrees.manifest_ne_directory (h : Agrees a last m t) :
    t.get? (manifestAddress a) ≠ some .directory := by
  rcases h.stored with ⟨hnone, -⟩ | ⟨mode, hfile⟩
  · simp [hnone]
  · simp [hfile]

/-- What may come of publishing the bundle of a plan in a project in order. -/
theorem Agrees.publishes (h : Agrees a last m d.tree)
    (hname : isName occasion.transactionName = true)
    (hplan : (standard a mode).plan occasion path d = .ok plan) :
    PublishOutcome a (plan.identity.slug :: plan.identity.domain :: actionsAddress a)
      plan.bundle.files d.tree ((publish (standard a mode).layout occasion plan).on d) := by
  obtain ⟨hslug, hdomain, hartifact, -⟩ := made_of_plan h.root hplan
  rw [← bundleAddress_append]
  exact publish_outcome (place_bundleAddress hdomain hslug) rfl hname h.root h.noLinks hartifact
    (h.tidy.hasRoom h.root _ _)

section Published

variable {d₁ : Disk} (h : Agrees a last m d.tree) (hb : b.IsRendered)
  (hdelivered : Delivered a (slug :: domain :: actionsAddress a) b.files d.tree d₁.tree)

include h hb hdelivered

/-- Publishing a bundle leaves the directory of the actions in order, and the manifest alone. -/
theorem Agrees.orderly_delivered : Orderly a d₁.tree where
  root := hdelivered.root
  noLinks := hdelivered.noLinks
  tidy := (h.tidy.delivered hb hdelivered).1
  draft hdir := (hdelivered.get?_own not_scratch_manifest (List.suffix_cons _ _)).trans <|
    h.draft ((hdelivered.get?_own not_scratch_draft (List.suffix_cons _ _)).symm.trans hdir)

theorem Agrees.saves (hl : l.root = Path.ofAddress a) (m' : Manifest) :
    SaveOutcome a m' d₁ ((m'.save l).on d₁) := by
  have horderly := h.orderly_delivered hb hdelivered
  refine save_on hl horderly.root horderly.noLinks ?_
  rw [hdelivered.get?_own not_scratch_manifest (List.suffix_cons _ _)]
  exact h.manifest_ne_directory

/-- If the manifest cannot be stored after a bundle was published, there is none. -/
theorem Agrees.not_stored (hl : l.root = Path.ofAddress a) {m' : Manifest} {e : Failure}
    (hsave : (m'.save l).on d₁ = (.error e, d')) : Agrees a last m d'.tree := by
  have horderly := h.orderly_delivered hb hdelivered
  have hmanifest := hdelivered.get?_own not_scratch_manifest (List.suffix_cons _ _)
  have hdraft := hdelivered.get?_own not_scratch_draft (List.suffix_cons _ _)
  have houtcome := h.saves hb hdelivered hl m'
  rw [hsave] at houtcome
  cases houtcome with
  | blocked e hbridge =>
    refine h.of_missing horderly hmanifest ?_
    cases hstored : d.tree.get? (manifestAddress a) with
    | none => rfl
    | some node => exact absurd (Tree.get?_dir (hmanifest.trans hstored)) hbridge
  | refused e d' hdir hget =>
    refine h.of_missing (horderly.withBridge hget) ?_ (h.draft (hdraft.symm.trans hdir))
    exact (hget _).trans ((if_neg (List.cons_ne_self _ _)).trans hmanifest)

end Published

/-- When the bundle of a plan has been published and the manifest stored, they agree again. -/
theorem Agrees.carried {g : Generated} {m' kept : Manifest} {d₁ : Disk}
    (h : Agrees a last m d.tree) (hname : isName occasion.transactionName = true)
    (hcarried : Carried (standard a mode) occasion m path d g m' d' plan kept d₁) :
    Agrees a (last.enter (g.source, (d.read (Path.join (Path.ofAddress a) g.source)).toOption))
      m' d'.tree := by
  obtain ⟨hslug, hdomain, hartifact, model, bytes, image, hread, hbundle⟩ :=
    made_of_plan h.root hcarried.planned
  have hpublish := h.publishes hname hcarried.planned
  rw [hcarried.published] at hpublish
  cases hpublish with
  | done _ _ hdelivered =>
  have hb : plan.bundle.IsRendered := ⟨_, _, _, _, _, _, hbundle⟩
  have hsave := h.saves (l := (standard a mode).layout) hb hdelivered rfl m'
  rw [hcarried.saved] at hsave
  cases hsave with
  | done _ mode' _ hget =>
  obtain ⟨hkept, hfree⟩ := bijective_claim h.bijective hcarried.claimed
  have hactions : ∀ y, d'.tree.get? (y ++ actionsAddress a) =
      d₁.tree.get? (y ++ actionsAddress a) := fun y =>
    get?_saved hget ((apart_actions a).not_suffix y)
  have hstands := (h.tidy.delivered hb hdelivered).2
  refine ⟨(h.orderly_delivered hb hdelivered).saved hget (by simp),
    .inr ⟨mode', (hget _).trans (if_pos rfl)⟩, hcarried.manifest ▸ hkept.upsert hfree rfl,
    fun source artifact hmapped => ?_⟩
  have hbytes : (d.read (Path.join (Path.ofAddress a) g.source)).toOption = some bytes := by
    rw [hcarried.source, hread]
    rfl
  rw [hcarried.manifest] at hmapped ⊢
  rw [hbytes, hcarried.source]
  refine h.backed_upsert hslug hdomain hartifact (by rw [hbundle]; rfl) (by rw [hbundle]; rfl)
    hcarried.claimed (hstands.congr fun y => ?_) (fun slug domain hne y => ?_) hmapped
  · simpa using hactions (y ++ [plan.identity.slug, plan.identity.domain])
  · have hbeside := hdelivered.get?_beside (y := y) (by rw [List.length_cons,
      List.length_cons, List.length_cons, List.length_cons]) hne
      (by simpa using not_scratch_actions (y ++ [slug, domain]))
    rw [← hbeside]
    simpa using hactions (y ++ [slug, domain])

/-- **Generating an action** leaves a project in order, whether it fails or not. -/
theorem Agrees.generate (h : Agrees a last m d.tree)
    (hname : isName occasion.transactionName = true) (path : Text) :
    GenerateOutcome a last m d (((standard a mode).generate occasion m path).on d) := by
  have hgenerating := generating (standard a mode) occasion m path d
  generalize ((standard a mode).generate occasion m path).on d = generated at hgenerating ⊢
  cases hgenerating with
  | notPlanned e | notClaimed plan e => exact .failed e d h
  | notPublished plan kept e d' hplan hclaim hpublish =>
    have houtcome := h.publishes hname hplan
    rw [hpublish] at houtcome
    cases houtcome with
    | failed _ _ hconfined => exact .failed e d' (h.confined hconfined)
  | notStored plan kept files d₁ e d' hplan hclaim hpublish hsave =>
    obtain ⟨-, -, -, model, bytes, image, -, hbundle⟩ := made_of_plan h.root hplan
    have houtcome := h.publishes hname hplan
    rw [hpublish] at houtcome
    cases houtcome with
    | done _ _ hdelivered =>
      exact .failed e d' (h.not_stored ⟨_, _, _, _, _, _, hbundle⟩ hdelivered rfl hsave)
  | done g m' d' plan kept d₁ hcarried => exact .done g m' d' (h.carried hname hcarried)

end Project

end ActionBundles
