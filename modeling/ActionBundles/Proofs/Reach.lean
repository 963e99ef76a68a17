import ActionBundles.Proofs.Changes
import ActionBundles.Proofs.FileOrder
import ActionBundles.Proofs.ManifestHistory
import ActionBundles.Proofs.Publication

/-!
# How far generating reaches

To generate an action in a project without links, with success or not, changes no files but those of
the bundle, their drafts, the manifest and its draft, and makes no directories but those that lead
to the bundle and to the transactions. That is `Project.changed_generate`; it holds under every
configuration that can be used, whatever dots the directory of the bundle is written with, so the
directory itself is left open there.
-/

namespace ActionBundles

open ActionBundles.Action

namespace Transaction

variable {files dirs : Address → Prop} {a c r : Address} {t₀ t t' : Tree} {d d' : Disk} {n : Text}
  {gathered : List (Text × Node)} {tx : Transaction} {rel : Text} {content : Bytes}

/-! ### Gathering -/

/-- What has been gathered in the transaction at `r`: some files, all of them in the directory
`c`. -/
structure Collects (r c : Address) (files : List (Text × Node)) (t : Tree) : Prop where
  directory : t.get? r = some .directory
  entry : ∀ x node, r <:+ x → t.get? x = some node →
    node = .directory ∨ ∃ n, (n, node) ∈ files ∧ x = n :: c
  file : ∀ n node, (n, node) ∈ files → t.get? (n :: c) = some node

theorem collects_nothing (c : Address) (hdir : t.get? r = some .directory)
    (hempty : ∀ b, b ≠ [] → t.get? (b ++ r) = none) : Collects r c [] t where
  directory := hdir
  entry x node hx hget := by
    obtain ⟨b, rfl⟩ := hx
    by_cases hb : b = []
    · subst hb
      exact .inl (Option.some.inj (hget.symm.trans hdir))
    · cases (hempty b hb).symm.trans hget
  file n node hmem := absurd hmem List.not_mem_nil

theorem Collects.makeDirectory (h : Collects r c gathered t) {dir : Address}
    (hnone : t.get? (n :: dir) = none) : Collects r c gathered (t.set n dir .directory) := by
  have hsame : ∀ x node, t.get? x = some node →
      (t.set n dir .directory).get? x = some node := fun x node hx => by
    rw [Tree.get?_set, if_neg, hx]
    rintro ⟨-, rfl⟩
    cases hnone.symm.trans hx
  refine ⟨hsame _ _ h.directory, fun x node hx hget => ?_, fun m node hm => hsame _ _ (h.file m node hm)⟩
  rw [Tree.get?_set] at hget
  split at hget
  · cases hget
    exact .inl rfl
  · exact h.entry x node hx hget

theorem collects_makeDirectories [Medium] {path : Text} (habs : Path.isAbsolute path = true) :
    Keeps (Collects r c gathered) (Disk.makeDirectories path) :=
  Disk.keeps_makeDirectories_along habs fun _ _ _ _ h habs' _ hplace =>
    h.makeDirectory (Disk.place_holds habs' hplace).2

/-- A file that had not been gathered is added. -/
theorem Collects.add (h : Collects r c gathered t) {node : Node} (hnew : ∀ node, (n, node) ∉ gathered)
    (hrc : r <:+ c) (hget : ∀ x, t'.get? x = if x = n :: c then some node else t.get? x) :
    Collects r c (gathered ++ [(n, node)]) t' where
  directory := by
    rw [hget, if_neg (ne_of_suffix hrc)]
    exact h.directory
  entry x node' hx hx' := by
    rw [hget] at hx'
    split at hx'
    · next he =>
      cases hx'
      exact .inr ⟨n, by simp, he⟩
    · rcases h.entry x node' hx hx' with hdir | ⟨m, hm, he⟩
      · exact .inl hdir
      · exact .inr ⟨m, by simp [hm], he⟩
  file m node' hm := by
    rw [hget]
    rcases List.mem_append.1 hm with hm | hm
    · rw [if_neg, h.file m node' hm]
      intro he
      exact hnew node' ((List.cons.inj he).1 ▸ hm)
    · obtain ⟨rfl, rfl⟩ := Prod.mk.inj (List.mem_singleton.1 hm)
      exact if_pos rfl

section Stage

variable [Medium] (hlands : Path.LandsAt a (Path.join tx.stagingDir rel) (n :: c))
  (hd : ∀ path y, Path.steps path <+: Path.steps (Path.join tx.stagingDir rel) →
    Path.LandsAt a path y → dirs y)
  (hf : files (n :: c))

include hlands

include hd in
theorem changed_makeParent :
    Keeps (t₀.Changed files dirs a) (makeParent (Path.join tx.stagingDir rel)) := by
  rw [makeParent]
  split
  · exact keeps_pure ()
  · next above hparent =>
    obtain ⟨habs, hpre⟩ := Path.parent?_of_isAbsolute hlands.1 hparent
    exact (Disk.changed_makeDirectories hlands habs hpre fun path y hpath =>
      hd path y (hpath.trans hpre)).within _

theorem collects_makeParent :
    Keeps (Collects r c gathered) (makeParent (Path.join tx.stagingDir rel)) := by
  rw [makeParent]
  split
  · exact keeps_pure ()
  · next above hparent =>
    exact (collects_makeDirectories (Path.parent?_of_isAbsolute hlands.1 hparent).1).within _

include hd hf

theorem changed_stage : Keeps (t₀.Changed files dirs a) (tx.stage rel content) :=
  (changed_makeParent hlands hd).bind fun _ => (Disk.changed_put hlands hf content none).within _

theorem changed_stageExecutable :
    Keeps (t₀.Changed files dirs a) (tx.stageExecutable rel content) :=
  (changed_stage hlands hd hf).bind fun _ => (Disk.changed_makeExecutable hlands hf).within _

variable (hname : isName n = true) (hrc : r <:+ c) (hnew : ∀ node, (n, node) ∉ gathered)
  (hchanged : t₀.Changed files dirs a d.tree) (h : Collects r c gathered d.tree)

include hname hrc hnew hchanged h

omit hf in
/-- What it is that a file has been gathered: it is new after its directory was made. -/
theorem exists_of_stage (hrun : (tx.stage rel content).on d = (.ok (), d')) :
    ∃ d₁ : Disk, t₀.Changed files dirs a d₁.tree ∧ Collects r c gathered d₁.tree ∧
      ∀ x, d'.tree.get? x =
        if x = n :: c then some (.file content false) else d₁.tree.get? x := by
  have hparent : Keeps (fun t => t₀.Changed files dirs a t ∧ Collects r c gathered t)
      (makeParent (Path.join tx.stagingDir rel)) :=
    (changed_makeParent hlands hd).and (collects_makeParent hlands)
  have hmade := hparent d ⟨hchanged, h⟩
  rw [stage, on_bind] at hrun
  generalize (makeParent (Path.join tx.stagingDir rel)).on d = made at hmade hrun
  obtain ⟨e | _, d₁⟩ := made
  · cases hrun
  obtain ⟨hchanged₁, h₁⟩ := hmade
  dsimp only at hrun hchanged₁ h₁
  rw [on_within, Disk.write] at hrun
  generalize hput : (Disk.put (Path.join tx.stagingDir rel) content none).on d₁ = wrote at hrun
  obtain ⟨e | _, d₂⟩ := wrote
  · cases hrun
  cases hrun
  obtain ⟨m, dir, mode, spot, hopen, haddress, hdir, hnot, hmode, rfl⟩ :=
    Disk.exists_of_put hlands.1 hput
  obtain ⟨rfl, rfl⟩ := List.cons.inj ((Disk.address_of_openForWriting_lands hchanged₁.root
    hchanged₁.noLinks hlands hopen).symm.trans haddress)
  -- the file is new, for what is in its place would have been gathered
  have hnone : d₁.tree.get? (n :: c) = none := by
    refine Option.eq_none_iff_forall_ne_some.2 fun node hnode => ?_
    rcases h₁.entry _ node (hrc.trans (List.suffix_cons n c)) hnode with rfl | ⟨k, hk, he⟩
    · exact hnot hnode
    · exact hnew node ((List.cons.inj he).1 ▸ hk)
  obtain rfl := hmode hnone
  exact ⟨d₁, hchanged₁, h₁, Tree.get?_set_of_directory hdir hname (.inr hnot)⟩

omit hf in
theorem collects_stage (hrun : (tx.stage rel content).on d = (.ok (), d')) :
    Collects r c (gathered ++ [(n, .file content false)]) d'.tree := by
  obtain ⟨d₁, -, h₁, hget⟩ := exists_of_stage hlands hd hname hrc hnew hchanged h hrun
  exact h₁.add hnew hrc hget

theorem collects_stageExecutable (hrun : (tx.stageExecutable rel content).on d = (.ok (), d')) :
    Collects r c (gathered ++ [(n, .file content true)]) d'.tree := by
  rw [stageExecutable, on_bind] at hrun
  have hstaged := fun d₂ (hrun : (tx.stage rel content).on d = (.ok (), d₂)) =>
    exists_of_stage hlands hd hname hrc hnew hchanged h hrun
  have hchanged₂ : t₀.Changed files dirs a ((tx.stage rel content).on d).2.tree :=
    changed_stage hlands hd hf d hchanged
  generalize (tx.stage rel content).on d = staged at hrun hstaged hchanged₂
  obtain ⟨e | _, d₂⟩ := staged
  · cases hrun
  obtain ⟨d₁, -, h₁, hget⟩ := hstaged d₂ rfl
  have hfile : d₂.tree.get? (n :: c) = some (.file content false) := by rw [hget, if_pos rfl]
  dsimp only at hrun hchanged₂
  rw [on_within, Disk.makeExecutable_on] at hrun
  cases hfind : d₂.find (Path.join tx.stagingDir rel) with
  | error e =>
    rw [hfind] at hrun
    cases hrun
  | ok found =>
    obtain ⟨x, node⟩ := found
    obtain rfl : x = n :: c :=
      Disk.address_of_find_lands hchanged₂.root hchanged₂.noLinks hlands hfind
    cases (Disk.find_holds hlands.1 hfind).symm.trans hfile
    rw [hfind] at hrun
    cases hrun
    refine h₁.add hnew hrc fun x => ?_
    show (d₂.tree.set n c (.file content true)).get? x = _
    rw [Tree.get?_set_of_directory (Tree.get?_dir hfile) hname (.inr (by simp [hfile]))]
    split
    · rfl
    · next hne => rw [hget, if_neg hne]

end Stage

/-! ### Publishing -/

/-- The files of `rels` may be published below `a` by the transaction at `r`: their places and their
drafts may change, directories may be made for them, and anything may happen in `r`. -/
structure Publishable (files dirs : Address → Prop) (a r : Address) (rels : List Address) :
    Prop where
  inside : a <:+ r
  isName : ∀ k ∈ r, isName k = true
  ne_nil : ∀ b ∈ rels, b ≠ []
  relName : ∀ b ∈ rels, ∀ k ∈ b, ActionBundles.isName k = true
  place : ∀ n c, n :: c ∈ rels → files (n :: (c ++ a)) ∧ files (draftName n :: (c ++ a)) ∧
    ∀ x, x <:+ c ++ a → dirs x
  own : ∀ x, r <:+ x → files x ∧ dirs x
  way : ∀ x, x <:+ r → dirs x

theorem changed_moveOrCopy [Medium] {source target : Text} {x y : Address}
    (hs : Path.LandsAt a source x) (hfs : files x) (ht : Path.LandsAt a target y) (hft : files y)
    (hws : Path.wantsDirectory source = false) (hwt : Path.wantsDirectory target = false) :
    Keeps (t₀.Changed files dirs a) (moveOrCopy source target) :=
  keeps_moveOrCopy hws hwt ht.1 (Disk.changed_move hs hfs ht hft)

section Publish

variable {rels : List Address} {b : Address} (hp : Publishable files dirs a r rels)

include hp

theorem Publishable.isName_root : ∀ k ∈ a, ActionBundles.isName k = true := fun k hk =>
  hp.isName k (hp.inside.subset hk)

section Places

variable (hb : n :: c ∈ rels)

include hb

theorem Publishable.names_place : ∀ k ∈ n :: (c ++ a), ActionBundles.isName k = true :=
  fun k hk => (List.mem_append.1 (show k ∈ (n :: c) ++ a from hk)).elim (hp.relName _ hb k)
    (hp.isName_root k)

theorem Publishable.lands_place :
    Path.LandsAt a (Path.ofAddress (n :: (c ++ a))) (n :: (c ++ a)) :=
  Path.landsAt_ofAddress (isWay_of_names (hp.names_place hb)) (List.suffix_append (n :: c) a)

theorem Publishable.lands_draft :
    Path.LandsAt a (Path.ofAddress (draftName n :: (c ++ a))) (draftName n :: (c ++ a)) := by
  have hway := isWay_of_names (hp.names_place hb)
  exact Path.landsAt_ofAddress (hway.tail.cons (isStep_draftName (hway n List.mem_cons_self)))
    (List.suffix_append (draftName n :: c) a)

theorem Publishable.names_own (m : Text) (hm : ActionBundles.isName m = true) :
    ∀ k ∈ n :: c ++ m :: r, ActionBundles.isName k = true := by
  intro k hk
  rcases List.mem_append.1 hk with hk | hk
  · exact hp.relName _ hb k hk
  rcases List.mem_cons.1 hk with rfl | hk
  · exact hm
  · exact hp.isName k hk

theorem Publishable.lands_own (m : Text) (hm : ActionBundles.isName m = true) :
    Path.LandsAt a (Path.ofAddress (n :: c ++ m :: r)) (n :: c ++ m :: r) :=
  Path.landsAt_ofAddress (isWay_of_names (hp.names_own hb m hm))
    (hp.inside.trans ((List.suffix_cons m r).trans (List.suffix_append _ _)))

theorem Publishable.changed_makeParent_place [Medium] :
    Keeps (t₀.Changed files dirs a) (makeParent (Path.ofAddress (n :: (c ++ a)))) := by
  have hway := isWay_of_names (hp.names_place hb)
  rw [makeParent_ofAddress hway]
  exact (Disk.changed_makeDirectories_ofAddress hway.tail (List.suffix_append c a)
    (hp.place n c hb).2.2).within _

/-- Directories are made in the transaction. -/
theorem Publishable.changed_makeParent_own [Medium] (m : Text)
    (hm : ActionBundles.isName m = true) :
    Keeps (t₀.Changed files dirs a) (makeParent (Path.ofAddress (n :: c ++ m :: r))) := by
  have hway : Path.IsWay (n :: (c ++ m :: r)) := isWay_of_names (hp.names_own hb m hm)
  rw [List.cons_append, makeParent_ofAddress hway]
  have hin : r <:+ c ++ m :: r := (List.suffix_cons m r).trans (List.suffix_append c _)
  refine (Disk.changed_makeDirectories_ofAddress hway.tail (hp.inside.trans hin)
    fun y hy => ?_).within _
  rcases List.suffix_or_suffix_of_suffix hy hin with hs | hs
  · exact hp.way y hs
  · exact (hp.own y hs).2

theorem changed_keep [Medium] :
    Keeps (t₀.Changed files dirs a)
      (keep (Path.ofAddress (n :: (c ++ a))) (Path.ofAddress (n :: c ++ backupAddress r))) := by
  have hown : files (n :: c ++ backupAddress r) := (hp.own _ (suffix_backup _)).1
  refine (keeps_ask _).bind fun _ => Keeps.ite ?_ (keeps_pure _)
  refine (hp.changed_makeParent_own hb _ (by decide)).bind fun _ => Keeps.bind ?_ fun _ => keeps_pure _
  exact (changed_moveOrCopy (hp.lands_place hb) (hp.place n c hb).1
    (hp.lands_own hb _ (by decide)) hown
    (Path.wantsDirectory_ofAddress (isWay_of_names (hp.names_place hb)))
    (Path.wantsDirectory_ofAddress (isWay_of_names (hp.names_own hb _ (by decide))))).within _

theorem changed_put [Medium] (source : Text) :
    Keeps (t₀.Changed files dirs a) (put source (Path.ofAddress (n :: (c ++ a)))) := by
  obtain ⟨hplace, hdraft, -⟩ := hp.place n c hb
  rw [put_eq (isWay_of_names (hp.names_place hb))]
  refine (hp.changed_makeParent_place hb).bind fun _ => Keeps.bind ?_ fun _ => ?_
  · exact (Disk.changed_copy (hp.lands_draft hb) hdraft).within _
  · exact (Disk.changed_move (hp.lands_draft hb) hdraft (hp.lands_place hb) hplace).within _

theorem changed_withdraw :
    Keeps (t₀.Changed files dirs a) (withdraw (Path.ofAddress (n :: (c ++ a)))) :=
  (keeps_ask _).bind fun _ => Keeps.ite
    ((Disk.changed_removeFile (hp.lands_place hb) (hp.place n c hb).1).attempt.bind
      fun _ => keeps_pure _)
    (keeps_pure _)

theorem changed_restore [Medium] :
    Keeps (t₀.Changed files dirs a)
      (restore (Path.ofAddress (n :: (c ++ a))) (Path.ofAddress (n :: c ++ backupAddress r))) := by
  have hown : files (n :: c ++ backupAddress r) := (hp.own _ (suffix_backup _)).1
  refine (hp.changed_makeParent_place hb).attempt.bind fun _ => Keeps.bind ?_ fun _ => keeps_pure _
  exact (changed_moveOrCopy (hp.lands_own hb _ (by decide)) hown (hp.lands_place hb)
    (hp.place n c hb).1 (Path.wantsDirectory_ofAddress (isWay_of_names (hp.names_own hb _ (by decide))))
    (Path.wantsDirectory_ofAddress (isWay_of_names (hp.names_place hb)))).attempt

end Places

/-- All that is on record is of `rels`. -/
def OnRecord (a r : Address) (rels : List Address) (p : Published) : Prop :=
  ∃ done fresh kept, Records a r done fresh kept p ∧
    (∀ b ∈ done, b ∈ rels) ∧ (∀ b ∈ fresh, b ∈ rels) ∧ ∀ b ∈ kept, b ∈ rels

omit hp in
theorem onRecord_nothing : OnRecord a r rels {} :=
  ⟨[], [], [], Records.nothing, by simp, by simp, by simp⟩

section Recording

variable {p : Published} (h : OnRecord a r rels p) (hb : b ∈ rels)

include h hb

omit hp in
theorem OnRecord.after_keep (isKept : Bool) : OnRecord a r rels
    (p.afterKeep (Path.ofAddress (b ++ a)) (Path.ofAddress (b ++ backupAddress r)) isKept) := by
  obtain ⟨done, fresh, kept, hrecords, hdone, hfresh, hkept⟩ := h
  cases isKept with
  | false =>
    exact ⟨done, fresh ++ [b], kept, hrecords.after_absent b, hdone,
      List.forall_mem_append.2 ⟨hfresh, by simpa using hb⟩, hkept⟩
  | true =>
    exact ⟨done, fresh, kept ++ [b], hrecords.after_keep b, hdone, hfresh,
      List.forall_mem_append.2 ⟨hkept, by simpa using hb⟩⟩

omit hp in
theorem OnRecord.after_put : OnRecord a r rels (p.afterPut (Path.ofAddress (b ++ a))) := by
  obtain ⟨done, fresh, kept, hrecords, hdone, hfresh, hkept⟩ := h
  exact ⟨done ++ [b], fresh, kept, hrecords.after_put b,
    List.forall_mem_append.2 ⟨hdone, by simpa using hb⟩, hfresh, hkept⟩

end Recording

theorem changed_rollBack [Medium] {p : Published} (h : OnRecord a r rels p) :
    Keeps (t₀.Changed files dirs a) (rollBack p) := by
  obtain ⟨done, fresh, kept, hrecords, hdone, hfresh, hkept⟩ := h
  refine (keeps_forM fun place hplace => ?_).bind fun _ => keeps_forM fun k hk => ?_
  · have hmem : ∃ b ∈ rels, place = Path.ofAddress (b ++ a) := by
      rw [hrecords.files, hrecords.created] at hplace
      simp only [List.mem_append, List.mem_map, exists_exists_and_eq_and] at hplace
      rcases hplace with ⟨b, hb, rfl⟩ | ⟨b, hb, rfl⟩
      · exact ⟨b, hdone b hb, rfl⟩
      · exact ⟨b, hfresh b hb, rfl⟩
    obtain ⟨b, hb, rfl⟩ := hmem
    obtain ⟨n, c, rfl⟩ := List.exists_cons_of_ne_nil (hp.ne_nil b hb)
    exact changed_withdraw hp hb
  · rw [hrecords.backups] at hk
    obtain ⟨b, hb, rfl⟩ := List.mem_map.1 hk
    obtain ⟨n, c, rfl⟩ := List.exists_cons_of_ne_nil (hp.ne_nil b (hkept b hb))
    exact changed_restore hp (hkept _ hb)

/-- Publishing changes the places and the drafts of its files, whether it succeeds or fails at any
file. -/
theorem changed_publishEach [Medium] (htx : tx.dir = Path.ofAddress r) {rest : List Address}
    (hrest : ∀ b ∈ rest, b ∈ rels) {p : Published} (h : OnRecord a r rels p) :
    Keeps (t₀.Changed files dirs a)
      (tx.publishEach (Path.ofAddress a) p (rest.map Path.ofRelative)) := by
  induction rest generalizing p with
  | nil => exact keeps_pure _
  | cons b rest ih =>
    intro d hd
    have hb : b ∈ rels := hrest b (by simp)
    obtain ⟨n, c, rfl⟩ := List.exists_cons_of_ne_nil (hp.ne_nil b hb)
    rw [List.map_cons, publishEach_cons (isWay_of_names hp.isName_root) (isWay_of_names hp.isName)
      htx (isWay_of_names (hp.relName _ hb)) (List.cons_ne_nil n c),
      show n :: c ++ a = n :: (c ++ a) from rfl]
    have hkeep : t₀.Changed files dirs a (((keep (Path.ofAddress (n :: (c ++ a)))
        (Path.ofAddress (n :: c ++ backupAddress r))).on d).2).tree := changed_keep hp hb d hd
    generalize (keep (Path.ofAddress (n :: (c ++ a)))
      (Path.ofAddress (n :: c ++ backupAddress r))).on d = keeping at hkeep
    obtain ⟨e | isKept, d₁⟩ := keeping
    · exact ((changed_rollBack hp h).bind fun _ => keeps_throw e) d₁ hkeep
    have h₁ := h.after_keep hb isKept
    have hput : t₀.Changed files dirs a ((put (Path.ofAddress (n :: c ++ stagingAddress r))
        (Path.ofAddress (n :: (c ++ a)))).on d₁).2.tree := changed_put hp hb _ d₁ hkeep
    dsimp only
    generalize (put (Path.ofAddress (n :: c ++ stagingAddress r))
      (Path.ofAddress (n :: (c ++ a)))).on d₁ = putting at hput ⊢
    obtain ⟨e | _, d₂⟩ := putting
    · exact ((changed_rollBack hp h₁).bind fun _ => keeps_throw e) d₂ hput
    · exact ih (fun b hb => hrest b (by simp [hb])) (h₁.after_put hb) d₂ hput

end Publish

/-! ### Publishing what was gathered -/

section Gathered

variable (h : Collects r c gathered d.tree)
  (hnames : ∀ n node, (n, node) ∈ gathered → n ∈ bundleNames ∧ ∃ content mode, node = .file content mode)

include h hnames

theorem Collects.noLinks : d.tree.NoLinksIn r := fun b target hlink => by
  rcases h.entry _ _ (List.suffix_append b r) hlink with hdir | ⟨n, hn, -⟩
  · cases hdir
  · obtain ⟨-, content, mode, hfile⟩ := hnames n _ hn
    cases hfile

theorem Collects.noLinksStaging : d.tree.NoLinksIn (stagingAddress r) := fun b target hlink =>
  h.noLinks hnames (b ++ ["staging".toList]) target (by simpa [stagingAddress] using hlink)

/-- Where something is found to publish, there is a directory. -/
theorem Collects.staging (htx : tx.dir = Path.ofAddress r) (hthere : d.isThere tx.stagingDir = true) :
    d.tree.get? (stagingAddress r) = some .directory := by
  have hr : Path.IsWay r := Tree.isWay_of_get? h.directory
  have hstagingDir : tx.stagingDir = Path.ofAddress (stagingAddress r) := by
    rw [stagingDir, htx, Path.join_ofAddress hr (by decide)]
    rfl
  rw [hstagingDir] at hthere
  have hnul : ∀ k ∈ stagingAddress r, '\x00' ∉ k :=
    List.forall_mem_cons.2 ⟨by decide, Disk.nul_not_mem_of_get? h.directory⟩
  have hplain : d.tree.Plain (stagingAddress r) :=
    Disk.plain_of_noLinksIn (c := ["staging".toList]) (h.noLinks hnames) h.directory
  obtain ⟨node, hnode⟩ := Option.ne_none_iff_exists'.1
    ((Disk.isThere_ofAddress (isWay_stagingAddress hr) hnul hplain).1 hthere)
  rcases h.entry _ node (List.suffix_cons _ r) hnode with rfl | ⟨n, hn, he⟩
  · exact hnode
  · exact absurd (List.cons.inj he).1.symm (ne_of_mem_bundleNames (hnames n node hn).1).2.1

/-- What is published are the files that were gathered in the staging directory. -/
theorem Collects.mem_gathered (hstaging : d.tree.get? (stagingAddress r) = some .directory)
    {b : Address} : b ∈ Transaction.gathered d r ↔
      ∃ n node e, (n, node) ∈ gathered ∧ b = n :: e ∧ c = e ++ stagingAddress r := by
  rw [(filesBelow_gathered hstaging (h.noLinksStaging hnames)).2.2]
  constructor
  · rintro ⟨hne, content, mode, hfile⟩
    obtain ⟨m, e, rfl⟩ := List.exists_cons_of_ne_nil hne
    rcases h.entry _ _ (suffix_staging _) hfile with hdir | ⟨n, hn, he⟩
    · cases hdir
    · obtain ⟨hm, hc⟩ := List.cons.inj (show m :: (e ++ stagingAddress r) = n :: c from he)
      exact ⟨m, _, e, hm ▸ hn, rfl, hc.symm⟩
  · rintro ⟨n, node, e, hn, rfl, rfl⟩
    obtain ⟨-, content, mode, rfl⟩ := hnames n node hn
    exact ⟨List.cons_ne_nil n e, content, mode, h.file n _ hn⟩

/-- To publish what was gathered changes the places and the drafts of the files that were gathered
in the staging directory. -/
theorem changed_publish [Medium] (hchanged : t₀.Changed files dirs a d.tree) (hin : a <:+ r)
    (htx : tx.dir = Path.ofAddress r)
    (hplace : ∀ n node e, (n, node) ∈ gathered → c = e ++ stagingAddress r →
      files (n :: (e ++ a)) ∧ files (draftName n :: (e ++ a)) ∧ ∀ x, x <:+ e ++ a → dirs x)
    (hown : ∀ x, r <:+ x → files x ∧ dirs x) (hway : ∀ x, x <:+ r → dirs x) :
    t₀.Changed files dirs a ((tx.publish (Path.ofAddress a)).on d).2.tree := by
  by_cases hthere : d.isThere tx.stagingDir = true
  · have hstaging := h.staging hnames htx hthere
    have hr : ∀ k ∈ r, ActionBundles.isName k = true := Tree.isName_of_mem h.directory
    have hp : Publishable files dirs a r (Transaction.gathered d r) := by
      refine ⟨hin, hr, fun b hb => ?_, fun b hb k hk => ?_, fun n e hb => ?_, hown, hway⟩
      · obtain ⟨n, _, e, -, rfl, -⟩ := (h.mem_gathered hnames hstaging).1 hb
        exact List.cons_ne_nil n e
      · obtain ⟨-, content, mode, hfile⟩ :=
          ((filesBelow_gathered hstaging (h.noLinksStaging hnames)).2.2 b).1 hb
        exact Tree.isName_of_mem hfile k (List.mem_append_left _ hk)
      · obtain ⟨m, node, e', hm, he, hc⟩ := (h.mem_gathered hnames hstaging).1 hb
        cases he
        exact hplace n node e hm hc
    rw [publish_on hstaging (h.noLinksStaging hnames) htx]
    have hbackup : Path.IsWay (backupAddress r) := isWay_backupAddress (isWay_of_names hr)
    have hmake : Keeps (t₀.Changed files dirs a)
        (Disk.makeDirectories (Path.ofAddress (backupAddress r))) := by
      refine Disk.changed_makeDirectories_ofAddress hbackup (hin.trans (List.suffix_cons _ r))
        fun y hy => ?_
      rcases List.suffix_cons_iff.1 hy with rfl | hs
      · exact (hown _ (List.suffix_cons _ r)).2
      · exact hway y hs
    exact ((hmake.within _).bind fun _ => changed_publishEach hp htx (fun b hb => hb)
      onRecord_nothing) d hchanged
  · rw [publish, on_bind, on_ask]
    dsimp only
    rw [if_neg hthere]
    exact hchanged

end Gathered

end Transaction

/-! ### The paths of bundles -/

theorem Layout.isAbsolute_artifact {l : Layout} (hactions : Config.isInside l.actions = true)
    (domain slug rest : Text) :
    Path.isAbsolute (l.artifact domain slug ++ rest) = false := by
  obtain ⟨hne, habs⟩ := Config.trimSlashes_ne_nil hactions
  obtain ⟨first, more, he⟩ := List.exists_cons_of_ne_nil hne
  rw [he] at habs
  rw [artifact, he]
  exact habs

namespace Project

variable {files dirs : Address → Prop} {p : Project} {l : Layout} {occasion : Occasion}
  {plan : Plan} {a r : Address} {t₀ : Tree} {d : Disk} {m : Manifest} {n name path : Text}
  {tx : Transaction}

theorem isInside_actions (hp : p.Usable) : Config.isInside p.layout.actions = true := by
  rw [hp.actions]
  exact (Config.isInside_of_check hp.config).1

/-- The steps from the directory of a transaction to where the files of a plan are gathered. -/
def Plan.gathering (plan : Plan) : List Text := ("staging" : Text) :: Path.steps plan.artifact

/-- The directory that the bundle of a plan is published to, if it is gathered in the staging
directory; nothing is published otherwise. -/
def Plan.place (plan : Plan) : Address := (Path.landing [] plan.gathering).dropLast

theorem Plan.eq_place {e : Address}
    (h : Path.landing [] plan.gathering ++ r = e ++ Transaction.stagingAddress r) :
    e = plan.place := by
  have he : Path.landing [] plan.gathering ++ r = (e ++ ["staging".toList]) ++ r := by
    rw [h, Transaction.stagingAddress]
    simp
  rw [place, List.append_cancel_right he, List.dropLast_concat]

/-- A file of the bundle of a plan is gathered in the transaction, whatever dots lead there. -/
theorem steps_gathering (hp : p.Usable) (hplan : plan.Sound p) (hr : Path.IsWay r)
    (htx : tx.dir = Path.ofAddress r) (hn : n ∈ Transaction.bundleNames) :
    let whole := Path.join tx.stagingDir (plan.artifact ++ '/' :: n)
    Path.isAbsolute whole = true ∧ Path.steps whole = r.reverse ++ (plan.gathering ++ [n]) ∧
      Path.staysBelow 0 (plan.gathering ++ [n]) = true := by
  have hstep := (Transaction.ne_of_mem_bundleNames hn).2.2.2
  have hrel : Path.isAbsolute (plan.artifact ++ '/' :: n) = false := by
    rw [hplan.artifact]
    exact Layout.isAbsolute_artifact (isInside_actions hp) _ _ _
  have hsteps : Path.steps (Path.join tx.stagingDir (plan.artifact ++ '/' :: n)) =
      r.reverse ++ (plan.gathering ++ [n]) := by
    rw [Path.steps_join_relative hrel, Transaction.stagingDir, htx,
      Path.join_ofAddress hr (by decide), Path.steps_ofAddress (hr.cons (by decide)),
      Path.steps_append_slash, Path.steps_of_isStep hstep]
    simp [Plan.gathering]
  have hleads := Layout.leadsInto_artifact hr htx (isInside_actions hp) hplan.domain hplan.slug hn
  rw [← hplan.artifact] at hleads
  obtain ⟨ms, hms, hs⟩ := hleads.steps
  rw [hsteps, List.append_cancel_left_eq] at hms
  exact ⟨hleads.isAbsolute, hsteps, hms ▸ hs⟩

/-! ### The work of a transaction -/

/-- What may come of the work of a transaction that gathers files before it does the last thing. -/
inductive GatherOutcome (P : Tree → Prop) (S : Tree → Prop) (last : Action Failure (List Text)) :
    Except Failure (List Text) × Disk → Prop
  /-- A file is not gathered. -/
  | failed (e : Failure) (d' : Disk) (h : P d'.tree) : GatherOutcome P S last (.error e, d')
  /-- All files are gathered. -/
  | gathered (d' : Disk) (h : P d'.tree) (hall : S d'.tree) : GatherOutcome P S last (last.on d')

theorem GatherOutcome.bind {P Q S : Tree → Prop} {last f : Action Failure (List Text)}
    {x : Action Failure Unit} (hx : P (x.on d).2.tree)
    (hok : ∀ d', x.on d = (.ok (), d') → Q d'.tree)
    (hf : ∀ d', P d'.tree → Q d'.tree → GatherOutcome P S last (f.on d')) :
    GatherOutcome P S last ((x >>= fun _ => f).on d) := by
  rw [on_bind]
  generalize x.on d = outcome at hx hok
  obtain ⟨e | _, d'⟩ := outcome
  · exact .failed e d' hx
  · exact hf d' hx (hok d' rfl)

/-- The directories that are made to gather a file lie on the way to the transaction or in it. -/
theorem suffix_or_suffix_of_gathering (hp : p.Usable) (hplan : plan.Sound p) (hin : a <:+ r)
    (hr : Path.IsWay r) (htx : tx.dir = Path.ofAddress r) (hn : n ∈ Transaction.bundleNames)
    {y : Address}
    (hpath : Path.steps path <+: Path.steps (Path.join tx.stagingDir (plan.artifact ++ '/' :: n)))
    (hy : Path.LandsAt a path y) : y <:+ r ∨ r <:+ y := by
  obtain ⟨-, hsteps, hs⟩ := steps_gathering hp hplan hr htx hn
  exact Path.LandsAt.suffix_or_suffix hin hr hsteps hs hpath hy

/-- The work of the transaction that publishes the bundle of a plan: the files are gathered in one
directory, and then they are published. -/
theorem gather_outcome [Medium] (hp : p.Usable) (hplan : plan.Sound p) (hin : a <:+ r)
    (hf : ∀ n ∈ Transaction.bundleNames, files (n :: (Path.landing [] plan.gathering ++ r)))
    (hd : ∀ n ∈ Transaction.bundleNames, ∀ path y,
      Path.steps path <+: Path.steps (Path.join tx.stagingDir (plan.artifact ++ '/' :: n)) →
      Path.LandsAt a path y → dirs y)
    (htx : tx.dir = Path.ofAddress r) (hchanged : t₀.Changed files dirs a d.tree)
    (h : Transaction.Collects r (Path.landing [] plan.gathering ++ r) [] d.tree)
    (last : Action Failure (List Text)) :
    GatherOutcome (t₀.Changed files dirs a)
      (Transaction.Collects r (Path.landing [] plan.gathering ++ r) plan.bundle.files) last
      ((plan.gather tx >>= fun _ => last).on d) := by
  have hr : Path.IsWay r := Tree.isWay_of_get? h.directory
  have hrc : r <:+ Path.landing [] plan.gathering ++ r := List.suffix_append _ r
  have hname : ∀ n ∈ Transaction.bundleNames, isName n = true := by
    have hall : ∀ n ∈ Transaction.bundleNames, isName n = true := by decide
    exact hall
  have hlands : ∀ n ∈ Transaction.bundleNames, Path.LandsAt a
      (Path.join tx.stagingDir (plan.artifact ++ '/' :: n))
      (n :: (Path.landing [] plan.gathering ++ r)) := fun n hn => by
    obtain ⟨habs, hsteps, hs⟩ := steps_gathering hp hplan hr htx hn
    have hlands := Path.landsAt_of_steps hin hr hsteps hs habs
    rwa [Path.landing_append,
      Path.landing_cons_isStep (Transaction.ne_of_mem_bundleNames hn).2.2.2] at hlands
  have hnew : ∀ {n : Text} {files : List (Text × Node)} (names : List Text),
      files.map Prod.fst = names → n ∉ names → ∀ node, (n, node) ∉ files :=
    fun names he hn node hmem => hn (he ▸ List.mem_map_of_mem (f := Prod.fst) hmem)
  have h₁ : Bundle.descriptorName ∈ Transaction.bundleNames := by decide
  have h₂ : Bundle.dockerfileName ∈ Transaction.bundleNames := by decide
  have h₃ : Bundle.entrypointName ∈ Transaction.bundleNames := by decide
  have h₄ : SyncRecord.fileName ∈ Transaction.bundleNames := by decide
  rw [Plan.gather]
  simp only [bind_assoc]
  refine .bind (Transaction.changed_stage (hlands _ h₁) (hd _ h₁) (hf _ h₁) d hchanged)
    (fun d' => Transaction.collects_stage (hlands _ h₁) (hd _ h₁) (hname _ h₁) hrc (by simp)
      hchanged h) fun d₁ hchanged₁ hc₁ => ?_
  refine .bind (Transaction.changed_stage (hlands _ h₂) (hd _ h₂) (hf _ h₂) d₁ hchanged₁)
    (fun d' => Transaction.collects_stage (hlands _ h₂) (hd _ h₂) (hname _ h₂) hrc
      (hnew [Bundle.descriptorName] rfl (by decide)) hchanged₁ hc₁) fun d₂ hchanged₂ hc₂ => ?_
  refine .bind (Transaction.changed_stageExecutable (hlands _ h₃) (hd _ h₃) (hf _ h₃) d₂ hchanged₂)
    (fun d' => Transaction.collects_stageExecutable (hlands _ h₃) (hd _ h₃) (hf _ h₃) (hname _ h₃) hrc
      (hnew [Bundle.descriptorName, Bundle.dockerfileName] rfl (by decide)) hchanged₂ hc₂)
    fun d₃ hchanged₃ hc₃ => ?_
  refine .bind (Transaction.changed_stage (hlands _ h₄) (hd _ h₄) (hf _ h₄) d₃ hchanged₃)
    (fun d' => Transaction.collects_stage (hlands _ h₄) (hd _ h₄) (hname _ h₄) hrc
      (hnew [Bundle.descriptorName, Bundle.dockerfileName, Bundle.entrypointName] rfl (by decide))
      hchanged₃ hc₃) fun d₄ hchanged₄ hc₄ => ?_
  exact .gathered d₄ hchanged₄ hc₄

/-! ### Whole transactions -/

/-- What may come of starting a transaction with the name `r` in a project without links. -/
inductive StartOutcome (a r : Address) (d : Disk) : Except Failure Transaction × Disk → Prop
  | failed (e : Failure) (d' : Disk)
      (h : d.tree.Changed (fun _ => False) (· <:+ transactionsAddress a) a d'.tree) :
      StartOutcome a r d (.error e, d')
  | done (d' : Disk) (tx : Transaction) (htx : tx.dir = Path.ofAddress r)
      (h : d.tree.Changed (fun _ => False) (· <:+ r) a d'.tree)
      (hdir : d'.tree.get? r = some .directory)
      (hempty : ∀ b, b ≠ [] → d'.tree.get? (b ++ r) = none)
      (hvacant : ∀ x, r <:+ x → d.tree.get? x = none) : StartOutcome a r d (.ok tx, d')

/-- Where nothing is at an address, nothing is below it. -/
theorem get?_eq_none_of_suffix {t : Tree} {x : Address} (hr : t.get? r = none) (hx : r <:+ x) :
    t.get? x = none := by
  obtain ⟨b, rfl⟩ := hx
  by_cases hb : b = []
  · subst hb
    exact hr
  · exact Tree.get?_eq_none_of_append (by simp [hr]) hb

theorem start_outcome [Medium] (hroot : d.tree.get? a = some .directory) (hno : d.tree.NoLinksIn a)
    (hname : isName name = true) :
    StartOutcome a (name :: transactionsAddress a) d
      ((Transaction.start (Path.ofAddress (transactionsAddress a)) name).on d) := by
  have hway : Path.IsWay (transactionsAddress a) :=
    (isWay_bridgeAddress (Tree.isWay_of_get? hroot)).cons (by decide)
  have hmake : d.tree.Changed (fun _ => False) (· <:+ transactionsAddress a) a
      ((Disk.makeDirectories (Path.ofAddress (transactionsAddress a))).on d).2.tree :=
    Disk.changed_makeDirectories_ofAddress hway (suffix_transactionsAddress a) (fun _ hy => hy) d
      (.refl hroot hno)
  rw [Transaction.start, Path.join_ofAddress hway (isStep_of_isName hname), on_bind, on_within]
  generalize (Disk.makeDirectories (Path.ofAddress (transactionsAddress a))).on d = made at hmake
  obtain ⟨e | _, d₁⟩ := made
  · exact .failed _ d₁ hmake
  dsimp only [Except.mapError] at hmake ⊢
  rw [on_bind, on_within, Disk.makeDirectory_on_place]
  cases hplace : d₁.place (Path.ofAddress (name :: transactionsAddress a)) with
  | error e => exact .failed _ d₁ hmake
  | ok spot =>
    have hlands : Path.LandsAt a (Path.ofAddress (name :: transactionsAddress a))
        (name :: transactionsAddress a) :=
      Path.landsAt_ofAddress (hway.cons (isStep_of_isName hname))
        ((suffix_transactionsAddress a).trans (List.suffix_cons _ _))
    have haddress := Disk.address_of_place_lands hmake.root hmake.noLinks hlands hplace
    obtain hholds := Disk.place_holds (Path.isAbsolute_ofAddress _) hplace
    cases spot with
    | entry b node => exact .failed _ d₁ hmake
    | vacant dir n =>
      cases haddress
      obtain ⟨hdir, hnone⟩ := hholds
      have hget := Tree.get?_set_of_directory hdir hname (.inl rfl : Node.directory = .directory ∨ _)
      dsimp only
      rw [Disk.add_on]
      by_cases hadds : Medium.adds d₁.tree (name :: transactionsAddress a) = true
      · rw [if_pos hadds]
        refine .done _ _ rfl ?_ ((hget _).trans (if_pos rfl)) (fun b hb => ?_) fun x hx => ?_
        · exact (hmake.mono (fun _ h => h) fun x hx =>
            hx.trans (List.suffix_cons _ _)).makeDirectory hnone (List.suffix_refl _)
        · show (d₁.tree.set name (transactionsAddress a) .directory).get? _ = none
          rw [hget,
            if_neg fun he => hb (List.append_cancel_right (he.trans (List.nil_append _).symm))]
          exact get?_eq_none_of_suffix hnone (List.suffix_append _ _)
        · have hr : d.tree.get? (name :: transactionsAddress a) = none := by
            cases hbefore : d.tree.get? (name :: transactionsAddress a) with
            | none => rfl
            | some node =>
              cases (hmake.kept _ node hbefore (.inr id)).symm.trans hnone
          exact get?_eq_none_of_suffix hr hx
      · rw [if_neg hadds]
        exact .failed _ d₁ hmake

/-- The files of a bundle at `c` below `a`, and their drafts. -/
def BundleFiles (a c x : Address) : Prop :=
  ∃ n ∈ Transaction.bundleNames, x = n :: (c ++ a) ∨ x = Transaction.draftName n :: (c ++ a)

/-- The directories that lead to the transactions of the project at `a` and to `c`. -/
def Ways (a c x : Address) : Prop := x <:+ transactionsAddress a ∨ x <:+ c ++ a

/-- To publish what was gathered for a plan changes the files of its bundle and their drafts. -/
theorem changed_published [Medium]
    (h : t₀.Changed (fun x => r <:+ x ∨ BundleFiles a plan.place x)
      (fun x => r <:+ x ∨ Ways a plan.place x) a d.tree)
    (hin : a <:+ r) (htx : tx.dir = Path.ofAddress r)
    (hways : ∀ x, x <:+ r → r <:+ x ∨ Ways a plan.place x)
    (hcollects : Transaction.Collects r (Path.landing [] plan.gathering ++ r) plan.bundle.files
      d.tree) :
    t₀.Changed (fun x => r <:+ x ∨ BundleFiles a plan.place x)
      (fun x => r <:+ x ∨ Ways a plan.place x) a ((tx.publish (Path.ofAddress a)).on d).2.tree := by
  refine Transaction.changed_publish hcollects
    (fun n node hn => Bundle.mem_bundleNames_of_mem_files hn) h hin htx
    (fun n node e hn he => ?_) (fun x hx => ⟨.inl hx, .inl hx⟩) hways
  obtain rfl := Plan.eq_place he
  have hmem := (Bundle.mem_bundleNames_of_mem_files hn).1
  exact ⟨.inr ⟨n, hmem, .inl rfl⟩, .inr ⟨n, hmem, .inr rfl⟩, fun x hx => .inr (.inr hx)⟩

/-- Publishing the bundle of a plan changes its files and their drafts, and makes directories for
it. -/
theorem changed_publish [Medium] (hp : p.Usable) (hl : p.layout.root = Path.ofAddress a)
    (hname : isName occasion.transactionName = true) (hplan : plan.Sound p)
    (hroot : d.tree.get? a = some .directory) (hno : d.tree.NoLinksIn a) :
    d.tree.Changed (BundleFiles a plan.place) (Ways a plan.place) a
      ((publish p.layout occasion plan).on d).2.tree := by
  have ha := Tree.isWay_of_get? hroot
  rw [publish_eq, transactionsDir_eq ha hl, Transaction.run_on]
  have hstarted := start_outcome (a := a) hroot hno hname
  generalize (Transaction.start (Path.ofAddress (transactionsAddress a))
    occasion.transactionName).on d = started at hstarted
  cases hstarted with
  | failed e d₁ h => exact h.mono (fun _ hf => hf.elim) fun _ hd => .inl hd
  | done d₁ tx htx h hdir hempty hvacant =>
    have hin : a <:+ occasion.transactionName :: transactionsAddress a :=
      (suffix_transactionsAddress a).trans (List.suffix_cons _ _)
    have hways : ∀ x, x <:+ occasion.transactionName :: transactionsAddress a →
        occasion.transactionName :: transactionsAddress a <:+ x ∨ Ways a plan.place x := fun x hx => by
      rcases List.suffix_cons_iff.1 hx with rfl | hx
      · exact .inl (List.suffix_refl _)
      · exact .inr (.inl hx)
    -- while the transaction is under way, anything may happen in its own directory
    have hworked : GatherOutcome (d₁.tree.Changed
        (fun x => occasion.transactionName :: transactionsAddress a <:+ x ∨ BundleFiles a plan.place x)
        (fun x => occasion.transactionName :: transactionsAddress a <:+ x ∨ Ways a plan.place x) a) _ _ _ :=
      gather_outcome hp hplan hin
        (fun n _ => .inl ((List.suffix_append _ _).trans (List.suffix_cons n _)))
        (fun n hn path y hpath hy =>
          (suffix_or_suffix_of_gathering hp hplan hin (Tree.isWay_of_get? hdir) htx hn hpath hy).elim
            (hways y) .inl)
        htx (.refl h.root h.noLinks) (Transaction.collects_nothing _ hdir hempty)
        ((tx.publish p.layout.root).during (.publishBundle plan.artifact))
    dsimp only
    generalize Action.on _ d₁ = worked at hworked ⊢
    have hafter : d₁.tree.Changed
        (fun x => occasion.transactionName :: transactionsAddress a <:+ x ∨ BundleFiles a plan.place x)
        (fun x => occasion.transactionName :: transactionsAddress a <:+ x ∨ Ways a plan.place x) a
        worked.2.tree := by
      cases hworked with
      | failed e d₂ h₂ => exact h₂
      | gathered d₂ h₂ hcollects =>
        rw [on_during, hl]
        exact changed_published h₂ hin htx hways hcollects
    have hown := hafter.directory hdir
    rw [Transaction.close_on htx hown]
    refine ((h.mono (fun _ hf => hf.elim) hways).trans hafter).removeOwn hvacant fun hs => ?_
    have hlength := hs.length_le
    simp only [transactionsAddress, bridgeAddress, List.length_cons] at hlength
    omega

/-! ### The manifest and its lock -/

theorem lands_bridge (ha : Path.IsWay a) (hn : Path.isStep n = true) :
    Path.LandsAt a (Path.ofAddress (n :: bridgeAddress a)) (n :: bridgeAddress a) :=
  Path.landsAt_ofAddress ((isWay_bridgeAddress ha).cons hn)
    ((suffix_bridgeAddress a).trans (List.suffix_cons _ _))

theorem changed_save [Medium] (hl : l.root = Path.ofAddress a) (ha : Path.IsWay a)
    (hmanifest : files (manifestAddress a)) (hdraft : files (draftAddress a))
    (hd : ∀ y, y <:+ bridgeAddress a → dirs y) :
    Keeps (t₀.Changed files dirs a) (m.save l) := by
  have hlands : Path.LandsAt a (Path.ofAddress (draftAddress a)) (draftAddress a) :=
    lands_bridge ha (by decide)
  rw [save_eq ha hl]
  refine ((Disk.changed_makeDirectories_ofAddress (isWay_bridgeAddress ha)
    (suffix_bridgeAddress a) hd).within _).bind fun _ => Keeps.bind ?_ fun _ => ?_
  · exact (Disk.changed_put hlands hdraft _ none).within _
  · exact (Disk.changed_move hlands hdraft (lands_bridge ha (by decide)) hmanifest).within _

theorem changed_lock [Medium] (hl : l.root = Path.ofAddress a) (ha : Path.IsWay a)
    (hlock : files (lockAddress a)) (hd : ∀ y, y <:+ bridgeAddress a → dirs y) :
    Keeps (t₀.Changed files dirs a) (Manifest.lock l) := by
  rw [Manifest.lock, bridgeDir_eq ha hl, Layout.lockPath, join_bridgeDir ha hl (by decide)]
  exact ((Disk.changed_makeDirectories_ofAddress (isWay_bridgeAddress ha)
    (suffix_bridgeAddress a) hd).within _).bind fun _ =>
      (Disk.changed_touch (lands_bridge ha (by decide)) hlock).within _

/-! ### Generating -/

/-- The files that generating an action may change: those of its bundle at `c`, the manifest, and
their drafts. -/
def Reach (a c x : Address) : Prop :=
  x = manifestAddress a ∨ x = draftAddress a ∨ BundleFiles a c x

/-- **How far generating an action reaches**, whatever comes of it. -/
theorem changed_generate [Medium] (hp : p.Usable) (hl : p.layout.root = Path.ofAddress a)
    (hname : isName occasion.transactionName = true) (hroot : d.tree.get? a = some .directory)
    (hno : d.tree.NoLinksIn a) :
    ∃ c, (∀ plan, p.plan occasion path d = .ok plan → c = plan.place) ∧
      d.tree.Changed (Reach a c) (Ways a c) a ((p.generate occasion m path).on d).2.tree := by
  have hsave : ∀ {c} (m : Manifest), Keeps (d.tree.Changed (Reach a c) (Ways a c) a)
      (m.save p.layout) := fun m =>
    changed_save hl (Tree.isWay_of_get? hroot) (.inl rfl) (.inr (.inl rfl)) fun y hy =>
      .inl (hy.trans (List.suffix_cons _ _))
  have hpublish : ∀ plan, p.plan occasion path d = .ok plan →
      d.tree.Changed (Reach a plan.place) (Ways a plan.place) a
        ((publish p.layout occasion plan).on d).2.tree := fun plan hplan =>
    (changed_publish hp hl hname (sound_of_plan hp hplan) hroot hno).mono
      (fun _ hx => .inr (.inr hx)) fun _ h => h
  cases hplan : p.plan occasion path d with
  | error e =>
    exact ⟨[], fun _ h => (by cases h), holds_of_generate (.refl hroot hno)
      (fun _ h => by cases hplan.symm.trans h) fun _ _ _ => hsave _⟩
  | ok plan =>
    exact ⟨plan.place, fun _ h => (by cases h; rfl), holds_of_generate (.refl hroot hno)
      (fun plan' h => by cases hplan.symm.trans h; exact hpublish plan hplan) fun _ _ _ => hsave _⟩

end Project

end ActionBundles
