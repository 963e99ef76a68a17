import ActionBundles.Proofs.FileOrder
import ActionBundles.Proofs.Settlement

/-!
# Trees after publishing

Files are published one after another, and each step works in the tree that others live in: a file
that is in the place is moved away, directories are made, and a draft is written beside the place and
renamed. Still, when all of it has succeeded and the transaction is closed, the tree is the one
before with what was gathered put into its places, and nothing else (`Transaction.published_tree`).
The exceptions are the entries with the name of a draft beside a place, which may be gone.

What is known of the tree in between is `Transaction.Advances`. It speaks of all places from the
beginning, of those that are still empty as well: where an entry stands that was not there before,
or does not stand that was, there is a place, a directory of a place or a draft.
-/

namespace ActionBundles

namespace Transaction

open ActionBundles.Action

variable {t t' t₀ : Tree} {d d' : Disk} {a r b c x : Address} {tx : Transaction}
  {rels done kept fresh kept₁ fresh₁ : List Address} {n : Text} {files : List Text}

/-! ### Entries that publishing has to do with -/

/-- A place that one of the files is published in. -/
def IsPlace (a : Address) (rels : List Address) (x : Address) : Prop := ∃ b ∈ rels, x = b ++ a

/-- Where the draft of one of the files is written, beside its place. -/
def IsDraft (a : Address) (rels : List Address) (x : Address) : Prop :=
  ∃ n c, n :: c ∈ rels ∧ x = draftName n :: (c ++ a)

/-- A directory on the way to one of the places. -/
def IsAbove (a : Address) (rels : List Address) (x : Address) : Prop :=
  ∃ n c, n :: c ∈ rels ∧ x <:+ c ++ a

/-- What is known of the tree when the files of `done` have been published: they are in their places,
of what was there nothing is gone but what stood in a place or was a draft, and nothing is new but
places and directories above them. -/
structure Advances (t₀ : Tree) (a r : Address) (rels done : List Address) (t : Tree) : Prop where
  own : t.get? r = some .directory
  file : ∀ b ∈ done, t.get? (b ++ a) = t₀.get? (b ++ stagingAddress r)
  kept : ∀ x node, ¬ r <:+ x → ¬ IsPlace a rels x → ¬ IsDraft a rels x →
    t₀.get? x = some node → t.get? x = some node
  new : ∀ x node, ¬ r <:+ x → t.get? x = some node →
    t₀.get? x = some node ∨ IsPlace a rels x ∨ node = .directory ∧ IsAbove a rels x

theorem advances_nothing (hsame : ∀ x, ¬ r <:+ x → t.get? x = t₀.get? x)
    (hown : t.get? r = some .directory) : Advances t₀ a r rels [] t where
  own := hown
  file b hb := by cases hb
  kept x node hx _ _ hnode := (hsame x hx).trans hnode
  new x node hx hnode := .inl ((hsame x hx).symm.trans hnode)

/-- Keeping the file of a place takes away what stood there and nothing else. -/
theorem Advances.keeping (h : Advances t₀ a r rels done t)
    (hk : Keeping a r b kept fresh t kept₁ fresh₁ t') (hb : b ∈ rels) (hnew : b ∉ done)
    (hapart : ∀ b ∈ done, ¬ r <:+ b ++ a) : Advances t₀ a r rels done t' := by
  cases hk with
  | absent _ => exact h
  | kept _ hfile hsaved houtside _ =>
    obtain ⟨content, mode, hfile⟩ := hfile
    have hbelow : r ≠ b ++ backupAddress r := fun he => by
      have := congrArg List.length he
      simp only [backupAddress, List.length_append, List.length_cons] at this
      omega
    refine ⟨Tree.get?_of_suffix (hsaved.trans hfile) (suffix_backup b) hbelow, fun b' hb' => ?_,
      fun x node hx hplace hdraft hnode => ?_, fun x node hx hnode => ?_⟩
    · have hother : b' ++ a ≠ b ++ a := fun he => by
        rw [List.append_cancel_right he] at hb'
        exact hnew hb'
      rw [houtside _ (hapart b' hb'), if_neg hother]
      exact h.file b' hb'
    · rw [houtside x hx, if_neg fun he => hplace ⟨b, hb, he⟩]
      exact h.kept x node hx hplace hdraft hnode
    · rw [houtside x hx] at hnode
      split at hnode
      · cases hnode
      · exact h.new x node hx hnode

/-- Putting a file into its place adds it there, and directories above it. -/
theorem Advances.put {file : Node} {d₂ : Disk} (h : Advances t₀ a r rels done d.tree)
    (hb : n :: c ∈ rels) (hapart : ¬ r <:+ n :: c ++ a) (hway : ∀ b ∈ done, ¬ b <:+ c)
    (hdraft : draftName n :: c ∉ done)
    (hsource : t₀.get? (n :: (c ++ stagingAddress r)) = some file)
    (ho : PutOutcome d n (c ++ a) file (.ok (), d₂)) :
    Advances t₀ a r rels (done ++ [n :: c]) d₂.tree := by
  cases ho with
  | done _ hclear _ _ hfree hget =>
  refine ⟨?_, fun b hmem => ?_, fun x node hx hplace hisDraft hnode => ?_,
    fun x node hx hnode => ?_⟩
  · have hplace : r ≠ n :: (c ++ a) := fun he => hapart (he ▸ List.suffix_refl _)
    have hfree' : r ≠ draftName n :: (c ++ a) := fun he => by
      rw [← he, HasFile, h.own] at hfree
      simp at hfree
    rw [hget, if_neg hplace, if_neg hfree', h.own, ite_self]
  · by_cases hsame : b = n :: c
    · rw [hsame]
      exact (hget _).trans ((if_pos rfl).trans hsource.symm)
    have hmem' : b ∈ done := (List.mem_append.1 hmem).resolve_right fun hlast =>
      hsame (List.mem_singleton.1 hlast)
    have hplace : b ++ a ≠ n :: (c ++ a) := fun he =>
      hsame (List.append_cancel_right (show b ++ a = n :: c ++ a from he))
    have hbeside : b ++ a ≠ draftName n :: (c ++ a) := fun he => hdraft <|
      List.append_cancel_right (show b ++ a = draftName n :: c ++ a from he) ▸ hmem'
    have hnotAbove : ¬ b ++ a <:+ c ++ a := by
      rintro ⟨e, he⟩
      rw [← List.append_assoc] at he
      exact hway b hmem' ⟨e, List.append_cancel_right he⟩
    rw [hget, if_neg hplace, if_neg hbeside, if_neg hnotAbove]
    exact h.file b hmem'
  · have hbefore := h.kept x node hx hplace hisDraft hnode
    have hne : x ≠ n :: (c ++ a) := fun he => hplace ⟨n :: c, hb, he⟩
    have hbeside : x ≠ draftName n :: (c ++ a) := fun he => hisDraft ⟨n, c, hb, he⟩
    rw [hget, if_neg hne, if_neg hbeside]
    split
    · next habove =>
      -- the way to the place was clear, so what stands there is a directory
      rcases hclear x habove with hnone | hdirectory
      · cases hnone.symm.trans hbefore
      · exact hdirectory.symm.trans hbefore
    · exact hbefore
  · rw [hget] at hnode
    split at hnode
    · next he => exact .inr (.inl ⟨n :: c, hb, he⟩)
    split at hnode
    · cases hnode
    split at hnode
    · next habove => exact .inr (.inr ⟨(Option.some.inj hnode).symm, n, c, hb, habove⟩)
    · exact h.new x node hx hnode

/-! ### The list that is returned -/

/-- A failure is passed on after everything was undone. -/
theorem rollBack_throw_ne_ok (p : Published) (e : Failure) (d : Disk) :
    ((rollBack p >>= fun _ => throw e : Action Failure (List Text)).on d).1 ≠ .ok files := by
  rw [on_bind]
  rcases (rollBack p).on d with ⟨_ | _, d'⟩ <;> simp

/-- Publishing files one after another returns their places. -/
theorem files_of_publishEach {root : Text} {p : Published} {paths : List Text}
    (h : (tx.publishEach root p paths).on d = (.ok files, d')) :
    files = p.files ++ paths.map (Path.join root) := by
  induction paths generalizing p d with
  | nil =>
    cases h
    simp
  | cons path paths ih =>
    rw [publishEach, on_bind_attempt] at h
    generalize (keep (Path.join root path) (Path.join tx.backupDir path)).on d = outcome at h
    obtain ⟨e | isKept, d₁⟩ := outcome
    · exact absurd (congrArg Prod.fst h) (rollBack_throw_ne_ok p e d₁)
    change Action.on (_ >>= _) d₁ = _ at h
    rw [on_bind_attempt] at h
    generalize (put (Path.join tx.stagingDir path) (Path.join root path)).on d₁ = outcome at h
    obtain ⟨e | _, d₂⟩ := outcome
    · exact absurd (congrArg Prod.fst h) (rollBack_throw_ne_ok _ e d₂)
    · rw [ih h, List.map_cons]
      cases isKept <;> simp

/-! ### Transactions that may be published -/

/-- A file that the transaction at `r` has gathered, by its way from where it is gathered. -/
def IsStaged (d : Disk) (r b : Address) : Prop := b ≠ [] ∧ HasFile d.tree (b ++ stagingAddress r)

/-- The transaction at `r` has kept nothing yet, no link is where its files are gathered, on the way
to `a` or below it, and it has gathered no file whose place is in the transaction, and none with the
name of the draft of another one beside it. It may have gathered nothing at all. -/
structure Prepared (d : Disk) (a r : Address) : Prop where
  ne_root : r ≠ []
  own : d.tree.get? r = some .directory
  staging : d.tree.get? (stagingAddress r) = none ∨
    d.tree.get? (stagingAddress r) = some .directory
  noLinks : d.tree.NoLinksIn (stagingAddress r)
  backup : d.tree.get? (backupAddress r) = none
  names : ∀ k ∈ a, isName k = true
  plain : d.tree.Plain a
  target : d.tree.NoLinksIn a
  apart : ∀ b, IsStaged d r b → ¬ r <:+ b ++ a
  draft : ∀ n c, IsStaged d r (n :: c) → ¬ IsStaged d r (draftName n :: c)

namespace Prepared

theorem isThere_staging (h : Prepared d a r) (hnone : d.tree.get? (stagingAddress r) = none) :
    d.isThere (Path.ofAddress (stagingAddress r)) = false := by
  have hr : Path.IsWay r := Tree.isWay_of_get? h.own
  have hplain : d.tree.Plain (stagingAddress r) := fun x hx target hlink => by
    rcases List.suffix_cons_iff.1 hx with rfl | hx
    · cases hnone.symm.trans hlink
    · cases (Tree.directory_of_suffix h.own hx).symm.trans hlink
  have hnul : ∀ k ∈ stagingAddress r, '\x00' ∉ k :=
    List.forall_mem_cons.2 ⟨by decide, Disk.nul_not_mem_of_get? h.own⟩
  rw [Bool.eq_false_iff]
  exact fun hthere => (Disk.isThere_ofAddress (isWay_stagingAddress hr) hnul hplain).1 hthere hnone

theorem gathered_nothing (h : Prepared d a r)
    (hnone : d.tree.get? (stagingAddress r) = none) : gathered d r = [] := by
  rw [gathered, Disk.filesBelow, h.isThere_staging hnone]
  rfl

/-- Where nothing was gathered there is nothing to publish. -/
theorem publish_nothing (h : Prepared d a r) (htx : tx.dir = Path.ofAddress r)
    (hnone : d.tree.get? (stagingAddress r) = none) (root : Text) :
    (tx.publish root).on d = (.ok [], d) := by
  have hdir : tx.stagingDir = Path.ofAddress (stagingAddress r) := by
    rw [stagingDir, htx, Path.join_ofAddress (Tree.isWay_of_get? h.own) (by decide)]
    rfl
  rw [publish, on_bind, on_ask, hdir, h.isThere_staging hnone]
  rfl

theorem mem_gathered (h : Prepared d a r) : b ∈ gathered d r ↔ IsStaged d r b := by
  rcases h.staging with hnone | hdirectory
  · rw [h.gathered_nothing hnone]
    refine iff_of_false List.not_mem_nil ?_
    rintro ⟨hne, content, mode, hfile⟩
    cases (Tree.get?_eq_none_of_append (by simp [hnone]) hne).symm.trans hfile
  · exact (filesBelow_gathered hdirectory h.noLinks).2.2 b

theorem gathered (h : Prepared d a r)
    (hdirectory : d.tree.get? (stagingAddress r) = some .directory) : Gathered d a r where
  staging := hdirectory
  noLinks := h.noLinks
  backup := h.backup
  names := h.names
  apart b hb := h.apart b (h.mem_gathered.1 hb)
  plain b _ x hx target := by
    rcases List.suffix_or_suffix_of_suffix hx (List.suffix_append b a) with hx | ⟨e, rfl⟩
    · exact h.plain x hx target
    · exact h.target e target
  draft n c _ target := h.target (draftName n :: c) target

/-- The files are gathered in the order of their ways. -/
theorem pairwise_gathered (h : Prepared d a r) : (Transaction.gathered d r).Pairwise fun b b' =>
    compare b.reverse b'.reverse = .lt := by
  rcases h.staging with hnone | hdirectory
  · rw [h.gathered_nothing hnone]
    exact .nil
  · obtain ⟨hfiles, -, hmem⟩ := filesBelow_gathered hdirectory h.noLinks
    have hsteps : ∀ b ∈ Transaction.gathered d r,
        Path.steps (Path.ofAddress (b ++ stagingAddress r)) =
          (stagingAddress r).reverse ++ b.reverse := fun b hb => by
      obtain ⟨-, content, mode, hfile⟩ := (hmem b).1 hb
      rw [Path.steps_ofAddress (Tree.isWay_of_get? hfile), List.reverse_append]
    obtain ⟨depth, hwithin⟩ := Disk.exists_filesWithin hfiles
    have horder := Disk.pairwise_filesWithin (d := d) depth (Path.ofAddress (stagingAddress r))
    rw [← hwithin, List.pairwise_map] at horder
    refine horder.imp_of_mem fun {b b'} hb hb' hprecedes => ?_
    rwa [Path.Precedes, hsteps b hb, hsteps b' hb', Path.compare_append] at hprecedes

/-- **Publishing one file after another** gets to the end with all that is known in between. -/
theorem advances {d₁ : Disk} (h : Prepared d a r) (htx : tx.dir = Path.ofAddress r)
    (hpublish : (tx.publish (Path.ofAddress a)).on d = (.ok files, d₁)) :
    Advances d.tree a r (Transaction.gathered d r) (Transaction.gathered d r) d₁.tree := by
  rcases h.staging with hnone | hdirectory
  · cases hpublish.symm.trans (h.publish_nothing htx hnone (Path.ofAddress a))
    rw [h.gathered_nothing hnone]
    exact advances_nothing (fun _ _ => rfl) h.own
  · have hgathered := h.gathered hdirectory
    refine holds_of_publish (Advances d.tree a r (Transaction.gathered d r)) htx hgathered ⟨?_, ?_⟩
      (fun _ => advances_nothing) hpublish
    · intro _ _ _ _ _ _ _ _ hdone hb hnew hk hadvances
      exact hadvances.keeping hk hb hnew fun b hb => hgathered.apart b (hdone b hb)
    · intro _ n c _ _ _ hdone hb hsource ho hadvances
      refine hadvances.put hb (hgathered.apart _ hb)
        (fun b hb' => hgathered.not_suffix hb (hdone b hb')) (fun hmem => ?_) hsource ho
      exact h.draft n c (h.mem_gathered.1 hb) (h.mem_gathered.1 (hdone _ hmem))

theorem files_eq {d₁ : Disk} (h : Prepared d a r) (htx : tx.dir = Path.ofAddress r)
    (hpublish : (tx.publish (Path.ofAddress a)).on d = (.ok files, d₁)) :
    files = (Transaction.gathered d r).map fun b => Path.ofAddress (b ++ a) := by
  rcases h.staging with hnone | hdirectory
  · cases hpublish.symm.trans (h.publish_nothing htx hnone (Path.ofAddress a))
    rw [h.gathered_nothing hnone]
    rfl
  · obtain ⟨d₂, hd₂, -⟩ := (h.gathered hdirectory).makeBackup_on
    rw [publish_on hdirectory h.noLinks htx, on_bind_ok hd₂] at hpublish
    rw [files_of_publishEach hpublish, List.nil_append, List.map_map]
    refine List.map_congr_left fun b hb => ?_
    obtain ⟨hne, content, mode, hfile⟩ := h.mem_gathered.1 hb
    exact Path.join_ofRelative (isWay_of_names h.names)
      (fun k hk => Tree.isWay_of_get? hfile k (List.mem_append_left _ hk)) hne

/-- The places are returned in the order of their steps. -/
theorem pairwise_places (h : Prepared d a r) :
    ((Transaction.gathered d r).map fun b => Path.ofAddress (b ++ a)).Pairwise Path.Precedes := by
  refine List.pairwise_map.2 (h.pairwise_gathered.imp_of_mem fun {b b'} hb hb' horder => ?_)
  have hsteps : ∀ b ∈ Transaction.gathered d r,
      Path.steps (Path.ofAddress (b ++ a)) = a.reverse ++ b.reverse := fun b hb => by
    obtain ⟨-, content, mode, hfile⟩ := h.mem_gathered.1 hb
    have hway : Path.IsWay (b ++ a) := List.forall_mem_append.2
      ⟨fun k hk => Tree.isWay_of_get? hfile k (List.mem_append_left _ hk), isWay_of_names h.names⟩
    rw [Path.steps_ofAddress hway, List.reverse_append]
  rw [Path.Precedes, hsteps b hb, hsteps b' hb', Path.compare_append]
  exact horder

end Prepared

/-- **A transaction that succeeds does exactly what was gathered.** After publishing and closing,
every file that was gathered is in its place with its content and its mode, and the places are
returned in the order of their steps; the directory of the transaction is gone; every other entry
stays as it is, unless it has the name of a draft beside a place; and nothing is new but the files
and the directories above them. -/
theorem published_tree {d₁ : Disk} (htx : tx.dir = Path.ofAddress r) (h : Prepared d a r)
    (hpublish : (tx.publish (Path.ofAddress a)).on d = (.ok files, d₁)) :
    ∃ rels d', tx.close.on d₁ = (.ok (), d') ∧ (∀ b, b ∈ rels ↔ IsStaged d r b) ∧
      files = rels.map (fun b => Path.ofAddress (b ++ a)) ∧ files.Pairwise Path.Precedes ∧
      (∀ b, IsStaged d r b → d'.tree.get? (b ++ a) = d.tree.get? (b ++ stagingAddress r)) ∧
      (∀ x, r <:+ x → d'.tree.get? x = none) ∧
      (∀ x node, ¬ r <:+ x → ¬ IsPlace a rels x → ¬ IsDraft a rels x →
        d.tree.get? x = some node → d'.tree.get? x = some node) ∧
      (∀ x node, d'.tree.get? x = some node →
        d.tree.get? x = some node ∨ IsPlace a rels x ∨ node = .directory ∧ IsAbove a rels x) := by
  have hadvances := h.advances htx hpublish
  have hfiles := h.files_eq htx hpublish
  have hout (x : Address) (hx : ¬ r <:+ x) : (d₁.tree.prune r).get? x = d₁.tree.get? x :=
    Tree.get?_prune_of_not_suffix hx
  have hin (x : Address) (hx : r <:+ x) : (d₁.tree.prune r).get? x = none := by
    rw [Tree.get?_prune, if_pos ⟨fun hnil => h.ne_root (List.suffix_nil.1 (hnil ▸ hx)), hx⟩]
  refine ⟨gathered d r, { d₁ with tree := d₁.tree.prune r }, close_on htx hadvances.own,
    fun b => h.mem_gathered, hfiles, hfiles ▸ h.pairwise_places, fun b hb => ?_, hin,
    fun x node hx hplace hdraft hnode => ?_, fun x node hnode => ?_⟩
  · exact (hout _ (h.apart b hb)).trans (hadvances.file b (h.mem_gathered.2 hb))
  · exact (hout x hx).trans (hadvances.kept x node hx hplace hdraft hnode)
  · by_cases hx : r <:+ x
    · cases (hin x hx).symm.trans hnode
    · exact hadvances.new x node hx ((hout x hx).symm.trans hnode)

/-! ### A transaction that succeeds -/

/-- A disk on which a transaction `/t` has gathered a file `h`, which can be executed, and a file `k`
in a directory `s` for `/p`, where there is another `h` and no `s`. -/
def sampleGathering : Disk where
  tree := (((((((Tree.empty.set "p" [] .directory).set "h" ["p"] (.file [1] false)).set "t" []
    .directory).set "staging" ["t"] .directory).set "h" ["staging", "t"] (.file [2] true)).set "s"
    ["staging", "t"] .directory).set "k" ["s", "staging", "t"] (.file [3] false))

theorem gathered_sampleGathering :
    gathered sampleGathering ["t".toList] = [["h".toList], ["k".toList, "s".toList]] := by
  decide +kernel

theorem prepared_sampleGathering : Prepared sampleGathering ["p".toList] ["t".toList] := by
  have hno : ∀ x target, sampleGathering.tree.get? x ≠ some (.link target) := by
    refine Tree.noLinks_set (Tree.noLinks_set (Tree.noLinks_set (Tree.noLinks_set (Tree.noLinks_set
      (Tree.noLinks_set (Tree.noLinks_set Tree.noLinks_empty ?_) ?_) ?_) ?_) ?_) ?_) ?_ <;> simp
  have hstaging : sampleGathering.tree.get? (stagingAddress ["t".toList]) = some .directory := by
    decide
  have hmem (b : Address) : b ∈ [["h".toList], ["k".toList, "s".toList]] ↔
      IsStaged sampleGathering ["t".toList] b := by
    rw [← gathered_sampleGathering]
    exact (filesBelow_gathered hstaging fun _ => hno _).2.2 b
  have hapart : ∀ b ∈ [["h".toList], ["k".toList, "s".toList]],
      ¬ ["t".toList] <:+ b ++ ["p".toList] := by decide
  have hdraft : ∀ b ∈ [["h".toList], ["k".toList, "s".toList]],
      ∀ b' ∈ [["h".toList], ["k".toList, "s".toList]], b'.head? ≠ b.head?.map draftName := by decide
  exact ⟨by decide, by decide, .inr hstaging, fun _ => hno _, by decide, by decide,
    fun x _ => hno x, fun _ => hno _, fun b hb => hapart b ((hmem b).2 hb),
    fun n c hb hb' => hdraft _ ((hmem _).2 hb) _ ((hmem _).2 hb') rfl⟩

theorem published_tree_sampleGathering :
    ∃ files d₁ d', ((⟨Path.ofAddress ["t".toList]⟩ : Transaction).publish
        (Path.ofAddress ["p".toList])).on sampleGathering = (.ok files, d₁) ∧
      (⟨Path.ofAddress ["t".toList]⟩ : Transaction).close.on d₁ = (.ok (), d') ∧
      d'.tree.get? ["h".toList, "p".toList] = some (.file [2] true) ∧
      d'.tree.get? ["k".toList, "s".toList, "p".toList] = some (.file [3] false) ∧
      d'.tree.get? ["t".toList] = none := by
  have hsucceeds : (((⟨Path.ofAddress ["t".toList]⟩ : Transaction).publish
      (Path.ofAddress ["p".toList])).on sampleGathering).1.isOk = true := by decide +kernel
  generalize hrun : ((⟨Path.ofAddress ["t".toList]⟩ : Transaction).publish
    (Path.ofAddress ["p".toList])).on sampleGathering = run at hsucceeds
  obtain ⟨e | files, d₁⟩ := run
  · cases hsucceeds
  obtain ⟨rels, d', hclose, hrels, -, -, hfile, hgone, -⟩ :=
    published_tree rfl prepared_sampleGathering hrun
  have hstaged : ∀ b ∈ [["h".toList], ["k".toList, "s".toList]],
      IsStaged sampleGathering ["t".toList] b := fun b hb =>
    prepared_sampleGathering.mem_gathered.1 (gathered_sampleGathering ▸ hb)
  refine ⟨files, d₁, d', rfl, hclose, ?_, ?_, hgone _ (List.suffix_refl _)⟩
  · exact (hfile _ (hstaged ["h".toList] (by simp))).trans (by decide)
  · exact (hfile _ (hstaged ["k".toList, "s".toList] (by simp))).trans (by decide)

end Transaction

end ActionBundles
