import ActionBundles.Proofs.Recording

/-!
# Bundles and manifest change together

A transaction that fails to publish may leave directories behind, but as long as no file stands
under the name of a draft and no directory in the place of a file, it leaves every file as it was,
and when it succeeds all its files are in their places (`Transaction.publish_files`). So generating
an action either changes no file outside the program's own directory and not the manifest, or it
leaves both the bundle and its record (`Project.bundle_and_manifest_together`).
-/

namespace ActionBundles

open ActionBundles.Action

/-- Whether two trees hold the same file at an address, or no file both. -/
def Tree.SameFile (t t' : Tree) (x : Address) : Prop :=
  ∀ content mode, t'.get? x = some (.file content mode) ↔ t.get? x = some (.file content mode)

namespace Transaction

variable {t t' t₀ : Tree} {d : Disk} {a r x : Address}
  {rels seen done fresh kept rest : List Address} {n : Text} {b c : Address} {p : Published}

/-! ### Files that can be brought back -/

/-- A place is not on the way to another one. -/
theorem Ready.not_suffix_way (h : Ready t a r rels) (hb : n :: c ∈ rels) (hb' : b ∈ rels) :
    ¬ b ++ a <:+ c ++ a := by
  rintro ⟨e, he⟩
  rw [← List.append_assoc] at he
  exact h.not_suffix_tail hb hb' ⟨e, List.append_cancel_right he⟩

theorem sameFile_of_eq (h : t'.get? x = t.get? x) : t.SameFile t' x := fun _ _ => by rw [h]

theorem sameFile_of_no_file (h : ¬ HasFile t x) (h' : ¬ HasFile t' x) : t.SameFile t' x :=
  fun content mode => iff_of_false (fun hf => h' ⟨content, mode, hf⟩) fun hf => h ⟨content, mode, hf⟩

/-- Files outside of a directory in which there was nothing are all files, once it is gone. -/
theorem sameFile_prune (hvacant : ∀ y, r <:+ y → t.get? y = none)
    (h : ¬ r <:+ x → t.SameFile t' x) : t.SameFile (t'.prune r) x := by
  by_cases hin : r <:+ x
  · refine sameFile_of_no_file ?_ ?_
    · rintro ⟨content, mode, hf⟩
      cases (hvacant x hin).symm.trans hf
    · rintro ⟨content, mode, hf⟩
      rw [Tree.get?_prune] at hf
      split at hf
      · cases hf
      · next hnot =>
        have hnil : x = [] := by_contra fun hne => hnot ⟨hne, hin⟩
        rw [hnil] at hf
        cases hf
  · intro content mode
    rw [Tree.get?_prune_of_not_suffix hin]
    exact h hin content mode

theorem hasFile_iff_of_sameFile (h : t.SameFile t' x) : HasFile t' x ↔ HasFile t x :=
  exists₂_congr h

/-- While files are published one after another: the files of `done` are in their places, and all
files that were there before are still there or are kept. -/
structure Recoverable (t₀ : Tree) (a r : Address) (rels done kept fresh : List Address) (t : Tree) :
    Prop where
  outside : ∀ x, ¬ r <:+ x → (∀ b ∈ done ++ kept, x ≠ b ++ a) → t₀.SameFile t x
  saved : ∀ b ∈ kept, t.get? (b ++ backupAddress r) = t₀.get? (b ++ a)
  new : ∀ b ∈ done, b ∉ kept → ¬ HasFile t₀ (b ++ a)
  absent : ∀ b ∈ fresh, b ∉ done → ¬ HasFile t₀ (b ++ a)
  placed : ∀ b ∈ done, t.get? (b ++ a) = t₀.get? (b ++ stagingAddress r)
  place : ∀ b ∈ rels, t.get? (b ++ a) ≠ some .directory

theorem Recoverable.nothing (h : ∀ b ∈ rels, t.get? (b ++ a) ≠ some .directory) :
    Recoverable t a r rels [] [] [] t where
  outside _ _ _ := sameFile_of_eq rfl
  saved _ h := absurd h List.not_mem_nil
  new _ h := absurd h List.not_mem_nil
  absent _ h := absurd h List.not_mem_nil
  placed _ h := absurd h List.not_mem_nil
  place := h

/-- Rolling back brings all files back. -/
theorem RolledBack.sameFile (h : RolledBack a r done fresh kept t t')
    (hu : Recoverable t₀ a r rels done kept fresh t) (hx : ¬ r <:+ x) : t₀.SameFile t' x := by
  by_cases hkept : ∃ b ∈ kept, x = b ++ a
  · obtain ⟨b, hb, rfl⟩ := hkept
    exact sameFile_of_eq ((h.restored b hb).trans (hu.saved b hb))
  have hne : ∀ b ∈ kept, x ≠ b ++ a := fun b hb he => hkept ⟨b, hb, he⟩
  have hbefore : (∃ b ∈ done ++ fresh, x = b ++ a) → ¬ HasFile t₀ x := by
    rintro ⟨b, hb, rfl⟩
    by_cases hdone : b ∈ done
    · exact hu.new b hdone fun hb' => hne b hb' rfl
    · exact hu.absent b ((List.mem_append.1 hb).resolve_left hdone) hdone
  rcases h.other x hx hne with ⟨hsame, hno⟩ | ⟨hmem, -, hnone⟩
  · by_cases hmem : ∃ b ∈ done ++ fresh, x = b ++ a
    · exact sameFile_of_no_file (hbefore hmem) fun hf => hno hmem ((hasFile_congr hsame).1 hf)
    · intro content mode
      rw [hsame]
      refine hu.outside x hx (fun b hb he => ?_) content mode
      rcases List.mem_append.1 hb with hb | hb
      · exact hmem ⟨b, List.mem_append_left _ hb, he⟩
      · exact hne b hb he
  · exact sameFile_of_no_file (hbefore hmem) fun ⟨_, _, hf⟩ => by cases hnone.symm.trans hf

/-- Keeping a file leaves all files recoverable. -/
theorem Recoverable.keeping {kept₁ fresh₁ : List Address}
    (hu : Recoverable t₀ a r rels done kept fresh t)
    (hk : Keeping a r b kept fresh t kept₁ fresh₁ t') (hkept : ∀ b ∈ kept, b ∈ done)
    (hnew : b ∉ done) (hapart : ∀ b' ∈ rels, ¬ r <:+ b' ++ a) (hdone : ∀ b' ∈ done, b' ∈ rels)
    (hb : b ∈ rels) : Recoverable t₀ a r rels done kept₁ fresh₁ t' := by
  have hbefore : t₀.SameFile t (b ++ a) := by
    refine hu.outside _ (hapart b hb) fun b' hb' he => hnew ?_
    rw [List.append_cancel_right he]
    exact (List.mem_append.1 hb').elim id (hkept b')
  cases hk with
  | absent hno =>
    refine ⟨hu.outside, hu.saved, hu.new, fun b' hb' hmem => ?_, hu.placed, hu.place⟩
    rcases List.mem_append.1 hb' with hb' | hb'
    · exact hu.absent b' hb' hmem
    · rw [List.mem_singleton.1 hb', ← hasFile_iff_of_sameFile hbefore]
      exact hno
  | kept _ hfile hsaved houtside hbackup =>
    have hother : ∀ b' ∈ rels, b' ≠ b → t'.get? (b' ++ a) = t.get? (b' ++ a) := fun b' hb' hne =>
      (houtside _ (hapart b' hb')).trans (if_neg fun he => hne (List.append_cancel_right he))
    refine ⟨fun x hx hxs => ?_, fun b' hb' => ?_, fun b' hb' hmem => ?_, hu.absent,
      fun b' hb' => ?_, fun b' hb' => ?_⟩
    · intro content mode
      rw [houtside x hx, if_neg (hxs b (by simp))]
      exact hu.outside x hx (fun b' hb' => hxs b' (by
        rw [← List.append_assoc]
        exact List.mem_append_left _ hb')) content mode
    · rcases List.mem_append.1 hb' with hb' | hb'
      · rw [hbackup b' hb']
        exact hu.saved b' hb'
      · rw [List.mem_singleton.1 hb', hsaved]
        obtain ⟨content, mode, hf⟩ := hfile
        rw [hf, (hbefore content mode).1 hf]
    · exact hu.new b' hb' fun hb'' => hmem (List.mem_append_left _ hb'')
    · rw [hother b' (hdone b' hb') fun he => hnew (he ▸ hb')]
      exact hu.placed b' hb'
    · by_cases hne : b' = b
      · rw [hne, houtside _ (hapart b hb), if_pos rfl]
        simp
      · rw [hother b' hb' hne]
        exact hu.place b' hb'

section Put

variable {file : Node} {d₂ : Disk} (h₀ : Ready t₀ a r rels)
  (h : Progress t₀ a r rels (done ++ [n :: c]) done kept fresh p d.tree)
  (hu : Recoverable t₀ a r rels done kept fresh d.tree)
  (hdrafts : ∀ n c, n :: c ∈ rels →
    draftName n :: c ∉ rels ∧ ¬ HasFile t₀ (draftName n :: (c ++ a)))

include h₀ h hu

/-- A directory on the way to a place was no file. -/
theorem Recoverable.not_hasFile_way (hclear : d.tree.Clear (c ++ a)) (hx : x <:+ c ++ a) :
    ¬ HasFile t₀ x := by
  have hsame : t₀.SameFile d.tree x := hu.outside x (h₀.apart_tail h.mem_rels hx) fun b hb =>
    h.way_ne h₀ hx (h.mem_seen b hb)
  rw [← hasFile_iff_of_sameFile hsame]
  rintro ⟨content, mode, hf⟩
  rcases hclear x hx with hnone | hdir
  · cases hnone.symm.trans hf
  · cases hdir.symm.trans hf

/-- Making the directories of a place leaves all files recoverable. -/
theorem Recoverable.withDirectories (hclear : d.tree.Clear (c ++ a)) :
    Recoverable t₀ a r rels done kept fresh (d.tree.withDirectories (c ++ a)) := by
  have hb : n :: c ∈ rels := h.mem_rels
  have hnames : ∀ k ∈ c ++ a, isName k = true := fun k hk =>
    h₀.isName hb k (List.mem_cons_of_mem n hk)
  have hget := Tree.get?_withDirectories (t := d.tree) hnames
  have hplace : ∀ b ∈ rels, (d.tree.withDirectories (c ++ a)).get? (b ++ a) = d.tree.get? (b ++ a) :=
    fun b hb' => by
      rw [hget, if_neg (h₀.not_suffix_way hb hb')]
  refine ⟨fun x hx hxs => ?_, fun b hb' => ?_, hu.new, hu.absent, fun b hb' => ?_, fun b hb' => ?_⟩
  · by_cases hway : x <:+ c ++ a
    · refine sameFile_of_no_file (hu.not_hasFile_way h₀ h hclear hway) fun ⟨_, _, hf⟩ => ?_
      rw [hget, if_pos hway] at hf
      cases hf
    · intro content mode
      rw [hget, if_neg hway]
      exact hu.outside x hx hxs content mode
  · rw [hget, if_neg fun hs => h₀.apart_tail hb hs (suffix_backup b)]
    exact hu.saved b hb'
  · rw [hplace b (h.mem b (h.ofDone b hb'))]
    exact hu.placed b hb'
  · rw [hplace b hb']
    exact hu.place b hb'

include hdrafts in
/-- Putting a file into its place leaves all files recoverable. -/
theorem Recoverable.put (hnew : n :: c ∉ done) (hfile : ∃ content mode, file = .file content mode)
    (hsource : t₀.get? (n :: c ++ stagingAddress r) = some file)
    (ho : PutOutcome d n (c ++ a) file (.ok (), d₂)) :
    Recoverable t₀ a r rels (done ++ [n :: c]) kept fresh d₂.tree := by
  have hb : n :: c ∈ rels := h.mem_rels
  obtain ⟨hdraftRel, hdraftFile⟩ := hdrafts n c hb
  have hinside := fun {x} => h.underway.get?_inside h₀ hb ho (x := x)
  cases ho with
  | done _ hclear hplace hname hdraft hget =>
  have hother : ∀ b ∈ rels, b ≠ n :: c → d₂.tree.get? (b ++ a) = d.tree.get? (b ++ a) :=
    fun b hb' hne => by
      have hnplace : b ++ a ≠ n :: (c ++ a) := fun he =>
        hne (List.append_cancel_right (show b ++ a = n :: c ++ a from he))
      have hndraft : b ++ a ≠ draftName n :: (c ++ a) := fun he => by
        rw [List.append_cancel_right (show b ++ a = draftName n :: c ++ a from he)] at hb'
        exact hdraftRel hb'
      rw [hget, if_neg hnplace, if_neg hndraft, if_neg (h₀.not_suffix_way hb hb')]
  refine ⟨fun x hx hxs => ?_, fun b hb' => ?_, fun b hb' hmem => ?_, fun b hb' hmem => ?_,
    fun b hb' => ?_, fun b hb' => ?_⟩
  · have hxn : x ≠ n :: (c ++ a) := hxs (n :: c) (by simp)
    have hxd : ∀ b ∈ done ++ kept, x ≠ b ++ a := fun b hb' => hxs b (by
      rcases List.mem_append.1 hb' with hb' | hb' <;> simp [hb'])
    by_cases hxdraft : x = draftName n :: (c ++ a)
    · refine sameFile_of_no_file (hxdraft ▸ hdraftFile) fun ⟨_, _, hf⟩ => ?_
      rw [hget, if_neg hxn, if_pos hxdraft] at hf
      cases hf
    by_cases hway : x <:+ c ++ a
    · refine sameFile_of_no_file (hu.not_hasFile_way h₀ h hclear hway) fun ⟨_, _, hf⟩ => ?_
      rw [hget, if_neg hxn, if_neg hxdraft, if_pos hway] at hf
      cases hf
    · intro content mode
      rw [hget, if_neg hxn, if_neg hxdraft, if_neg hway]
      exact hu.outside x hx hxd content mode
  · rw [hinside (suffix_backup b)]
    exact hu.saved b hb'
  · rcases List.mem_append.1 hb' with hb' | hb'
    · exact hu.new b hb' hmem
    · obtain rfl := List.mem_singleton.1 hb'
      have hfresh : n :: c ∈ fresh := (h.looked _ (by simp)).resolve_left hmem
      exact hu.absent _ hfresh hnew
  · exact hu.absent b hb' fun hdone => hmem (List.mem_append_left _ hdone)
  · by_cases hne : b = n :: c
    · rw [hne, hsource]
      exact (hget _).trans (if_pos rfl)
    · have hdone : b ∈ done := (List.mem_append.1 hb').resolve_right fun hb' =>
        hne (List.mem_singleton.1 hb')
      rw [hother b (h.mem b (h.ofDone b hdone)) hne]
      exact hu.placed b hdone
  · by_cases hne : b = n :: c
    · obtain ⟨content, mode, rfl⟩ := hfile
      rw [hne, show n :: c ++ a = n :: (c ++ a) from rfl, hget, if_pos rfl]
      simp
    · rw [hother b hb' hne]
      exact hu.place b hb'

/-- A file that cannot be put into its place leaves all files recoverable. -/
theorem Recoverable.failed {e : Failure} (ho : PutOutcome d n (c ++ a) file (.error e, d₂)) :
    Recoverable t₀ a r rels done kept fresh d₂.tree := by
  cases ho with
  | blocked _ _ => exact hu
  | refused _ hclear _ => exact hu.withDirectories h₀ h hclear
  | stuck _ _ hplace => exact absurd hplace (hu.place (n :: c) h.mem_rels)

end Put

/-! ### From the first file to the last -/

/-- What comes of publishing the files of `rels`: all files are as they were, or these are in their
places. -/
inductive FilesOutcome (t₀ : Tree) (a r : Address) (rels : List Address) :
    Except Failure (List Text) × Disk → Prop
  | failed (e : Failure) (d' : Disk) (h : ∀ x, ¬ r <:+ x → t₀.SameFile d'.tree x) :
      FilesOutcome t₀ a r rels (.error e, d')
  | done (out : List Text) (d' : Disk)
      (h : ∀ b ∈ rels, d'.tree.get? (b ++ a) = t₀.get? (b ++ stagingAddress r)) :
      FilesOutcome t₀ a r rels (.ok out, d')

/-- Publishing one file after another, from any moment at which all files are recoverable. -/
theorem Progress.files_outcome {tx : Transaction} (h₀ : Ready t₀ a r rels) (ha : Path.IsWay a)
    (hr : Path.IsWay r) (htx : tx.dir = Path.ofAddress r) (hsplit : rels = done ++ rest)
    (hdrafts : ∀ n c, n :: c ∈ rels →
      draftName n :: c ∉ rels ∧ ¬ HasFile t₀ (draftName n :: (c ++ a)))
    (h : Progress t₀ a r rels done done kept fresh p d.tree)
    (hu : Recoverable t₀ a r rels done kept fresh d.tree) :
    FilesOutcome t₀ a r rels
      ((tx.publishEach (Path.ofAddress a) p (rest.map Path.ofRelative)).on d) := by
  induction rest generalizing done kept fresh p d with
  | nil =>
    rw [List.append_nil] at hsplit
    subst hsplit
    exact .done _ d hu.placed
  | cons b rest ih =>
    obtain ⟨n, c, rfl, hb, hnew, hsplit', hnext⟩ := h.next h₀ ha hr htx hsplit
    have hkeeping {kept₁ fresh₁ : List Address} {d₁ : Disk}
        (hk : Keeping a r (n :: c) kept fresh d.tree kept₁ fresh₁ d₁.tree) :
        Recoverable t₀ a r rels done kept₁ fresh₁ d₁.tree :=
      hu.keeping hk h.ofKept hnew h₀.apart h.mem hb
    generalize (tx.publishEach (Path.ofAddress a) p (((n :: c) :: rest).map Path.ofRelative)).on d =
      outcome at hnext ⊢
    cases hnext with
    | @failed _ _ d₃ _ _ _ _ e hp hk _ _ ho hback =>
      exact .failed e d₃ fun x => hback.sameFile ((hkeeping hk).failed h₀ hp ho)
    | put hp hk hsource hfile ho hnext hrun =>
      rw [← hrun]
      exact ih hsplit' hnext ((hkeeping hk).put h₀ hp hdrafts hnew hfile hsource ho)

/-- **Publishing leaves all files as they were, or puts all of its own into their places**, where no
directory is in such a place and no file has the name of a draft. -/
theorem publish_files {tx : Transaction} (htx : tx.dir = Path.ofAddress r) (h : Gathered d a r)
    (hplace : ∀ b ∈ gathered d r, d.tree.get? (b ++ a) ≠ some .directory)
    (hdrafts : ∀ n c, n :: c ∈ gathered d r →
      draftName n :: c ∉ gathered d r ∧ ¬ HasFile d.tree (draftName n :: (c ++ a))) :
    FilesOutcome d.tree a r (gathered d r) ((tx.publish (Path.ofAddress a)).on d) := by
  obtain ⟨d₁, hd₁, hsame, hmade⟩ := h.makeBackup_on
  have hr : Path.IsWay r := (Tree.isWay_of_get? h.staging).tail
  have hready := h.ready hsame hmade
  have houtside : ∀ x, ¬ r <:+ x → d₁.tree.get? x = d.tree.get? x := fun x hx =>
    hsame x fun he => hx (he ▸ List.suffix_cons _ r)
  have hne : ∀ n c, draftName n :: (c ++ a) ≠ backupAddress r := fun n _ he =>
    draftName_ne_backup n (List.cons.inj he).1
  have houtcome : FilesOutcome d₁.tree a r (gathered d r)
      ((tx.publishEach (Path.ofAddress a) {} ((gathered d r).map Path.ofRelative)).on d₁) := by
    refine hready.progress.files_outcome hready (isWay_of_names h.names) hr htx rfl
      (fun n c hb => ⟨(hdrafts n c hb).1, ?_⟩) (.nothing fun b hb => ?_)
    · rw [hasFile_congr (hsame _ (hne n c))]
      exact (hdrafts n c hb).2
    · rw [houtside _ (h.apart b hb)]
      exact hplace b hb
  rw [publish_on h.staging h.noLinks htx, on_bind_ok hd₁]
  generalize (tx.publishEach (Path.ofAddress a) {} ((gathered d r).map Path.ofRelative)).on d₁ =
    outcome at houtcome ⊢
  cases houtcome with
  | failed e d' hall =>
    refine .failed e d' fun x hx content mode => ?_
    rw [← houtside x hx]
    exact hall x hx content mode
  | done out d' hall =>
    refine .done out d' fun b hb => ?_
    rw [hall b hb, hsame _ (staging_ne_backup b [])]

end Transaction

/-! ### Bundles -/

theorem Path.staysBelow_concat {n : Text} (hn : Path.isStep n = true) (ms : List Text)
    (depth : Nat) : Path.staysBelow depth (ms ++ [n]) = Path.staysBelow depth ms := by
  induction ms generalizing depth with
  | nil => rw [List.nil_append, Path.staysBelow_cons hn, Path.staysBelow, Path.staysBelow]
  | cons m ms ih => rw [List.cons_append, Path.staysBelow, Path.staysBelow, ih, ih, ih]

namespace Project

variable {p : Project} {occasion : Occasion} {plan : Plan} {m m' : Manifest} {path : Text}
  {a r : Address} {d d' : Disk} {tx : Transaction}

/-- What keeps the publication of a bundle below `a` from losing anything: the path of the artifact
does not lead out of the project or into the transaction or the way of the manifest, no directory is
in the place of a file, and no file has the name of a draft. -/
structure Plan.Safe (plan : Plan) (transactionName : Text) (a : Address) (t : Tree) : Prop where
  below : Path.staysBelow 0 (Path.steps plan.artifact) = true
  fresh : ∀ n ∈ Transaction.bundleNames, transactionName ∉ n :: plan.place
  manifest : ¬ manifestAddress a <:+ plan.place ++ a ∧ ¬ draftAddress a <:+ plan.place ++ a
  place : ∀ n ∈ Transaction.bundleNames, t.get? (n :: (plan.place ++ a)) ≠ some .directory
  draft : ∀ n ∈ Transaction.bundleNames,
    ¬ Transaction.HasFile t (Transaction.draftName n :: (plan.place ++ a))

/-- A bundle whose path does not lead out of the staging directory is gathered in it. -/
theorem Plan.landing_gathering (h : Path.staysBelow 0 (Path.steps plan.artifact) = true)
    (r : Address) :
    Path.landing [] plan.gathering ++ r = plan.place ++ Transaction.stagingAddress r := by
  have hlanding : Path.landing [] plan.gathering =
      Path.landing [] (Path.steps plan.artifact) ++ ["staging".toList] := by
    rw [gathering, Path.landing_cons_isStep (by decide)]
    exact Path.landing_below (c := []) h _
  rw [place, hlanding, List.dropLast_concat, Transaction.stagingAddress, List.append_assoc]
  rfl

/-- What comes of publishing a bundle safely: all files are as they were, or those of the bundle are
in their places. -/
inductive BundleOutcome (a : Address) (plan : Plan) (t : Tree) :
    Except Failure (List Text) × Disk → Prop
  | failed (e : Failure) (d' : Disk) (h : ∀ x, t.SameFile d'.tree x) :
      BundleOutcome a plan t (.error e, d')
  | done (out : List Text) (d' : Disk)
      (h : ∀ n node, (n, node) ∈ plan.bundle.files →
        d'.tree.get? (n :: (plan.place ++ a)) = some node)
      (hbridge : d'.tree.get? (bridgeAddress a) = some .directory) :
      BundleOutcome a plan t (.ok out, d')

/-- Where a bundle has been gathered, there is a staging directory. -/
theorem staging_of_collects
    (h : Transaction.Collects r (plan.place ++ Transaction.stagingAddress r) plan.bundle.files
      d.tree) : d.tree.get? (Transaction.stagingAddress r) = some .directory := by
  have hfile : (Bundle.descriptorName, .file plan.bundle.descriptor.utf8 false) ∈
      plan.bundle.files := List.mem_cons_self
  exact Tree.get?_of_append (b := Bundle.descriptorName :: plan.place) (h.file _ _ hfile)
    (List.cons_ne_nil _ _)

section Gathered

variable {t₁ : Tree} {name : Text} (hr : r = name :: transactionsAddress a)

include hr

/-- What is not named after a transaction is not in it. -/
theorem not_suffix_of_not_mem {b : Address} (hb : name ∉ b) : ¬ r <:+ b ++ a := by
  rintro ⟨e, he⟩
  rw [hr, transactionsAddress, bridgeAddress,
    show e ++ name :: "txns".toList :: ".bridge".toList :: a =
      (e ++ [name, "txns".toList, ".bridge".toList]) ++ a by simp] at he
  rw [← List.append_cancel_right he] at hb
  simp at hb

/-- A file of a bundle is not on the way to what is gathered. -/
theorem not_suffix_staging {n : Text} {c : Address} (hn : n ∈ Transaction.bundleNames)
    (hne : n ≠ name) : ¬ n :: (c ++ a) <:+ Transaction.stagingAddress r := by
  have hall : ∀ m ∈ Transaction.bundleNames, m ≠ "staging".toList ∧ m ≠ "txns".toList ∧
      m ≠ ".bridge".toList := by decide
  obtain ⟨hstaging, htxns, hbridge⟩ := hall n hn
  rw [hr, Transaction.stagingAddress, transactionsAddress, bridgeAddress]
  simp only [List.suffix_cons_iff, List.cons.injEq]
  rintro (⟨he, -⟩ | ⟨he, -⟩ | ⟨he, -⟩ | ⟨he, -⟩ | hs)
  · exact hstaging he
  · exact hne he
  · exact htxns he
  · exact hbridge he
  · exact Tree.Confined.not_suffix (List.suffix_append c a) hs

variable (hout : ∀ n ∈ Transaction.bundleNames, ¬ r <:+ n :: (plan.place ++ a))
  (hchanged : t₁.Changed (Transaction.stagingAddress r <:+ ·)
    (fun x => x <:+ Transaction.stagingAddress r ∨ Transaction.stagingAddress r <:+ x) a d.tree)
  (hvacant : t₁.get? (Transaction.backupAddress r) = none)
  (h : Transaction.Collects r (plan.place ++ Transaction.stagingAddress r) plan.bundle.files d.tree)

include h

omit hr in
/-- The files of a bundle are what has been gathered, by their way from there. -/
theorem mem_gathered_iff {b : Address} : b ∈ Transaction.gathered d r ↔
    ∃ n node, (n, node) ∈ plan.bundle.files ∧ b = n :: plan.place := by
  rw [h.mem_gathered (fun _ _ => Bundle.mem_bundleNames_of_mem_files) (staging_of_collects h)]
  constructor
  · rintro ⟨n, node, e, hn, rfl, he⟩
    exact ⟨n, node, hn, by rw [List.append_cancel_right he]⟩
  · rintro ⟨n, node, hn, rfl⟩
    exact ⟨n, node, plan.place, hn, rfl, rfl⟩

omit hr in
theorem exists_name_of_mem_gathered {b : Address} (hb : b ∈ Transaction.gathered d r) :
    ∃ n ∈ Transaction.bundleNames, b = n :: plan.place := by
  obtain ⟨n, node, hn, rfl⟩ := (mem_gathered_iff h).1 hb
  exact ⟨n, (Bundle.mem_bundleNames_of_mem_files hn).1, rfl⟩

include hout hchanged hvacant

omit hr in
/-- What has been gathered for a plan is ready to be published outside the transaction. -/
theorem gathered_of_collects : Transaction.Gathered d a r := by
  refine ⟨staging_of_collects h,
    h.noLinksStaging fun _ _ => Bundle.mem_bundleNames_of_mem_files, ?_,
    Tree.isName_of_mem hchanged.root, fun b hb => ?_, fun b _ =>
      Disk.plain_of_noLinksIn hchanged.noLinks hchanged.root,
    fun n c _ => hchanged.noLinks (Transaction.draftName n :: c)⟩
  · -- there is no directory for what is kept yet
    cases hget : d.tree.get? (Transaction.backupAddress r) with
    | none => rfl
    | some node =>
      rcases hchanged.new _ _ hget with hbefore | ⟨-, hs | hs⟩ | ⟨hs, -⟩
      · cases hvacant.symm.trans hbefore
      all_goals
        exact absurd (hs.eq_of_length rfl) (by
          simp [Transaction.backupAddress, Transaction.stagingAddress])
  · obtain ⟨n, hn, rfl⟩ := exists_name_of_mem_gathered h hb
    exact hout n hn

variable (hsafe : plan.Safe name a t₁)

include hsafe

omit hout in
/-- What has been gathered for a plan can be published safely. -/
theorem publish_files_of_collects (htx : tx.dir = Path.ofAddress r) :
    Transaction.FilesOutcome d.tree a r (Transaction.gathered d r)
      ((tx.publish (Path.ofAddress a)).on d) := by
  have hout : ∀ n ∈ Transaction.bundleNames, ¬ r <:+ n :: (plan.place ++ a) := fun n hn =>
    not_suffix_of_not_mem hr (hsafe.fresh n hn)
  refine Transaction.publish_files htx (gathered_of_collects hout hchanged hvacant h)
    (fun b hb hdir => ?_) fun n c hb => ?_
  · obtain ⟨n, hn, rfl⟩ := exists_name_of_mem_gathered h hb
    rcases hchanged.new _ _ hdir with hbefore | ⟨-, hs | hs⟩ | ⟨-, _, _, hfile⟩
    · exact hsafe.place n hn hbefore
    · exact not_suffix_staging hr hn (fun he => hsafe.fresh n hn (he ▸ List.mem_cons_self)) hs
    · exact hout n hn ((List.suffix_cons _ r).trans hs)
    · cases hfile
  · obtain ⟨n, hn, he⟩ := exists_name_of_mem_gathered h hb
    obtain ⟨rfl, rfl⟩ := List.cons.inj he
    refine ⟨fun hdraft => ?_, ?_⟩
    · obtain ⟨m, hm, he⟩ := exists_name_of_mem_gathered h hdraft
      exact (Transaction.draftName_not_mem hn).1 ((List.cons.inj he).1 ▸ hm)
    · rintro ⟨content, mode, hfile⟩
      have hnot : ¬ Transaction.stagingAddress r <:+
          Transaction.draftName n :: (plan.place ++ a) := fun hs => by
        have htail : r <:+ plan.place ++ a := by
          rcases List.suffix_cons_iff.1 hs with he | hs
          · exact (List.cons.inj he).2 ▸ List.suffix_refl _
          · exact (List.suffix_cons _ r).trans hs
        exact not_suffix_of_not_mem hr (fun hm => hsafe.fresh n hn (List.mem_cons_of_mem n hm)) htail
      exact hsafe.draft n hn ⟨content, mode, (hchanged.get?_file_iff hnot content mode).1 hfile⟩

end Gathered

/-- The directory of a transaction is still there when its bundle has been published, or could not
be. -/
theorem own_of_publish {name : Text} (hr : r = name :: transactionsAddress a)
    (hbelow : Path.staysBelow 0 (Path.steps plan.artifact) = true) (htx : tx.dir = Path.ofAddress r)
    (hroot : d.tree.get? a = some .directory) (hno : d.tree.NoLinksIn a)
    (h : Transaction.Collects r (plan.place ++ Transaction.stagingAddress r) plan.bundle.files
      d.tree) : ((tx.publish (Path.ofAddress a)).on d).2.tree.get? r = some .directory := by
  have hin : a <:+ r := hr ▸ (suffix_transactionsAddress a).trans (List.suffix_cons _ _)
  have hways : ∀ x, x <:+ r → r <:+ x ∨ Ways a plan.place x := fun x hx => by
    rw [hr] at hx ⊢
    rcases List.suffix_cons_iff.1 hx with rfl | hx
    · exact .inl (List.suffix_refl _)
    · exact .inr (.inl hx)
  rw [← Plan.landing_gathering hbelow r] at h
  exact (changed_published (.refl hroot hno) hin htx hways h).directory h.directory

/-! ### Publishing a bundle -/

/-- A bundle whose path does not lead out of the staging directory is gathered in it, and nothing
else is touched. -/
theorem gather_safely {t₁ : Tree} (hp : p.Usable) (hplan : plan.Sound p)
    (hbelow : Path.staysBelow 0 (Path.steps plan.artifact) = true) (hin : a <:+ r)
    (htx : tx.dir = Path.ofAddress r)
    (hchanged : t₁.Changed (Transaction.stagingAddress r <:+ ·)
      (fun x => x <:+ Transaction.stagingAddress r ∨ Transaction.stagingAddress r <:+ x) a d.tree)
    (h : Transaction.Collects r (plan.place ++ Transaction.stagingAddress r) [] d.tree)
    (last : Action Failure (List Text)) :
    GatherOutcome (t₁.Changed (Transaction.stagingAddress r <:+ ·)
        (fun x => x <:+ Transaction.stagingAddress r ∨ Transaction.stagingAddress r <:+ x) a)
      (Transaction.Collects r (plan.place ++ Transaction.stagingAddress r) plan.bundle.files) last
      ((plan.gather tx >>= fun _ => last).on d) := by
  have hr : Path.IsWay r := Tree.isWay_of_get? h.directory
  have hlanding := Plan.landing_gathering hbelow r
  rw [← hlanding] at h ⊢
  refine gather_outcome hp hplan hin (fun n _ => ?_) (fun n hn path y hpath hy => ?_) htx hchanged h
    last
  · rw [hlanding]
    exact (List.suffix_append _ _).trans (List.suffix_cons n _)
  · obtain ⟨-, hsteps, -⟩ := steps_gathering hp hplan hr htx hn
    have hstep := (Transaction.ne_of_mem_bundleNames hn).2.2.2
    have hsteps' : Path.steps (Path.join tx.stagingDir (plan.artifact ++ '/' :: n)) =
        (Transaction.stagingAddress r).reverse ++ (Path.steps plan.artifact ++ [n]) := by
      rw [hsteps, Plan.gathering, Transaction.stagingAddress]
      simp
    exact Path.LandsAt.suffix_or_suffix (hin.trans (List.suffix_cons _ r))
      (Transaction.isWay_stagingAddress hr) hsteps'
      ((Path.staysBelow_concat hstep _ 0).trans hbelow) hpath hy

section Publish

variable (hp : p.Usable) (hl : p.layout.root = Path.ofAddress a)
  (hname : isName occasion.transactionName = true) (hroot : d.tree.get? a = some .directory)
  (hno : d.tree.NoLinksIn a)

include hp hl hname hroot hno

/-- **Publishing a bundle safely** leaves all files as they were, or puts those of the bundle into
their places. -/
theorem bundle_outcome (hplan : plan.Sound p) (hsafe : plan.Safe occasion.transactionName a d.tree) :
    BundleOutcome a plan d.tree ((publish p.layout occasion plan).on d) := by
  have ha := Tree.isWay_of_get? hroot
  rw [publish_eq, transactionsDir_eq ha hl, Transaction.run_on]
  have hstarted := start_outcome (a := a) hroot hno hname
  generalize (Transaction.start (Path.ofAddress (transactionsAddress a))
    occasion.transactionName).on d = started at hstarted
  cases hstarted with
  | failed e d₁ h => exact .failed e d₁ fun x => h.get?_file_iff id
  | done d₁ tx htx h hdir hempty hvacant =>
    obtain ⟨r, hr⟩ : ∃ r, r = occasion.transactionName :: transactionsAddress a := ⟨_, rfl⟩
    rw [← hr] at htx h hdir hempty hvacant
    have hin : a <:+ r := hr ▸ (suffix_transactionsAddress a).trans (List.suffix_cons _ _)
    have hstaging := Transaction.isWay_stagingAddress (Tree.isWay_of_get? hdir)
    have hstart : d.tree.Changed (Transaction.stagingAddress r <:+ ·)
        (fun x => x <:+ Transaction.stagingAddress r ∨ Transaction.stagingAddress r <:+ x) a
        d₁.tree :=
      h.mono (fun _ hf => hf.elim) fun _ hx => .inl (hx.trans (List.suffix_cons _ r))
    have hworked : GatherOutcome (d₁.tree.Changed (Transaction.stagingAddress r <:+ ·)
        (fun x => x <:+ Transaction.stagingAddress r ∨ Transaction.stagingAddress r <:+ x) a)
        (Transaction.Collects r (plan.place ++ Transaction.stagingAddress r) plan.bundle.files) _ _ :=
      gather_safely hp hplan hsafe.below hin htx (.refl h.root h.noLinks)
        (Transaction.collects_nothing _ hdir hempty)
        ((tx.publish p.layout.root).during (.publishBundle plan.artifact))
    dsimp only
    generalize Action.on _ d₁ = worked at hworked ⊢
    cases hworked with
    | failed e d₂ h₂ =>
      rw [Transaction.close_on htx (h₂.directory hdir)]
      exact .failed e _ fun x => Transaction.sameFile_prune hvacant fun hx =>
        (hstart.trans h₂).get?_file_iff fun hs => hx ((List.suffix_cons _ r).trans hs)
    | gathered d₂ h₂ hcollects =>
      have hsame : ∀ x, ¬ r <:+ x → d.tree.SameFile d₂.tree x := fun x hx =>
        (hstart.trans h₂).get?_file_iff fun hs => hx ((List.suffix_cons _ r).trans hs)
      have hout := publish_files_of_collects hr (hstart.trans h₂)
        (hvacant _ (List.suffix_cons _ r)) hcollects hsafe htx
      have hown := own_of_publish hr hsafe.below htx h₂.root h₂.noLinks hcollects
      rw [on_during, hl]
      generalize (tx.publish (Path.ofAddress a)).on d₂ = published at hout hown ⊢
      dsimp only
      rw [Transaction.close_on htx hown]
      cases hout with
      | failed e d₃ hall =>
        exact .failed _ _ fun x => Transaction.sameFile_prune hvacant fun hx content mode =>
          (hall x hx content mode).trans (hsame x hx content mode)
      | done out d₃ hall =>
        refine .done out _ (fun n node hn => ?_) ?_
        · have hmem : n :: plan.place ∈ Transaction.gathered d₂ r :=
            (mem_gathered_iff hcollects).2 ⟨n, node, hn, rfl⟩
          have hnot : ¬ r <:+ n :: plan.place ++ a := not_suffix_of_not_mem hr
            (hsafe.fresh n (Bundle.mem_bundleNames_of_mem_files hn).1)
          show (d₃.tree.prune r).get? (n :: plan.place ++ a) = some node
          rw [Tree.get?_prune_of_not_suffix hnot, hall _ hmem]
          exact hcollects.file n node hn
        · have hbridge : bridgeAddress a <:+ r :=
            hr ▸ (List.suffix_cons _ _).trans (List.suffix_cons _ _)
          have hnot : ¬ r <:+ bridgeAddress a := fun hs => by
            have hlength := hs.length_le
            rw [hr] at hlength
            simp only [transactionsAddress, List.length_cons] at hlength
            omega
          show (d₃.tree.prune r).get? (bridgeAddress a) = some .directory
          rw [Tree.get?_prune_of_not_suffix hnot, Tree.directory_of_suffix hown hbridge]

/-- After a bundle has been published safely, every manifest can be stored, and its files stay. -/
theorem save_after_bundle (hmanifest : d.tree.get? (manifestAddress a) ≠ some .directory)
    (hdraft : d.tree.get? (draftAddress a) ≠ some .directory) (hplan : plan.Sound p)
    (hsafe : plan.Safe occasion.transactionName a d.tree) {out : List Text} {d₁ : Disk}
    (hpublish : (publish p.layout occasion plan).on d = (.ok out, d₁)) (m : Manifest) :
    ∃ d₂, (m.save p.layout).on d₁ = (.ok (), d₂) ∧
      ∀ n node, (n, node) ∈ plan.bundle.files →
        d₂.tree.get? (n :: (plan.place ++ a)) = some node := by
  have hchanged := changed_publish hp hl hname hplan hroot hno
  have houtcome := bundle_outcome hp hl hname hroot hno hplan hsafe
  rw [hpublish] at hchanged houtcome
  -- the program's own files are no directories still
  have hown : ∀ n, n ≠ "txns".toList → d.tree.get? (n :: bridgeAddress a) ≠ some .directory →
      ¬ n :: bridgeAddress a <:+ plan.place ++ a →
      d₁.tree.get? (n :: bridgeAddress a) ≠ some .directory := fun n htxns hbefore hway hdir => by
    rcases hchanged.new _ _ hdir with hdir | ⟨-, hs | hs⟩ | ⟨-, _, _, hfile⟩
    · exact hbefore hdir
    · exact htxns (List.cons.inj (hs.eq_of_length rfl)).1
    · exact hway hs
    · cases hfile
  cases houtcome with
  | done _ _ hfiles hbridge =>
  have hsaved := save_on (m := m) hl hchanged.root hchanged.noLinks
    (hown _ (by decide) hmanifest hsafe.manifest.1)
  generalize (m.save p.layout).on d₁ = saved at hsaved
  cases hsaved with
  | blocked e hnot => exact absurd hbridge hnot
  | refused e d₂ hdir =>
    exact absurd hdir (hown _ (by decide) hdraft hsafe.manifest.2)
  | done d₂ mode _ hget =>
    refine ⟨d₂, rfl, fun n node hn => ?_⟩
    have hall : ∀ m ∈ Transaction.bundleNames, m ≠ "manifest.json".toList ∧
        m ≠ ".manifest.json.tmp".toList ∧ m ≠ ".bridge".toList := by decide
    obtain ⟨hm, hd, hb⟩ := hall n (Bundle.mem_bundleNames_of_mem_files hn).1
    have hplace : n :: (plan.place ++ a) ≠ manifestAddress a ∧
        n :: (plan.place ++ a) ≠ draftAddress a ∧ n :: (plan.place ++ a) ≠ bridgeAddress a :=
      ⟨fun he => hm (List.cons.inj he).1, fun he => hd (List.cons.inj he).1,
        fun he => hb (List.cons.inj he).1⟩
    rw [hget, if_neg hplace.1, if_neg hplace.2.1, if_neg hplace.2.2]
    exact hfiles n node hn

end Publish

/-- **Bundle and manifest change together.** If an action cannot be generated, all files are as they
were; if it can, the files of its bundle are in their places, and the manifest that is stored has its
mapping and its record. No link may be in the project, no directory in the place of the manifest or
its draft, and the bundle has to be safe to publish. -/
theorem bundle_and_manifest_together (hp : p.Usable) (hl : p.layout.root = Path.ofAddress a)
    (hname : isName occasion.transactionName = true) (hroot : d.tree.get? a = some .directory)
    (hno : d.tree.NoLinksIn a) (hmanifest : d.tree.get? (manifestAddress a) ≠ some .directory)
    (hdraft : d.tree.get? (draftAddress a) ≠ some .directory)
    (hsafe : ∀ plan, p.plan occasion path d = .ok plan →
      plan.Safe occasion.transactionName a d.tree) :
    (∀ e d', (p.generate occasion m path).on d = (.error e, d') →
      ∀ x, d.tree.SameFile d'.tree x) ∧
    ∀ g m' d', (p.generate occasion m path).on d = (.ok (g, m'), d') →
      ∃ plan, p.plan occasion path d = .ok plan ∧
        g.source = plan.source ∧ g.artifact = plan.artifact ∧
        (∀ n node, (n, node) ∈ plan.bundle.files →
          d'.tree.get? (n :: (plan.place ++ a)) = some node) ∧
        Manifest.load p.layout d' = .ok m' ∧ m'.artifactOf? g.source = some g.artifact ∧
        m'.recordOf? g.artifact = some plan.record := by
  have hfiles : ∀ {plan out d₁}, p.plan occasion path d = .ok plan →
      (publish p.layout occasion plan).on d = (.ok out, d₁) → _ := fun hplan hpublish =>
    save_after_bundle hp hl hname hroot hno hmanifest hdraft (sound_of_plan hp hplan)
      (hsafe _ hplan) hpublish
  refine ⟨fun e d' h => ?_, fun g m' d' h => ?_⟩
  · have hgenerating := generating p occasion m path d
    rw [h] at hgenerating
    cases hgenerating with
    | notPlanned | notClaimed => exact fun x => Transaction.sameFile_of_eq rfl
    | notPublished plan kept e d' hplan hclaim hpublish =>
      have houtcome := bundle_outcome hp hl hname hroot hno (sound_of_plan hp hplan)
        (hsafe plan hplan)
      rw [hpublish] at houtcome
      cases houtcome with
      | failed e d' hall => exact hall
    | notStored plan kept files d₁ e d' hplan hclaim hpublish hsave =>
      -- after a bundle that is in its place, the manifest can be stored
      obtain ⟨d₂, hstored, -⟩ := hfiles hplan hpublish
        (kept.upsert plan.source plan.artifact plan.record)
      cases hstored.symm.trans hsave
  · obtain ⟨plan, kept, d₁, hcarried⟩ := exists_of_generate h
    obtain ⟨d₂, hsave, hplaced⟩ := hfiles hcarried.planned hcarried.published m'
    cases hsave.symm.trans hcarried.saved
    refine ⟨plan, hcarried.planned, hcarried.source, hcarried.artifact, hplaced,
      load_of_generate hp hl hname hroot hno h, ?_, ?_⟩
    · rw [hcarried.manifest, hcarried.source, hcarried.artifact, Manifest.artifactOf?_upsert,
        if_pos rfl]
    · rw [hcarried.manifest, hcarried.artifact, Manifest.recordOf?_upsert_self]

/-! ### A bundle that cannot be published again -/

/-- The sample project after its action was generated, with a directory where the draft of the last
file of its bundle would be. -/
def sampleStuck : Disk :=
  { sampleGenerated with
    tree := sampleGenerated.tree.set ".entrypoint.sh.tmp" ["x", "core", "actions", "p"] .directory }

/-- When the action is generated once more. -/
def laterOccasion : Occasion := ⟨"2024-02-02T00:00:00Z", "txn-ghijkl"⟩

/-- On `sampleStuck` the first files of the bundle are published and taken back. -/
theorem bundle_and_manifest_together_sampleStuck :
    ∃ e d', (sampleProject.generate laterOccasion {} "/p/axioms/x.fcm").on sampleStuck =
        (.error e, d') ∧ ∀ x, sampleStuck.tree.SameFile d'.tree x := by
  have hruns : ((sampleProject.plan laterOccasion "/p/axioms/x.fcm" sampleStuck).toOption.map
        fun plan => plan.artifact) = some "actions/core/x".toList ∧
      ((sampleProject.generate laterOccasion {} "/p/axioms/x.fcm").on sampleStuck).1.isOk = false ∧
      sampleStuck.tree.get? ["p".toList] = some .directory ∧
      sampleStuck.tree.get? (manifestAddress ["p".toList]) ≠ some .directory ∧
      sampleStuck.tree.get? (draftAddress ["p".toList]) ≠ some .directory ∧
      ∀ n ∈ Transaction.bundleNames,
        sampleStuck.tree.get? [n, "x", "core", "actions", "p"] ≠ some .directory ∧
        (sampleStuck.tree.get? [Transaction.draftName n, "x", "core", "actions", "p"] = none ∨
          sampleStuck.tree.get? [Transaction.draftName n, "x", "core", "actions", "p"] =
            some .directory) := by
    decide +kernel
  have hguarded : Guarded false ["p".toList] sampleGenerated.tree :=
    history_sampleGenerated.guarded (by rfl)
  have hlinks : ∀ b target, sampleStuck.tree.get? b ≠ some (.link target) := by
    dsimp only [sampleStuck]
    exact Tree.noLinks_set (hguarded.linkFree rfl) (by simp)
  generalize sampleStuck = d at hruns hlinks ⊢
  obtain ⟨hartifact, hfails, hroot, hmanifest, hdraft, hplaces⟩ := hruns
  have hsafe : ∀ plan, sampleProject.plan laterOccasion "/p/axioms/x.fcm" d = .ok plan →
      plan.Safe laterOccasion.transactionName ["p".toList] d.tree := fun plan hplan => by
    rw [hplan] at hartifact
    have hartifact : plan.artifact = "actions/core/x".toList := Option.some.inj hartifact
    have hplace : plan.place = ["x".toList, "core".toList, "actions".toList] := by
      rw [Plan.place, Plan.gathering, hartifact]
      decide
    refine ⟨by rw [hartifact]; decide, by rw [hplace]; decide, by rw [hplace]; decide,
      fun n hn => ?_, fun n hn => ?_⟩
    · rw [hplace]
      exact (hplaces n hn).1
    · rw [hplace]
      rintro ⟨content, mode, hfile⟩
      have hnot := (hplaces n hn).2
      rw [show [Transaction.draftName n, "x".toList, "core".toList, "actions".toList, "p".toList] =
        Transaction.draftName n :: (["x".toList, "core".toList, "actions".toList] ++ ["p".toList])
        from rfl, hfile] at hnot
      rcases hnot with hnot | hnot <;> cases hnot
  have husable : sampleProject.Usable := ⟨by rfl, by rfl⟩
  obtain ⟨htogether, -⟩ := bundle_and_manifest_together (m := {}) husable (by rfl) (by decide) hroot
    (fun b => hlinks _) hmanifest hdraft hsafe
  generalize (sampleProject.generate laterOccasion {} "/p/axioms/x.fcm").on d = run at hfails htogether
  obtain ⟨e | out, d'⟩ := run
  · exact ⟨e, d', rfl, htogether e d' rfl⟩
  · cases hfails

end Project

end ActionBundles
