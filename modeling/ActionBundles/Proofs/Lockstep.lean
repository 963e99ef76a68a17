import ActionBundles.Proofs.Alongside
import ActionBundles.Proofs.Rollback
import ActionBundles.Proofs.Steadiness

/-!
# Transactions in lockstep

Two transactions of the same work, each in a directory of its own, take the same steps: as long as
the places of the files keep their names, gathering, publishing and rolling back are abreast on disks
that are side by side, whatever fails.
-/

namespace ActionBundles

open ActionBundles.Action

namespace Path

variable {f : Address → Address} {a base y b : Address} {n p p' rest step : Text}

/-- Whether two paths are twins, and their directories as well. -/
def Nested (f : Address → Address) (a base : Address) (p p' : Text) : Prop :=
  Twin f a base p p' ∧ ∃ above above', parent? p = some above ∧ parent? p' = some above' ∧
    Twin f a base above above'

theorem nested_fixed (hf : Renaming f) (hway : IsWay (n :: y)) (hin : a <:+ y)
    (hy : f (n :: y) = n :: y) : Nested f a base (ofAddress (n :: y)) (ofAddress (n :: y)) :=
  ⟨.fixed hway (hin.trans (List.suffix_cons n y)) hy, _, _, parent?_ofAddress hway,
    parent?_ofAddress hway,
    .fixed hway.tail hin (hf.eq_of_suffix hy (List.suffix_cons n y))⟩

theorem nested_within (hne : base ≠ []) (hway : IsWay base) (hway' : IsWay (f base))
    (hne' : f base ≠ []) (hrest : rest.head? = some '/') (hmem : step ∈ steps rest)
    (hstep : step ≠ ['.']) (hstays : staysBelow 0 (steps rest) = true)
    (hpass : Passes f base (steps rest)) :
    Nested f a base (ofAddress base ++ rest) (ofAddress (f base) ++ rest) := by
  obtain ⟨rest', hrest', ⟨more, hmore⟩, -, hparent⟩ := parent?_within hrest hmem hstep
  refine ⟨.within hne (.inr hrest) hstays hpass, _, _, hparent base hway hne,
    hparent (f base) hway' hne', .within hne hrest' ?_ ?_⟩
  · exact staysBelow_of_append (hmore ▸ hstays)
  · exact passes_of_append (hmore ▸ hpass)

/-- The path of an entry, by the path of a directory that it lies in. -/
theorem exists_ofAddress_append (hb : IsWay b) :
    ∃ rest, (rest = [] ∨ rest.head? = some '/') ∧ steps rest = b.reverse ∧
      ∀ base, base ≠ [] → ofAddress (b ++ base) = ofAddress base ++ rest := by
  have hstep : ∀ m ∈ b.reverse, isStep m = true := fun m hm => hb m (List.mem_reverse.1 hm)
  refine ⟨onward b.reverse, onward_slash _, ?_, fun base hne => ?_⟩
  · rw [steps_onward fun m hm => (isStep_iff.1 (hstep m hm)).2.2.2, List.filter_eq_self]
    exact fun m hm => by simpa using (isStep_iff.1 (hstep m hm)).1
  · have hnames : (b ++ base).reverse ≠ [] := by simp [hne]
    have hwhole : ofAddress (b ++ base) = Text.join ['/'] ([] :: (b ++ base).reverse) := by
      rw [Text.join, List.intercalate_cons_of_ne_nil hnames]
      rfl
    rw [hwhole, List.reverse_append, ← List.cons_append]
    exact join_base hne b.reverse

end Path

namespace Transaction

variable {f : Address → Address} {a r : Address} {tx tx' : Transaction} {d d' : Disk}
  {p p' q q' rel : Text} {content content' : Bytes}

/-- Two transactions in lockstep: the renaming takes the directory of the one to that of the other,
and leaves the project and all names in the transaction as they are. -/
structure Paired (f : Address → Address) (a r : Address) (tx tx' : Transaction) : Prop where
  renames : Renaming f
  project : f a = a
  inside : a <:+ r
  ne_nil : r ≠ []
  own : ∀ ms, Path.staysBelow 0 ms = true → Path.Passes f r ms
  dir : tx.dir = Path.ofAddress r
  dir' : tx'.dir = Path.ofAddress (f r)

section Steps

variable (h : Paired f a r tx tx')

include h

/-- The path of an entry in the transaction. -/
theorem Paired.twin_own {b : Address} (hb : Path.IsWay b) :
    Path.Twin f a r (Path.ofAddress (b ++ r)) (Path.ofAddress (b ++ f r)) := by
  obtain ⟨rest, hrest, hsteps, heq⟩ := Path.exists_ofAddress_append hb
  rw [heq r h.ne_nil, heq (f r) fun he => h.ne_nil (h.renames.eq_nil_iff.1 he)]
  have hstays : Path.staysBelow 0 (Path.steps rest) = true := by
    rw [hsteps]
    exact Path.staysBelow_of_isStep (fun m hm => hb m (List.mem_reverse.1 hm)) 0
  exact .within h.ne_nil hrest hstays (h.own _ hstays)

theorem Paired.nested_own {n : Text} {b : Address} (hb : Path.IsWay (n :: b)) (hr : Path.IsWay r)
    (hr' : Path.IsWay (f r)) :
    Path.Nested f a r (Path.ofAddress (n :: b ++ r)) (Path.ofAddress (n :: b ++ f r)) :=
  ⟨h.twin_own hb, _, _, Path.parent?_ofAddress (hb.append hr), Path.parent?_ofAddress (hb.append hr'),
    h.twin_own hb.tail⟩

theorem abreast_makeParent (hp : Path.Nested f a r p p') :
    Abreast (Disk.Alongside f a r) AnyTwo Eq (makeParent p) (makeParent p') := by
  obtain ⟨-, above, above', hparent, hparent', htwin⟩ := hp
  rw [makeParent, makeParent, hparent, hparent']
  exact (Disk.abreast_makeDirectories h.renames h.project h.inside htwin).within _ _

theorem abreast_stage (hp : Path.Nested f a r (Path.join tx.stagingDir rel) (Path.join tx'.stagingDir rel))
    (hcontent : ContentAlike content content') :
    Abreast (Disk.Alongside f a r) AnyTwo Eq (tx.stage rel content) (tx'.stage rel content') :=
  (abreast_makeParent h hp).bind fun _ _ _ =>
    (Disk.abreast_put h.renames h.project h.inside hp.1 hcontent none).within _ _

theorem abreast_stageExecutable
    (hp : Path.Nested f a r (Path.join tx.stagingDir rel) (Path.join tx'.stagingDir rel))
    (hcontent : ContentAlike content content') :
    Abreast (Disk.Alongside f a r) AnyTwo Eq (tx.stageExecutable rel content)
      (tx'.stageExecutable rel content') :=
  (abreast_stage h hp hcontent).bind fun _ _ _ =>
    (Disk.abreast_makeExecutable h.renames h.project h.inside hp.1).within _ _

theorem abreast_moveOrCopy (hp : Path.Twin f a r p p') (hq : Path.Twin f a r q q') :
    Abreast (Disk.Alongside f a r) Eq Eq (moveOrCopy p q) (moveOrCopy p' q') := by
  refine (Disk.abreast_move h.renames h.project h.inside hp hq).attempt.bind fun o o' ho => ?_
  cases ho with
  | ok _ => exact abreast_pure rfl
  | error _ => exact Disk.abreast_copy h.renames h.project h.inside hp hq

theorem abreast_keep (hp : Path.Twin f a r p p') (hq : Path.Nested f a r q q') :
    Abreast (Disk.Alongside f a r) AnyTwo Eq (keep p q) (keep p' q') := by
  refine Abreast.bind (P := Eq)
    (abreast_ask fun d d' hd => (hd.isFile h.renames h.project h.inside hp).symm)
    fun isFile isFile' he => ?_
  obtain rfl : isFile = isFile' := he
  refine .ite ?_ (abreast_pure rfl)
  exact (abreast_makeParent h hq).bind fun _ _ _ =>
    ((abreast_moveOrCopy h hp hq.1).within _ _).bind fun _ _ _ => abreast_pure rfl

theorem abreast_put {n : Text} {dir : Address} (hp : Path.Twin f a r p p')
    (hway : Path.IsWay (n :: dir)) (hin : a <:+ dir) (hplace : f (n :: dir) = n :: dir)
    (hdraft : f (draftName n :: dir) = draftName n :: dir) :
    Abreast (Disk.Alongside f a r) AnyTwo Eq (put p (Path.ofAddress (n :: dir)))
      (put p' (Path.ofAddress (n :: dir))) := by
  have hnested : Path.Nested f a r (Path.ofAddress (n :: dir)) (Path.ofAddress (n :: dir)) :=
    Path.nested_fixed h.renames hway hin hplace
  have htwin : Path.Twin f a r (Path.ofAddress (draftName n :: dir))
      (Path.ofAddress (draftName n :: dir)) :=
    .fixed (hway.tail.cons (isStep_draftName (hway n (by simp))))
      (hin.trans (List.suffix_cons _ _)) hdraft
  rw [put_eq hway, put_eq hway]
  exact (abreast_makeParent h hnested).bind fun _ _ _ =>
    ((Disk.abreast_copy h.renames h.project h.inside hp htwin).within _ _).bind fun _ _ _ =>
      (Disk.abreast_move h.renames h.project h.inside htwin hnested.1).within _ _

theorem abreast_withdraw (hp : Path.Twin f a r p p') :
    Abreast (Disk.Alongside f a r) AnyTwo Eq (withdraw p) (withdraw p') := by
  refine Abreast.bind (P := Eq)
    (abreast_ask fun d d' hd => (hd.isFile h.renames h.project h.inside hp).symm)
    fun isFile isFile' he => ?_
  obtain rfl : isFile = isFile' := he
  refine .ite ?_ (abreast_pure rfl)
  exact (Disk.abreast_removeFile h.renames h.project h.inside hp).attempt.bind fun _ _ _ =>
    abreast_pure rfl

theorem abreast_restore (hp : Path.Nested f a r p p') (hq : Path.Twin f a r q q') :
    Abreast (Disk.Alongside f a r) AnyTwo Eq (restore p q) (restore p' q') :=
  (abreast_makeParent h hp).attempt.bind fun _ _ _ =>
    (abreast_moveOrCopy h hq hp.1).attempt.bind fun _ _ _ => abreast_pure rfl

end Steps

/-! ### Publishing -/

/-- Whether the places of files, and of their drafts, keep their names. -/
def KeepNames (f : Address → Address) (a : Address) (rels : List Address) : Prop :=
  ∀ b ∈ rels, ∃ n c, b = n :: c ∧ (∀ k ∈ n :: c, isName k = true) ∧
    f (n :: (c ++ a)) = n :: (c ++ a) ∧ f (draftName n :: (c ++ a)) = draftName n :: (c ++ a)

/-- What is on record in two transactions that have published the same. -/
def OnBothRecords (f : Address → Address) (a r : Address) (rels : List Address)
    (p p' : Published) : Prop :=
  ∃ done fresh kept, Records a r done fresh kept p ∧ Records a (f r) done fresh kept p' ∧
    (∀ b ∈ done, b ∈ rels) ∧ (∀ b ∈ fresh, b ∈ rels) ∧ ∀ b ∈ kept, b ∈ rels

theorem onBothRecords_nothing {rels : List Address} : OnBothRecords f a r rels {} {} :=
  ⟨[], [], [], .nothing, .nothing, by simp, by simp, by simp⟩

section Recording

variable {rels : List Address} {b : Address} {p p' : Published} (h : OnBothRecords f a r rels p p')
  (hb : b ∈ rels)

include h hb

theorem OnBothRecords.after_keep (isKept : Bool) : OnBothRecords f a r rels
    (p.afterKeep (Path.ofAddress (b ++ a)) (Path.ofAddress (b ++ backupAddress r)) isKept)
    (p'.afterKeep (Path.ofAddress (b ++ a)) (Path.ofAddress (b ++ backupAddress (f r))) isKept) := by
  obtain ⟨done, fresh, kept, hp, hp', hdone, hfresh, hkept⟩ := h
  cases isKept with
  | false =>
    exact ⟨done, fresh ++ [b], kept, hp.after_absent b, hp'.after_absent b, hdone,
      List.forall_mem_append.2 ⟨hfresh, by simpa using hb⟩, hkept⟩
  | true =>
    exact ⟨done, fresh, kept ++ [b], hp.after_keep b, hp'.after_keep b, hdone, hfresh,
      List.forall_mem_append.2 ⟨hkept, by simpa using hb⟩⟩

theorem OnBothRecords.after_put : OnBothRecords f a r rels
    (p.afterPut (Path.ofAddress (b ++ a))) (p'.afterPut (Path.ofAddress (b ++ a))) := by
  obtain ⟨done, fresh, kept, hp, hp', hdone, hfresh, hkept⟩ := h
  exact ⟨done ++ [b], fresh, kept, hp.after_put b, hp'.after_put b,
    List.forall_mem_append.2 ⟨hdone, by simpa using hb⟩, hfresh, hkept⟩

end Recording

section Publish

variable {rels : List Address} (h : Paired f a r tx tx') (hnames : KeepNames f a rels)
  (ha : Path.IsWay a) (hr : Path.IsWay r) (hr' : Path.IsWay (f r))

include h hnames ha in
/-- The place of a file. -/
theorem Paired.nested_place {b : Address} (hb : b ∈ rels) :
    Path.Nested f a r (Path.ofAddress (b ++ a)) (Path.ofAddress (b ++ a)) := by
  obtain ⟨n, c, rfl, hall, hplace, -⟩ := hnames b hb
  exact Path.nested_fixed h.renames ((isWay_of_names hall).append ha) (List.suffix_append c a) hplace

include h hnames hr hr' in
/-- Where a file is kept. -/
theorem Paired.nested_backup {b : Address} (hb : b ∈ rels) :
    Path.Nested f a r (Path.ofAddress (b ++ backupAddress r))
      (Path.ofAddress (b ++ backupAddress (f r))) := by
  obtain ⟨n, c, rfl, hall, -⟩ := hnames b hb
  have hway : Path.IsWay (n :: (c ++ backupAddress [])) :=
    (isWay_of_names hall).append (isWay_backupAddress (List.forall_mem_nil _))
  simpa [backupAddress] using h.nested_own hway hr hr'

include h hnames ha hr hr'

theorem abreast_rollBack {p p' : Published} (hp : OnBothRecords f a r rels p p') :
    Abreast (Disk.Alongside f a r) AnyTwo Eq (rollBack p) (rollBack p') := by
  obtain ⟨done, fresh, kept, hrecords, hrecords', hdone, hfresh, hkept⟩ := hp
  rw [rollBack, rollBack, hrecords.files, hrecords'.files, hrecords.created, hrecords'.created,
    hrecords.backups, hrecords'.backups]
  refine Abreast.bind (P := Eq) (abreast_forM
    (S := fun x y => ∃ b ∈ rels, x = Path.ofAddress (b ++ a) ∧ y = Path.ofAddress (b ++ a)) ?_ ?_)
    fun _ _ _ => abreast_forM
      (S := fun x y => ∃ b ∈ rels, x = (Path.ofAddress (b ++ a), Path.ofAddress (b ++ backupAddress r)) ∧
        y = (Path.ofAddress (b ++ a), Path.ofAddress (b ++ backupAddress (f r)))) ?_ ?_
  · refine List.forall₂_same.2 fun place hplace => ?_
    simp only [List.mem_append, List.mem_map, exists_exists_and_eq_and] at hplace
    rcases hplace with ⟨b, hb, rfl⟩ | ⟨b, hb, rfl⟩
    · exact ⟨b, hdone b hb, rfl, rfl⟩
    · exact ⟨b, hfresh b hb, rfl, rfl⟩
  · rintro _ _ ⟨b, hb, rfl, rfl⟩
    exact abreast_withdraw h (h.nested_place hnames ha hb).1
  · rw [List.forall₂_map_left_iff, List.forall₂_map_right_iff]
    exact List.forall₂_same.2 fun b hb => ⟨b, hkept b hb, rfl, rfl⟩
  · rintro _ _ ⟨b, hb, rfl, rfl⟩
    exact abreast_restore h (h.nested_place hnames ha hb) (h.nested_backup hnames hr hr' hb).1

/-- Publishing one file after another keeps in lockstep, whether it succeeds or fails at any
file. -/
theorem abreast_publishEach {rest : List Address} (hrest : ∀ b ∈ rest, b ∈ rels)
    {p p' : Published} (hp : OnBothRecords f a r rels p p') :
    Abreast (Disk.Alongside f a r) AnyTwo Eq
      (tx.publishEach (Path.ofAddress a) p (rest.map Path.ofRelative))
      (tx'.publishEach (Path.ofAddress a) p' (rest.map Path.ofRelative)) := by
  induction rest generalizing p p' with
  | nil =>
    obtain ⟨done, fresh, kept, hrecords, hrecords', -⟩ := hp
    exact abreast_pure (hrecords.files.trans hrecords'.files.symm)
  | cons b rest ih =>
    intro d d' hd
    have hb : b ∈ rels := hrest b (by simp)
    obtain ⟨n, c, rfl, hall, hplace, hdraft⟩ := hnames b hb
    have hway := isWay_of_names hall
    have hnested := h.nested_place hnames ha hb
    have hbackup := h.nested_backup hnames hr hr' hb
    rw [List.map_cons, publishEach_cons ha hr h.dir hway (List.cons_ne_nil n c),
      publishEach_cons ha hr' h.dir' hway (List.cons_ne_nil n c)]
    have hkeep := abreast_keep h hnested.1 hbackup d d' hd
    generalize (keep (Path.ofAddress (n :: c ++ a))
      (Path.ofAddress (n :: c ++ backupAddress r))).on d = keeping at hkeep
    generalize (keep (Path.ofAddress (n :: c ++ a))
      (Path.ofAddress (n :: c ++ backupAddress (f r)))).on d' = keeping' at hkeep
    obtain ⟨keeping, d₁⟩ := keeping
    obtain ⟨keeping', d₁'⟩ := keeping'
    obtain ⟨hends, hd₁⟩ := hkeep
    cases hends with
    | error _ =>
      exact ((abreast_rollBack h hnames ha hr hr' hp).bind fun _ _ _ => abreast_throw trivial)
        d₁ d₁' hd₁
    | @ok isKept isKept' he =>
      obtain rfl : isKept = isKept' := he
      have hp₁ := hp.after_keep hb isKept
      have hstaged : Path.Twin f a r (Path.ofAddress (n :: c ++ stagingAddress r))
          (Path.ofAddress (n :: c ++ stagingAddress (f r))) := by
        have hway' : Path.IsWay (n :: c ++ stagingAddress []) :=
          hway.append (isWay_stagingAddress (List.forall_mem_nil _))
        simpa [stagingAddress] using h.twin_own hway'
      have hput := abreast_put h hstaged (hway.append ha) (List.suffix_append c a) hplace hdraft
        d₁ d₁' hd₁
      dsimp only
      rw [show n :: c ++ a = n :: (c ++ a) from rfl]
      generalize (put (Path.ofAddress (n :: c ++ stagingAddress r))
        (Path.ofAddress (n :: (c ++ a)))).on d₁ = putting at hput
      generalize (put (Path.ofAddress (n :: c ++ stagingAddress (f r)))
        (Path.ofAddress (n :: (c ++ a)))).on d₁' = putting' at hput
      obtain ⟨putting, d₂⟩ := putting
      obtain ⟨putting', d₂'⟩ := putting'
      obtain ⟨hends, hd₂⟩ := hput
      cases hends with
      | error _ =>
        exact ((abreast_rollBack h hnames ha hr hr' hp₁).bind fun _ _ _ => abreast_throw trivial)
          d₂ d₂' hd₂
      | ok _ =>
        exact ih (fun b hb => hrest b (List.mem_cons_of_mem _ hb)) (hp₁.after_put hb) d₂ d₂' hd₂

end Publish

/-! ### What is gathered -/

/-- The files that were gathered come in the order of their names. -/
theorem pairwise_gathered {r : Address} {d : Disk}
    (hstaging : d.tree.get? (stagingAddress r) = some .directory)
    (hno : d.tree.NoLinksIn (stagingAddress r)) :
    ((gathered d r).map Path.ofAddress).Pairwise Path.Precedes := by
  obtain ⟨hfiles, -, hmem⟩ := filesBelow_gathered hstaging hno
  have hwithin : d.filesWithin d.depthBound (Path.ofAddress (stagingAddress r)) =
      (gathered d r).map fun b => Path.ofAddress (b ++ stagingAddress r) := by
    rw [Disk.filesBelow] at hfiles
    split at hfiles
    · rw [Disk.names_of_directory hstaging] at hfiles
      exact Except.ok.inj hfiles
    · next hthere =>
      refine absurd ?_ hthere
      exact (Disk.isThere_ofAddress (Tree.isWay_of_get? hstaging) (Disk.nul_not_mem_of_get? hstaging)
        (Tree.plain_of_get? hstaging (by simp))).2 (by simp [hstaging])
  have hordered := Disk.pairwise_filesWithin (d := d) d.depthBound
    (Path.ofAddress (stagingAddress r))
  rw [hwithin, List.pairwise_map] at hordered
  rw [List.pairwise_map]
  refine hordered.imp_of_mem fun {b b'} hb hb' hlt => ?_
  obtain ⟨-, _, _, hfile⟩ := (hmem b).1 hb
  obtain ⟨-, _, _, hfile'⟩ := (hmem b').1 hb'
  have hway := Tree.isWay_of_get? hfile
  have hway' := Tree.isWay_of_get? hfile'
  rw [Path.Precedes, Path.steps_ofAddress hway, Path.steps_ofAddress hway', List.reverse_append,
    List.reverse_append, Path.compare_append] at hlt
  rw [Path.Precedes, Path.steps_ofAddress fun k hk => hway k (List.mem_append_left _ hk),
    Path.steps_ofAddress fun k hk => hway' k (List.mem_append_left _ hk)]
  exact hlt

/-- Files stand at corresponding addresses. -/
theorem hasFile_alike_iff {t t' : Tree} (h : t.Alike f t') {x : Address} :
    HasFile t' (f x) ↔ HasFile t x := by
  have hx := h x
  rw [HasFile, HasFile]
  generalize t.get? x = o at hx
  generalize t'.get? (f x) = o' at hx
  cases hx with
  | none => simp
  | some hnode => cases hnode <;> simp

section Gathered

variable (h : Paired f a r tx tx') (hd : d.Alongside f a r d')

include h hd

omit h in
theorem isWay_of_alongside : Path.IsWay r ∧ Path.IsWay (f r) :=
  ⟨Tree.isWay_of_get? hd.base, Tree.isWay_of_get? ((hd.alike.directory_iff r).2 hd.base)⟩

omit hd in
/-- Names in the transaction stay as they are. -/
theorem Paired.apply_own {b : Address} (hb : Path.IsWay b) : f (b ++ r) = b ++ f r := by
  induction b with
  | nil => rfl
  | cons n b ih =>
    have hpass := h.own (n :: b).reverse
      (Path.staysBelow_of_isStep (fun m hm => hb m (List.mem_reverse.1 hm)) 0)
    rw [List.reverse_cons] at hpass
    have hlast := Path.passes_concat hpass (hb n (by simp))
    rw [Path.landing_reverse hb.tail, ih hb.tail] at hlast
    exact hlast

theorem gathered_alike (hstaging : d.tree.get? (stagingAddress r) = some .directory) :
    d'.tree.get? (stagingAddress (f r)) = some .directory ∧ gathered d' (f r) = gathered d r := by
  have hway := isWay_stagingAddress (isWay_of_alongside hd).1
  have happly : ∀ {b}, Path.IsWay b → f (b ++ stagingAddress r) = b ++ stagingAddress (f r) :=
    fun {b} hb => by
      have hb' : Path.IsWay (b ++ stagingAddress []) :=
        hb.append (isWay_stagingAddress (List.forall_mem_nil _))
      simpa [stagingAddress] using h.apply_own hb'
  have hstaging' : d'.tree.get? (stagingAddress (f r)) = some .directory := by
    have := (hd.alike.directory_iff (stagingAddress r)).2 hstaging
    rwa [show f (stagingAddress r) = _ from happly (b := []) (by simp [Path.IsWay])] at this
  have hno : d.tree.NoLinksIn (stagingAddress r) := hd.noLinks.below
    (h.inside.trans (List.suffix_cons _ r))
  have hno' : d'.tree.NoLinksIn (stagingAddress (f r)) :=
    (hd.noLinks' h.renames h.project).below (by
      have := h.renames.suffix h.inside
      rw [h.project] at this
      exact this.trans (List.suffix_cons _ (f r)))
  refine ⟨hstaging', ?_⟩
  obtain ⟨-, -, hmem⟩ := filesBelow_gathered hstaging hno
  obtain ⟨-, -, hmem'⟩ := filesBelow_gathered hstaging' hno'
  have hsame : ∀ b, b ∈ gathered d' (f r) ↔ b ∈ gathered d r := fun b => by
    rw [hmem, hmem']
    refine and_congr_right fun _ => ⟨fun hfile => ?_, fun hfile => ?_⟩
    · obtain ⟨_, _, hget⟩ := id hfile
      rwa [← happly fun k hk => Tree.isWay_of_get? hget k (List.mem_append_left _ hk),
        hasFile_alike_iff hd.alike] at hfile
    · obtain ⟨_, _, hget⟩ := id hfile
      rwa [← hasFile_alike_iff hd.alike,
        happly fun k hk => Tree.isWay_of_get? hget k (List.mem_append_left _ hk)] at hfile
  have hpaths := Layout.eq_of_precedes (pairwise_gathered hstaging' hno')
    (pairwise_gathered hstaging hno) fun path => by simp only [List.mem_map, hsame]
  -- an address can be read off its path
  have hread : ∀ rels : List Address, (∀ b ∈ rels, Path.IsWay b) →
      (rels.map Path.ofAddress).map (fun path => (Path.steps path).reverse) = rels :=
    fun rels hways => by
      rw [List.map_map]
      refine (List.map_congr_left fun b hb => ?_).trans (List.map_id rels)
      rw [Function.comp_apply, Path.steps_ofAddress (hways b hb), List.reverse_reverse, id_eq]
  have hways : ∀ b ∈ gathered d r, Path.IsWay b := fun b hb => by
    obtain ⟨-, _, _, hget⟩ := (hmem b).1 hb
    exact fun k hk => Tree.isWay_of_get? hget k (List.mem_append_left _ hk)
  rw [← hread _ hways, ← hpaths, hread _ fun b hb => hways b ((hsame b).1 hb)]

end Gathered

/-- **Publishing keeps in lockstep** as long as the places of what was gathered keep their names. -/
theorem alongside_publish (h : Paired f a r tx tx') (ha : Path.IsWay a)
    (hd : d.Alongside f a r d')
    (hkeep : d.isThere tx.stagingDir = true →
      d.tree.get? (stagingAddress r) = some .directory ∧ KeepNames f a (gathered d r)) :
    EndAlike AnyTwo Eq ((tx.publish (Path.ofAddress a)).on d).1
        ((tx'.publish (Path.ofAddress a)).on d').1 ∧
      Disk.Alongside f a r ((tx.publish (Path.ofAddress a)).on d).2
        ((tx'.publish (Path.ofAddress a)).on d').2 := by
  obtain ⟨hr, hr'⟩ := isWay_of_alongside hd
  have hstagingDir : tx.stagingDir = Path.ofAddress (stagingAddress r) := by
    rw [stagingDir, h.dir, Path.join_ofAddress hr (by decide)]
    rfl
  have hstagingDir' : tx'.stagingDir = Path.ofAddress (stagingAddress (f r)) := by
    rw [stagingDir, h.dir', Path.join_ofAddress hr' (by decide)]
    rfl
  have htwin : Path.Twin f a r tx.stagingDir tx'.stagingDir := by
    rw [hstagingDir, hstagingDir']
    exact h.twin_own (b := stagingAddress []) (isWay_stagingAddress (List.forall_mem_nil _))
  have hthere := hd.isThere h.renames h.project h.inside htwin
  by_cases hstaged : d.isThere tx.stagingDir = true
  · obtain ⟨hstaging, hnames⟩ := hkeep hstaged
    obtain ⟨hstaging', hsame⟩ := gathered_alike h hd hstaging
    have hin : f a <:+ f r := h.renames.suffix h.inside
    rw [h.project] at hin
    rw [publish_on hstaging (hd.noLinks.below (h.inside.trans (List.suffix_cons _ r))) h.dir,
      publish_on hstaging' ((hd.noLinks' h.renames h.project).below
        (hin.trans (List.suffix_cons _ (f r)))) h.dir', hsame]
    have hbackup : Path.Twin f a r (Path.ofAddress (backupAddress r))
        (Path.ofAddress (backupAddress (f r))) :=
      h.twin_own (b := backupAddress []) (isWay_backupAddress (List.forall_mem_nil _))
    exact (((Disk.abreast_makeDirectories h.renames h.project h.inside hbackup).within _ _).bind
      fun _ _ _ => abreast_publishEach h hnames ha hr hr' (fun b hb => hb) onBothRecords_nothing)
      d d' hd
  · rw [publish, publish, on_bind, on_bind, on_ask, on_ask]
    dsimp only
    rw [if_neg hstaged, if_neg (hthere ▸ hstaged)]
    exact ⟨.ok rfl, hd⟩

end Transaction

end ActionBundles
