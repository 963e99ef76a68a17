import ActionBundles.Proofs.Rollback

/-!
# The moments of publishing

`Ready` is what holds before the first file is published, where no links are in the way, and
`Underway` what holds at every moment after that: what was gathered is as it was, what was kept
stands where it is kept, and the place that it was kept from can take it back. Keeping a file and
putting one, whatever comes of it, lead from one such moment to another.
-/

namespace ActionBundles

namespace Transaction

open ActionBundles.Action

variable {t t₀ : Tree} {d : Disk} {a r : Address} {rels kept : List Address}
  {n : Text} {c : Address}

/-! ### The moments of publishing -/

/-- The files of `rels` have been gathered in the transaction at `r`, nothing has been kept yet,
and no link is in the way of publishing them below `a`. -/
structure Ready (t : Tree) (a r : Address) (rels : List Address) : Prop where
  staging : t.get? (stagingAddress r) = some .directory
  backup : t.get? (backupAddress r) = some .directory
  empty : ∀ b, b ≠ [] → t.get? (b ++ backupAddress r) = none
  nodup : rels.Nodup
  ne_nil : ∀ b ∈ rels, b ≠ []
  staged : ∀ b ∈ rels, HasFile t (b ++ stagingAddress r)
  names : ∀ k ∈ a, isName k = true
  apart : ∀ b ∈ rels, ¬ r <:+ b ++ a
  plain : ∀ b ∈ rels, t.Plain (b ++ a)
  draft : ∀ n c, n :: c ∈ rels → ∀ target, t.get? (draftName n :: (c ++ a)) ≠ some (.link target)

namespace Ready

theorem isName (h : Ready t a r rels) {b : Address} (hb : b ∈ rels) :
    ∀ k ∈ b ++ a, isName k = true := by
  obtain ⟨content, mode, hfile⟩ := h.staged b hb
  exact List.forall_mem_append.2
    ⟨fun k hk => Tree.isName_of_mem hfile k (List.mem_append_left _ hk), h.names⟩

/-- None of the files lies in another. -/
theorem eq_of_suffix (h : Ready t a r rels) {b b' : Address} (hb : b ∈ rels) (hb' : b' ∈ rels)
    (hs : b' <:+ b) : b' = b := by
  by_contra hne
  obtain ⟨e, rfl⟩ := hs
  obtain ⟨_, _, hfile⟩ := h.staged _ hb
  obtain ⟨_, _, hfile'⟩ := h.staged _ hb'
  rw [List.append_assoc] at hfile
  have he : e ≠ [] := fun he => hne (by rw [he]; rfl)
  cases (Tree.get?_of_append hfile he).symm.trans hfile'

theorem not_suffix_tail (h : Ready t a r rels) (hb : n :: c ∈ rels) {b : Address} (hb' : b ∈ rels) :
    ¬ b <:+ c := fun hs => by
  have heq := h.eq_of_suffix hb hb' (hs.trans (List.suffix_cons n c))
  have hlength := hs.length_le
  rw [heq, List.length_cons] at hlength
  omega

/-- The directory of a place lies outside the transaction. -/
theorem apart_tail (h : Ready t a r rels) (hb : n :: c ∈ rels) {x : Address} (hx : x <:+ c ++ a) :
    ¬ r <:+ x := fun hs =>
  h.apart _ hb (hs.trans (hx.trans (List.suffix_cons n (c ++ a))))

end Ready

/-- What is known while the files of `rels` are published, of which those of `kept` have been kept:
`t₀` is the tree before, `t` the tree now. -/
structure Underway (t₀ : Tree) (a r : Address) (rels kept : List Address) (t : Tree) : Prop where
  links : ∀ x target, ¬ r <:+ x → t.get? x = some (.link target) → t₀.get? x = some (.link target)
  staging : ∀ b, t.get? (b ++ stagingAddress r) = t₀.get? (b ++ stagingAddress r)
  backup : t.get? (backupAddress r) = some .directory
  below : ∀ b node, b ≠ [] → t.get? (b ++ backupAddress r) = some node →
    (node = .directory ∧ ∃ b' ∈ rels, b <:+ b' ∧ b ≠ b') ∨
      b ∈ kept ∧ ∃ content mode, node = .file content mode
  mem : ∀ b ∈ kept, b ∈ rels
  restore : CanRestore a r kept t

theorem Ready.underway (h : Ready t a r rels) : Underway t a r rels [] t where
  links _ _ _ hlink := hlink
  staging _ := rfl
  backup := h.backup
  below b node hne hb := by cases (h.empty b hne).symm.trans hb
  mem b hb := by cases hb
  restore := ⟨by simp, by simp, by simp, by simp, by simp⟩

namespace Underway

variable (h₀ : Ready t₀ a r rels) (h : Underway t₀ a r rels kept t) (hb : n :: c ∈ rels)

include h₀ h hb

theorem plain : t.Plain (n :: c ++ a) := by
  intro x hx target hlink
  refine h₀.plain _ hb x hx target (h.links x target (fun hs => h₀.apart _ hb (hs.trans hx)) hlink)

theorem draft_ne_link (target : Text) :
    t.get? (draftName n :: (c ++ a)) ≠ some (.link target) := by
  intro hlink
  by_cases hs : r <:+ draftName n :: (c ++ a)
  · rcases List.suffix_cons_iff.1 hs with he | hs
    · have hdir : t.get? r = some .directory := Tree.get?_dir h.backup
      rw [he] at hdir
      cases hdir.symm.trans hlink
    · exact h₀.apart_tail hb (List.suffix_refl _) hs
  · exact h₀.draft n c hb target (h.links _ target hs hlink)

/-- A draft in the transaction would be the transaction itself, which is a directory. -/
theorem not_suffix_draft (hdraft : t.get? (draftName n :: (c ++ a)) = none ∨
    HasFile t (draftName n :: (c ++ a))) : ¬ r <:+ draftName n :: (c ++ a) := fun hs => by
  rcases List.suffix_cons_iff.1 hs with he | hs
  · have hr : t.get? r = some .directory := Tree.get?_dir h.backup
    rw [he] at hr
    rcases hdraft with hnone | ⟨_, _, hf⟩
    · cases hr.symm.trans hnone
    · cases hr.symm.trans hf
  · exact h₀.apart_tail hb (List.suffix_refl _) hs

theorem source : ∃ content mode, t.get? (n :: c ++ stagingAddress r) = some (.file content mode) ∧
    t₀.get? (n :: c ++ stagingAddress r) = some (.file content mode) := by
  obtain ⟨content, mode, hfile⟩ := h₀.staged _ hb
  exact ⟨content, mode, (h.staging _).trans hfile, hfile⟩

theorem clear_backup : t.Clear (c ++ backupAddress r) := by
  intro x hx
  rcases List.suffix_or_suffix_of_suffix hx (List.suffix_append c _) with hs | ⟨b, rfl⟩
  · exact .inr (Tree.directory_of_suffix h.backup hs)
  · have hbc : b <:+ c := by
      obtain ⟨e, he⟩ := hx
      rw [← List.append_assoc] at he
      exact ⟨e, List.append_cancel_right he⟩
    cases hget : t.get? (b ++ backupAddress r) with
    | none => exact .inl rfl
    | some node =>
      by_cases hne : b = []
      · subst hne
        rw [List.nil_append, h.backup] at hget
        exact .inr hget.symm
      rcases h.below b node hne hget with ⟨rfl, -⟩ | ⟨hmem, -⟩
      · exact .inr rfl
      · exact absurd hbc (h₀.not_suffix_tail hb (h.mem b hmem))

theorem backup_ne_directory : t.get? (n :: c ++ backupAddress r) ≠ some .directory := by
  intro hdir
  rcases h.below _ _ (List.cons_ne_nil n c) hdir with ⟨-, b, hb', hs, hne⟩ | ⟨-, _, _, he⟩
  · exact hne (h₀.eq_of_suffix hb' hb hs)
  · cases he

end Underway

/-- What changes outside the transaction, where no directory goes, no link comes and no place from
which a file was kept becomes a directory. -/
theorem Underway.change {t' : Tree} (h : Underway t₀ a r rels kept t)
    (hinside : ∀ x, r <:+ x → t'.get? x = t.get? x)
    (hlinks : ∀ x target, t'.get? x = some (.link target) → t.get? x = some (.link target))
    (hdirs : ∀ x, t.get? x = some .directory → t'.get? x = some .directory)
    (hplaces : ∀ b ∈ kept, t'.get? (b ++ a) ≠ some .directory) :
    Underway t₀ a r rels kept t' where
  links x target hx hlink := h.links x target hx (hlinks x target hlink)
  staging b := by
    rw [hinside _ (suffix_staging b), h.staging]
  backup := hdirs _ h.backup
  below b node hne hb := h.below b node hne (by rwa [hinside _ (suffix_backup b)] at hb)
  mem := h.mem
  restore := by
    refine ⟨h.restore.names, fun n c hb => hdirs _ (h.restore.parent n c hb), hplaces,
      fun b hb => ?_, h.restore.apart⟩
    rw [HasFile, hinside _ (suffix_backup b)]
    exact h.restore.file b hb

theorem Underway.mem_of_mem_concat (h : Underway t₀ a r rels kept t) {b b' : Address} (hb : b ∈ rels)
    (hmem : b' ∈ kept ++ [b]) : b' ∈ rels := by
  rcases List.mem_append.1 hmem with hmem | hmem
  · exact h.mem _ hmem
  · exact List.mem_singleton.1 hmem ▸ hb

section Steps

variable (h₀ : Ready t₀ a r rels) (h : Underway t₀ a r rels kept d.tree) (hb : n :: c ∈ rels)

include h₀ h hb

/-- No directory is made where a file was kept. -/
theorem Underway.not_suffix {b : Address} (hmem : b ∈ kept) : ¬ b ++ a <:+ c ++ a := by
  rintro ⟨e, he⟩
  rw [← List.append_assoc] at he
  exact h₀.not_suffix_tail hb (h.mem b hmem) ⟨e, List.append_cancel_right he⟩

/-- Putting a file changes nothing within the transaction. -/
theorem Underway.get?_inside {file : Node} {outcome : Except Failure Unit × Disk}
    (ho : PutOutcome d n (c ++ a) file outcome) {x : Address} (hx : r <:+ x) :
    outcome.2.tree.get? x = d.tree.get? x := by
  have hplace : x ≠ n :: (c ++ a) := by
    rintro rfl
    exact h₀.apart _ hb hx
  have hunder : ¬ x <:+ c ++ a := fun hs => h₀.apart_tail hb hs hx
  have hdraft : d.tree.get? (draftName n :: (c ++ a)) = none ∨
      HasFile d.tree (draftName n :: (c ++ a)) → x ≠ draftName n :: (c ++ a) := fun hfree he =>
    h.not_suffix_draft h₀ hb hfree (he ▸ hx)
  cases ho with
  | blocked e _ => rfl
  | refused e _ _ =>
    have hnames : ∀ k ∈ c ++ a, isName k = true := fun k hk =>
      h₀.isName hb k (List.mem_cons_of_mem n hk)
    have hget := Tree.get?_withDirectories (t := d.tree) hnames
    rw [hget, if_neg hunder]
  | stuck e d' _ _ hdraftFree hget => rw [hget, if_neg (hdraft hdraftFree)]
  | done d' _ _ _ hdraftFree hget =>
    rw [hget, if_neg hplace, if_neg (hdraft hdraftFree), if_neg hunder]

/-- Whatever comes of putting a file, what is known stays so. -/
theorem Underway.put {file : Node} (hfile : ∃ content mode, file = .file content mode)
    {outcome : Except Failure Unit × Disk} (ho : PutOutcome d n (c ++ a) file outcome) :
    Underway t₀ a r rels kept outcome.2.tree := by
  obtain ⟨content, mode, rfl⟩ := hfile
  have hcases := ho.get?_cases fun k hk => h₀.isName hb k (List.mem_cons_of_mem n hk)
  refine h.change (fun x hx => h.get?_inside h₀ hb ho hx) (fun x target hlink => ?_)
    (fun x hdir => ?_) fun b hmem => ?_
  · rcases hcases x with he | ⟨-, he⟩ | ⟨-, he | he⟩
    · exact he ▸ hlink
    all_goals cases he.symm.trans hlink
  · rcases hcases x with he | ⟨-, he⟩ | ⟨hnot, -⟩
    · exact he.trans hdir
    · exact he
    · exact absurd hdir hnot
  · rcases hcases (b ++ a) with he | ⟨hs, -⟩ | ⟨-, he | he⟩
    · rw [he]
      exact h.restore.place b hmem
    · exact absurd hs (h.not_suffix h₀ hb hmem)
    all_goals simp [he]

section Kept

variable {d' : Disk} {content : Bytes} {mode : Bool}
  (hf : d.tree.get? (n :: c ++ a) = some (.file content mode)) (hnew : n :: c ∉ kept)
  (hget : ∀ x, d'.tree.get? x =
    if x = n :: c ++ backupAddress r then some (.file content mode)
    else if x = n :: c ++ a then none
    else if x <:+ c ++ backupAddress r then some .directory else d.tree.get? x)

include hget

omit h₀ hb in
/-- Outside the transaction, only the file that is kept goes. -/
theorem Underway.get?_kept {x : Address} (hx : ¬ r <:+ x) :
    d'.tree.get? x = if x = n :: c ++ a then none else d.tree.get? x := by
  have hback : x ≠ n :: c ++ backupAddress r := by
    rintro rfl
    exact hx (suffix_backup (n :: c))
  rw [hget, if_neg hback]
  split
  · rfl
  split
  · next hs =>
    rcases List.suffix_or_suffix_of_suffix hs (List.suffix_append c (backupAddress r)) with
      hs | ⟨b, rfl⟩
    · rw [Tree.directory_of_suffix h.backup hs]
    · exact absurd (suffix_backup b) hx
  · rfl

/-- What was gathered stays where it is. -/
theorem Underway.get?_staging (b : Address) :
    d'.tree.get? (b ++ stagingAddress r) = t₀.get? (b ++ stagingAddress r) := by
  have hplace : b ++ stagingAddress r ≠ n :: c ++ a := fun he =>
    h₀.apart _ hb (he ▸ suffix_staging b)
  have hunder : ¬ b ++ stagingAddress r <:+ c ++ backupAddress r := fun ⟨e, he⟩ => by
    rw [← List.append_assoc] at he
    exact staging_ne_backup _ _ he
  rw [hget, if_neg (staging_ne_backup b (n :: c)), if_neg hplace, if_neg hunder, h.staging]

omit h₀ in
/-- Where files are kept, there is the new one with its directories, and what was there before. -/
theorem Underway.below_kept {b : Address} {node : Node} (hne : b ≠ [])
    (hnode : d'.tree.get? (b ++ backupAddress r) = some node) :
    (node = .directory ∧ ∃ b' ∈ rels, b <:+ b' ∧ b ≠ b') ∨
      b ∈ kept ++ [n :: c] ∧ ∃ content mode, node = .file content mode := by
  rw [hget] at hnode
  split at hnode
  · next he =>
    obtain rfl : b = n :: c := List.append_cancel_right he
    cases hnode
    exact .inr ⟨by simp, content, mode, rfl⟩
  split at hnode
  · cases hnode
  split at hnode
  · next hs =>
    cases hnode
    obtain ⟨e, he⟩ := hs
    rw [← List.append_assoc] at he
    have hbc : b <:+ c := ⟨e, List.append_cancel_right he⟩
    refine .inl ⟨rfl, n :: c, hb, hbc.trans (List.suffix_cons n c), fun he => ?_⟩
    have hlength := hbc.length_le
    rw [he, List.length_cons] at hlength
    omega
  · rcases h.below b node hne hnode with hdir | ⟨hb', hfile⟩
    · exact .inl hdir
    · exact .inr ⟨List.mem_append_left _ hb', hfile⟩

include hnew

/-- What was kept before stays where it is. -/
theorem Underway.get?_backup {b : Address} (hmem : b ∈ kept) :
    d'.tree.get? (b ++ backupAddress r) = d.tree.get? (b ++ backupAddress r) := by
  have hdiff : b ++ backupAddress r ≠ n :: c ++ backupAddress r := fun he =>
    hnew (List.append_cancel_right he ▸ hmem)
  have hplace : b ++ backupAddress r ≠ n :: c ++ a := fun he =>
    h₀.apart _ hb (he ▸ suffix_backup b)
  have hunder : ¬ b ++ backupAddress r <:+ c ++ backupAddress r := fun hs => by
    obtain ⟨_, _, hf⟩ := h.restore.file b hmem
    rcases h.clear_backup h₀ hb _ hs with hnone | hdir
    · cases hnone.symm.trans hf
    · cases hdir.symm.trans hf
  rw [hget, if_neg hdiff, if_neg hplace, if_neg hunder]

include hf

/-- The file that is kept can be restored, like those that were kept before. -/
theorem Underway.canRestore_kept : CanRestore a r (kept ++ [n :: c]) d'.tree := by
  have hrels : ∀ {b}, b ∈ kept ++ [n :: c] → b ∈ rels := fun hmem => h.mem_of_mem_concat hb hmem
  refine ⟨fun b hmem => ⟨h₀.ne_nil b (hrels hmem), h₀.isName (hrels hmem)⟩, fun m e hmem => ?_,
    fun b hmem => ?_, fun b hmem => ?_, fun b hmem => h₀.apart b (hrels hmem)⟩
  · -- the directories of the places are there still
    have hdir : d.tree.get? (e ++ a) = some .directory := by
      rcases List.mem_append.1 hmem with hmem | hmem
      · exact h.restore.parent m e hmem
      · cases List.mem_singleton.1 hmem
        exact Tree.get?_dir hf
    rw [h.get?_kept hget (h₀.apart_tail (hrels hmem) (List.suffix_refl _)), if_neg]
    · exact hdir
    · intro he
      rw [he] at hdir
      cases hdir.symm.trans hf
  · rw [h.get?_kept hget (h₀.apart b (hrels hmem))]
    split
    · simp
    · next hne =>
      rcases List.mem_append.1 hmem with hmem | hmem
      · exact h.restore.place b hmem
      · exact absurd (by rw [List.mem_singleton.1 hmem]) hne
  · rcases List.mem_append.1 hmem with hmem | hmem
    · rw [HasFile, h.get?_backup h₀ hb hnew hget hmem]
      exact h.restore.file b hmem
    · rw [List.mem_singleton.1 hmem]
      exact ⟨content, mode, by rw [hget, if_pos rfl]⟩

theorem Underway.after_keep : Underway t₀ a r rels (kept ++ [n :: c]) d'.tree where
  links x target hx hlink := by
    rw [h.get?_kept hget hx] at hlink
    split at hlink
    · cases hlink
    · exact h.links x target hx hlink
  staging b := h.get?_staging h₀ hb hget b
  backup := by
    have hplace : backupAddress r ≠ n :: c ++ a := fun he =>
      h₀.apart _ hb (he ▸ suffix_backup [])
    have hself : backupAddress r ≠ n :: c ++ backupAddress r := fun he => by
      have := congrArg List.length he
      simp only [List.length_append, List.length_cons] at this
      omega
    rw [hget, if_neg hself, if_neg hplace, if_pos (List.suffix_append c _)]
  below b node hne hnode := h.below_kept hb hget hne hnode
  mem b hmem := h.mem_of_mem_concat hb hmem
  restore := h.canRestore_kept h₀ hb hf hnew hget

end Kept

/-- What comes of keeping a file: nothing if there is none, and else the file is gone from its
place and stands where it is kept. -/
theorem Underway.keep (hnew : n :: c ∉ kept) :
    (keep (Path.ofAddress (n :: c ++ a)) (Path.ofAddress (n :: c ++ backupAddress r))).on d =
        (.ok false, d) ∧ ¬ HasFile d.tree (n :: c ++ a) ∨
      ∃ d', (keep (Path.ofAddress (n :: c ++ a))
          (Path.ofAddress (n :: c ++ backupAddress r))).on d = (.ok true, d') ∧
        HasFile d.tree (n :: c ++ a) ∧ Underway t₀ a r rels (kept ++ [n :: c]) d'.tree ∧
        d'.tree.get? (n :: c ++ backupAddress r) = d.tree.get? (n :: c ++ a) ∧
        (∀ x, ¬ r <:+ x → d'.tree.get? x = if x = n :: c ++ a then none else d.tree.get? x) ∧
        ∀ b ∈ kept, d'.tree.get? (b ++ backupAddress r) = d.tree.get? (b ++ backupAddress r) := by
  have hplain := h.plain h₀ hb
  by_cases hfile : HasFile d.tree (n :: c ++ a)
  · obtain ⟨content, mode, hf⟩ := id hfile
    have hnames : ∀ k ∈ n :: (c ++ backupAddress r), isName k = true := by
      intro k hk
      rcases List.mem_append.1 (show k ∈ (n :: c) ++ backupAddress r from hk) with hk | hk
      · exact h₀.isName hb k (List.mem_append_left _ hk)
      · exact Tree.isName_of_mem h.backup k hk
    have hne : n :: c ++ a ≠ n :: c ++ backupAddress r := fun he =>
      h₀.apart _ hb (he ▸ suffix_backup (n :: c))
    obtain ⟨d', hd', hget⟩ : ∃ d', (Transaction.keep (Path.ofAddress (n :: c ++ a))
        (Path.ofAddress (n :: c ++ backupAddress r))).on d = (.ok true, d') ∧ ∀ x,
          d'.tree.get? x = if x = n :: c ++ backupAddress r then some (.file content mode)
            else if x = n :: c ++ a then none
            else if x <:+ c ++ backupAddress r then some .directory else d.tree.get? x :=
      keep_on_file hf (h.clear_backup h₀ hb) hnames (h.backup_ne_directory h₀ hb) hne
    exact .inr ⟨d', hd', hfile, h.after_keep h₀ hb hf hnew hget, by rw [hget, if_pos rfl, hf],
      fun x hx => h.get?_kept hget hx, fun b hmem => h.get?_backup h₀ hb hnew hget hmem⟩
  · exact .inl ⟨keep_on_absent (h₀.isName hb) hplain hfile _, hfile⟩

end Steps

end Transaction

end ActionBundles
