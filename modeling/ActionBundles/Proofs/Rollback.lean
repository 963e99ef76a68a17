import ActionBundles.Proofs.PublishingSteps

/-!
# Rolling back

Where no links are in the way, what was published can be withdrawn, and what was kept can be put
back as long as the places that it was kept from can take it back, which is `CanRestore`.
`rollBack_on` says what stands at every address outside the transaction afterwards.
-/

namespace ActionBundles

namespace Transaction

open ActionBundles.Action

variable {t t₀ : Tree} {d : Disk} {a r p : Address} {rels done fresh kept : List Address}

/-! ### Withdrawing several files -/

/-- The tree without the files at some addresses. -/
def withoutFiles (t : Tree) (ps : List Address) : Tree := ps.foldl withoutFile t

theorem get?_withoutFile_cases (t : Tree) (p x : Address) :
    (withoutFile t p).get? x = t.get? x ∨
      x = p ∧ HasFile t x ∧ (withoutFile t p).get? x = none := by
  by_cases hx : x = p
  · subst hx
    by_cases hfile : HasFile t x
    · have hp : t.get? x ≠ some .directory := by
        obtain ⟨content, mode, hf⟩ := hfile
        simp [hf]
      refine .inr ⟨rfl, hfile, ?_⟩
      rw [withoutFile_of_file hfile, Tree.get?_prune_of_ne_directory hp, if_pos rfl]
    · rw [withoutFile_of_not_file hfile]
      exact .inl rfl
  · exact .inl (get?_withoutFile_of_ne hx)

/-- Where files are withdrawn, there is no file any more; nothing else changes. -/
theorem get?_withoutFiles_cases (t : Tree) (ps : List Address) (x : Address) :
    (withoutFiles t ps).get? x = t.get? x ∧ (x ∈ ps → ¬ HasFile t x) ∨
      x ∈ ps ∧ HasFile t x ∧ (withoutFiles t ps).get? x = none := by
  induction ps generalizing t with
  | nil => exact .inl ⟨rfl, fun h => by cases h⟩
  | cons p ps ih =>
    have hrest : (withoutFiles t (p :: ps)).get? x = (withoutFiles (withoutFile t p) ps).get? x :=
      rfl
    have hsame : (withoutFile t p).get? x = t.get? x →
        (HasFile (withoutFile t p) x ↔ HasFile t x) := fun h => by rw [HasFile, HasFile, h]
    rw [hrest]
    rcases get?_withoutFile_cases t p x with heq | ⟨rfl, hfile, hnone⟩
    · rcases ih (withoutFile t p) with ⟨h, hmem⟩ | ⟨hmem, hfile, h⟩
      · refine .inl ⟨h.trans heq, fun hx => ?_⟩
        rcases List.mem_cons.1 hx with rfl | hx
        · rw [← hsame heq]
          exact not_hasFile_withoutFile t x
        · rw [← hsame heq]
          exact hmem hx
      · exact .inr ⟨List.mem_cons_of_mem p hmem, (hsame heq).1 hfile, h⟩
    · refine .inr ⟨List.mem_cons_self, hfile, ?_⟩
      rcases ih (withoutFile t x) with ⟨h, -⟩ | ⟨-, hfile', -⟩
      · rw [h, hnone]
      · exact absurd hfile' (not_hasFile_withoutFile t x)

theorem plain_withoutFile (h : t.Plain p) (q : Address) : (withoutFile t q).Plain p := by
  intro b hb target hlink
  rcases get?_withoutFile_cases t q b with heq | ⟨-, -, hnone⟩
  · exact h b hb target (heq ▸ hlink)
  · cases hnone.symm.trans hlink

theorem withdraw_all_on (ps : List Address) (hnames : ∀ p ∈ ps, ∀ k ∈ p, isName k = true)
    (hplain : ∀ p ∈ ps, d.tree.Plain p) :
    ((ps.map Path.ofAddress).forM withdraw).on d =
      (.ok (), { d with tree := withoutFiles d.tree ps }) := by
  induction ps generalizing d with
  | nil => rfl
  | cons p ps ih =>
    have hfirst := withdraw_on (hnames p (by simp)) (hplain p (by simp))
    show Action.on (withdraw (Path.ofAddress p) >>= _) d = _
    rw [on_bind_ok hfirst]
    exact ih (fun q hq => hnames q (by simp [hq]))
      fun q hq => plain_withoutFile (hplain q (by simp [hq])) p

/-! ### Restoring several files -/

theorem suffix_backup (b : Address) : r <:+ b ++ backupAddress r :=
  (List.suffix_cons _ r).trans (List.suffix_append b _)

theorem suffix_staging (b : Address) : r <:+ b ++ stagingAddress r :=
  (List.suffix_cons _ r).trans (List.suffix_append b _)

/-- The files of `kept` can be taken back by the places that they were kept from. -/
structure CanRestore (a r : Address) (kept : List Address) (t : Tree) : Prop where
  names : ∀ b ∈ kept, b ≠ [] ∧ ∀ k ∈ b ++ a, isName k = true
  parent : ∀ n c, n :: c ∈ kept → t.get? (c ++ a) = some .directory
  place : ∀ b ∈ kept, t.get? (b ++ a) ≠ some .directory
  file : ∀ b ∈ kept, HasFile t (b ++ backupAddress r)
  apart : ∀ b ∈ kept, ¬ r <:+ b ++ a

/-- The backup of one file is not where another file is put. -/
theorem CanRestore.ne_backup {b : Address} (h : CanRestore a r kept t) (hb : b ∈ kept) (c : Address) :
    c ++ backupAddress r ≠ b ++ a := fun he => h.apart b hb (he ▸ suffix_backup c)

/-- Once the first file has been put back, the others can be put back still. -/
theorem CanRestore.next {t' : Tree} {n : Text} {c : Address}
    (h : CanRestore a r ((n :: c) :: kept) t) (hnodup : ((n :: c) :: kept).Nodup)
    (hother : ∀ x, x ≠ n :: c ++ a → x ≠ n :: c ++ backupAddress r → t'.get? x = t.get? x) :
    CanRestore a r kept t' where
  names b hb := h.names b (by simp [hb])
  parent m e hm := by
    have hdir := h.parent m e (by simp [hm])
    obtain ⟨content, mode, hfile⟩ := h.file (n :: c) (by simp)
    rw [hother _ (fun he => h.place (n :: c) (by simp) (he ▸ hdir)) fun he => by
      cases (he ▸ hdir).symm.trans hfile]
    exact hdir
  place b hb := by
    have hne : b ≠ n :: c := fun he => (List.nodup_cons.1 hnodup).1 (he ▸ hb)
    rw [hother (b ++ a) (fun he => hne (List.append_cancel_right he))
      (h.ne_backup (by simp [hb]) _).symm]
    exact h.place b (by simp [hb])
  file b hb := by
    have hne : b ≠ n :: c := fun he => (List.nodup_cons.1 hnodup).1 (he ▸ hb)
    rw [HasFile, hother (b ++ backupAddress r) (h.ne_backup List.mem_cons_self b)
      fun he => hne (List.append_cancel_right he)]
    exact h.file b (by simp [hb])
  apart b hb := h.apart b (by simp [hb])

/-- All files that were kept are put back, and outside the transaction nothing else changes. -/
theorem restore_all_on (h : CanRestore a r kept d.tree) (hnodup : kept.Nodup) :
    ∃ d', ((kept.map fun b => (Path.ofAddress (b ++ a), Path.ofAddress (b ++ backupAddress r))).forM
        fun k => restore k.1 k.2).on d = (.ok (), d') ∧
      (∀ b ∈ kept, d'.tree.get? (b ++ a) = d.tree.get? (b ++ backupAddress r)) ∧
      ∀ x, ¬ r <:+ x → (∀ b ∈ kept, x ≠ b ++ a) → d'.tree.get? x = d.tree.get? x := by
  induction kept generalizing d with
  | nil => exact ⟨d, rfl, by simp, fun _ _ _ => rfl⟩
  | cons b kept ih =>
    obtain ⟨hne, hnames⟩ := h.names b (by simp)
    obtain ⟨n, c, rfl⟩ := List.exists_cons_of_ne_nil hne
    have hparent := h.parent n c (by simp)
    have hplace := h.place (n :: c) (by simp)
    obtain ⟨content, mode, hfile⟩ := h.file (n :: c) (by simp)
    obtain ⟨d₁, hd₁, hget⟩ : ∃ d₁, (restore (Path.ofAddress (n :: c ++ a))
        (Path.ofAddress (n :: c ++ backupAddress r))).on d = (.ok (), d₁) ∧ ∀ x, d₁.tree.get? x =
          if x = n :: c ++ a then some (.file content mode)
          else if x = n :: c ++ backupAddress r then none
          else if x <:+ c ++ a then some .directory else d.tree.get? x :=
      restore_on hnames (Tree.clear_of_directory hparent) hfile hplace (h.ne_backup List.mem_cons_self _)
    have hother : ∀ x, x ≠ n :: c ++ a → x ≠ n :: c ++ backupAddress r →
        d₁.tree.get? x = d.tree.get? x := fun x hx hx' => by
      rw [hget, if_neg hx, if_neg hx']
      split
      · next hsuffix => rw [Tree.directory_of_suffix hparent hsuffix]
      · rfl
    have hdiff : ∀ b ∈ kept, b ≠ n :: c := fun b hb he =>
      (List.nodup_cons.1 hnodup).1 (he ▸ hb)
    obtain ⟨d₂, hd₂, hkept, hrest⟩ := ih (h.next hnodup hother) (List.nodup_cons.1 hnodup).2
    refine ⟨d₂, ?_, fun b hb => ?_, fun x hx hx' => ?_⟩
    · show Action.on (restore (Path.ofAddress (n :: c ++ a))
        (Path.ofAddress (n :: c ++ backupAddress r)) >>= _) d = _
      rw [on_bind_ok hd₁]
      exact hd₂
    · rcases List.mem_cons.1 hb with rfl | hb
      · rw [hrest _ (h.apart _ (by simp)) fun b hb he => hdiff b hb (List.append_cancel_right he).symm,
          hget, if_pos rfl, hfile]
      · rw [hkept b hb, hother _ (h.ne_backup List.mem_cons_self b)
          fun he => hdiff b hb (List.append_cancel_right he)]
    · rw [hrest x hx fun b hb => hx' b (by simp [hb]), hother x (hx' _ (by simp))
        fun he => hx (he ▸ suffix_backup (n :: c))]

/-! ### Undoing everything -/

/-- What has been published: the files of `done` are in their places, those of `kept` are kept, and
the places of `fresh` held no file. -/
structure Records (a r : Address) (done fresh kept : List Address) (p : Published) : Prop where
  files : p.files = (done.map (· ++ a)).map Path.ofAddress
  created : p.created = (fresh.map (· ++ a)).map Path.ofAddress
  backups : p.backups =
    kept.map fun b => (Path.ofAddress (b ++ a), Path.ofAddress (b ++ backupAddress r))

theorem Records.nothing : Records a r [] [] [] {} := ⟨rfl, rfl, rfl⟩

section Recording

variable {p : Published} (h : Records a r done fresh kept p) (b : Address)

include h

theorem Records.after_absent : Records a r done (fresh ++ [b]) kept
    (p.afterKeep (Path.ofAddress (b ++ a)) (Path.ofAddress (b ++ backupAddress r)) false) where
  files := h.files
  created := by
    show p.created ++ [Path.ofAddress (b ++ a)] = _
    rw [h.created, List.map_append, List.map_append]
    rfl
  backups := h.backups

theorem Records.after_keep : Records a r done fresh (kept ++ [b])
    (p.afterKeep (Path.ofAddress (b ++ a)) (Path.ofAddress (b ++ backupAddress r)) true) where
  files := h.files
  created := h.created
  backups := by
    show p.backups ++ [(Path.ofAddress (b ++ a), Path.ofAddress (b ++ backupAddress r))] = _
    rw [h.backups, List.map_append]
    rfl

theorem Records.after_put :
    Records a r (done ++ [b]) fresh kept (p.afterPut (Path.ofAddress (b ++ a))) where
  files := by
    show p.files ++ [Path.ofAddress (b ++ a)] = _
    rw [h.files, List.map_append, List.map_append]
    rfl
  created := h.created
  backups := h.backups

end Recording

/-- What rolling back makes of a tree: every place from which a file was kept has it again, every
other place of what was published has no file, and outside the transaction nothing else changes. -/
structure RolledBack (a r : Address) (done fresh kept : List Address) (t t' : Tree) : Prop where
  restored : ∀ b ∈ kept, t'.get? (b ++ a) = t.get? (b ++ backupAddress r)
  other : ∀ x, ¬ r <:+ x → (∀ b ∈ kept, x ≠ b ++ a) →
    t'.get? x = t.get? x ∧ ((∃ b ∈ done ++ fresh, x = b ++ a) → ¬ HasFile t x) ∨
      (∃ b ∈ done ++ fresh, x = b ++ a) ∧ HasFile t x ∧ t'.get? x = none

/-- **Rolling back** succeeds wherever what was kept can be put back. -/
theorem rollBack_on {p : Published} (hp : Records a r done fresh kept p)
    (hplaces : ∀ b ∈ done ++ fresh, (∀ k ∈ b ++ a, isName k = true) ∧ d.tree.Plain (b ++ a) ∧
      ¬ r <:+ b ++ a)
    (h : CanRestore a r kept d.tree) (hnodup : kept.Nodup) :
    ∃ d', (rollBack p).on d = (.ok (), d') ∧ RolledBack a r done fresh kept d.tree d'.tree := by
  have hps : p.files ++ p.created = ((done ++ fresh).map (· ++ a)).map Path.ofAddress := by
    rw [hp.files, hp.created, List.map_append, List.map_append]
  have hmem : ∀ x, x ∈ (done ++ fresh).map (· ++ a) ↔ ∃ b ∈ done ++ fresh, x = b ++ a := fun x => by
    rw [List.mem_map]
    exact ⟨fun ⟨b, hb, he⟩ => ⟨b, hb, he.symm⟩, fun ⟨b, hb, he⟩ => ⟨b, hb, he.symm⟩⟩
  have hwithdraw := withdraw_all_on ((done ++ fresh).map (· ++ a))
    (fun x hx => by
      obtain ⟨b, hb, rfl⟩ := (hmem x).1 hx
      exact (hplaces b hb).1)
    fun x hx => by
      obtain ⟨b, hb, rfl⟩ := (hmem x).1 hx
      exact (hplaces b hb).2.1
  have hcases := get?_withoutFiles_cases d.tree ((done ++ fresh).map (· ++ a))
  have hkept : ∀ b, (withoutFiles d.tree ((done ++ fresh).map (· ++ a))).get?
      (b ++ backupAddress r) = d.tree.get? (b ++ backupAddress r) := fun b => by
    rcases hcases (b ++ backupAddress r) with ⟨hsame, -⟩ | ⟨hx, -, -⟩
    · exact hsame
    · obtain ⟨b', hb', he⟩ := (hmem _).1 hx
      exact absurd (he ▸ suffix_backup b) (hplaces b' hb').2.2
  generalize hd₁ : ({ d with tree := withoutFiles d.tree ((done ++ fresh).map (· ++ a)) } : Disk) =
    d₁ at hwithdraw
  have hcases₁ : ∀ x, d₁.tree.get? x = d.tree.get? x ∧
      (x ∈ (done ++ fresh).map (· ++ a) → ¬ HasFile d.tree x) ∨
      x ∈ (done ++ fresh).map (· ++ a) ∧ HasFile d.tree x ∧ d₁.tree.get? x = none :=
    hd₁ ▸ hcases
  have hkept₁ : ∀ b, d₁.tree.get? (b ++ backupAddress r) = d.tree.get? (b ++ backupAddress r) :=
    hd₁ ▸ hkept
  have hrestore : CanRestore a r kept d₁.tree := by
    refine ⟨h.names, fun n c hb => ?_, fun b hb => ?_, fun b hb => ?_, h.apart⟩
    · rcases hcases₁ (c ++ a) with ⟨hsame, -⟩ | ⟨-, ⟨content, mode, hfile⟩, -⟩
      · rw [hsame, h.parent n c hb]
      · cases (h.parent n c hb).symm.trans hfile
    · rcases hcases₁ (b ++ a) with ⟨hsame, -⟩ | ⟨-, -, hnone⟩
      · rw [hsame]
        exact h.place b hb
      · simp [hnone]
    · rw [HasFile, hkept₁]
      exact h.file b hb
  obtain ⟨d₂, hd₂, hback, hother⟩ := restore_all_on hrestore hnodup
  refine ⟨d₂, ?_, ⟨fun b hb => (hback b hb).trans (hkept₁ b), fun x hx hx' => ?_⟩⟩
  · rw [rollBack, hps, on_bind_ok hwithdraw, hp.backups]
    exact hd₂
  · rw [hother x hx hx', ← hmem]
    exact hcases₁ x

end Transaction

end ActionBundles
