import ActionBundles.Proofs.Publication

/-!
# What stands after publishing

What holds before the first file is published, and is neither broken by keeping a file nor by
putting one into its place, holds when all have been published (`Transaction.holds_of_publish`). So
every file is in its place then, unless it has the name of a draft (`Transaction.Settled`), and of
files that all go into one directory no draft is left (`Transaction.get?_draft_of_publish`).
-/

namespace ActionBundles

open ActionBundles.Action

namespace Transaction

variable {t t' t₀ : Tree} {d d' : Disk} {a r c : Address} {tx : Transaction}
  {rels done rest kept fresh : List Address} {n : Text} {p : Published} {files : List Text}
  {holds : List Address → Tree → Prop}

/-- What is known of the files that have been published is kept up by publishing one more: by
keeping the file that is in its place, and by putting it there. -/
structure KeptUp (t₀ : Tree) (a r : Address) (rels : List Address)
    (holds : List Address → Tree → Prop) : Prop where
  keeping : ∀ {done b kept fresh kept' fresh' t t'}, (∀ b ∈ done, b ∈ rels) → b ∈ rels → b ∉ done →
    Keeping a r b kept fresh t kept' fresh' t' → holds done t → holds done t'
  put : ∀ {done n c file} {d d' : Disk}, (∀ b ∈ done, b ∈ rels) → n :: c ∈ rels →
    t₀.get? (n :: (c ++ stagingAddress r)) = some file →
    PutOutcome d n (c ++ a) file (.ok (), d') → holds done d.tree →
      holds (done ++ [n :: c]) d'.tree

/-- Publishing one file after another to the end. -/
theorem Progress.keptUp (h₀ : Ready t₀ a r rels) (ha : Path.IsWay a) (hr : Path.IsWay r)
    (htx : tx.dir = Path.ofAddress r) (hkept : KeptUp t₀ a r rels holds)
    (hsplit : rels = done ++ rest) (h : Progress t₀ a r rels done done kept fresh p d.tree)
    (hd : holds done d.tree)
    (hpublish : (tx.publishEach (Path.ofAddress a) p (rest.map Path.ofRelative)).on d =
      (.ok files, d')) : holds rels d'.tree := by
  induction rest generalizing done kept fresh p d with
  | nil =>
    cases hpublish
    rwa [hsplit, List.append_nil]
  | cons b rest ih =>
    obtain ⟨n, c, rfl, hb, hnew, hsplit', hnext⟩ := h.next h₀ ha hr htx hsplit
    rw [hpublish] at hnext
    cases hnext with
    | put _ hk hsource _ ho hnext hrun =>
      exact ih hsplit' hnext (hkept.put h.mem hb hsource ho (hkept.keeping h.mem hb hnew hk hd)) hrun

/-- **What is kept up from file to file holds after publishing**, if it holds before, where only the
directory of the transaction has changed. -/
theorem holds_of_publish (holds : List Address → Tree → Prop) (htx : tx.dir = Path.ofAddress r)
    (h : Gathered d a r) (hkept : KeptUp d.tree a r (gathered d r) holds)
    (hnil : ∀ t, (∀ x, ¬ r <:+ x → t.get? x = d.tree.get? x) → t.get? r = some .directory →
      holds [] t)
    (hpublish : (tx.publish (Path.ofAddress a)).on d = (.ok files, d')) :
    holds (gathered d r) d'.tree := by
  obtain ⟨d₁, hd₁, hsame, hmade⟩ := h.makeBackup_on
  have hr : Path.IsWay r := (Tree.isWay_of_get? h.staging).tail
  have hready := h.ready hsame hmade
  have hkept₁ : KeptUp d₁.tree a r (gathered d r) holds :=
    { hkept with
      put := fun {_ n c _ _ _} hdone hb hsource =>
        hkept.put hdone hb ((hsame _ (staging_ne_backup (n :: c) [])).symm.trans hsource) }
  rw [publish_on h.staging h.noLinks htx, on_bind_ok hd₁] at hpublish
  have hfirst : holds [] d₁.tree :=
    hnil _ (fun x hx => hsame x fun he => hx (he ▸ List.suffix_cons _ r)) (Tree.get?_dir hmade)
  exact hready.progress.keptUp hready (isWay_of_names h.names) hr htx hkept₁ rfl hfirst hpublish

/-! ### Files in their places -/

/-- The files of `done` are in their places, but for those with the name of a draft. -/
def Settled (t₀ : Tree) (a r : Address) (done : List Address) (t : Tree) : Prop :=
  ∀ n c, n :: c ∈ done → (∀ m, n ≠ draftName m) →
    t.get? (n :: (c ++ a)) = t₀.get? (n :: (c ++ stagingAddress r))

/-- Keeping the file of another place settles nothing anew. -/
theorem Settled.keeping {b : Address} {kept₁ fresh₁ : List Address} (h : Settled t₀ a r done t)
    (hk : Keeping a r b kept fresh t kept₁ fresh₁ t') (hnew : b ∉ done)
    (hapart : ∀ b ∈ done, ¬ r <:+ b ++ a) : Settled t₀ a r done t' := by
  cases hk with
  | absent _ => exact h
  | kept _ _ _ houtside _ =>
    intro n c hb hn
    refine (houtside _ (hapart _ hb)).trans ((if_neg fun he => hnew ?_).trans (h n c hb hn))
    rwa [← List.append_cancel_right (show n :: c ++ a = b ++ a from he)]

/-- A file that is put into its place is settled there, and no other file is moved, unless it has
the name of a draft. -/
theorem Settled.put {file : Node} {d₂ : Disk} (h : Settled t₀ a r done d.tree)
    (hway : ∀ b ∈ done, ¬ b <:+ c)
    (hsource : t₀.get? (n :: (c ++ stagingAddress r)) = some file)
    (ho : PutOutcome d n (c ++ a) file (.ok (), d₂)) :
    Settled t₀ a r (done ++ [n :: c]) d₂.tree := by
  cases ho with
  | done _ _ _ _ _ hget =>
  intro m e hmem hm
  by_cases hsame : m :: e = n :: c
  · cases hsame
    exact (hget _).trans ((if_pos rfl).trans hsource.symm)
  have hmem' : m :: e ∈ done := (List.mem_append.1 hmem).resolve_right fun hlast =>
    hsame (List.mem_singleton.1 hlast)
  have hplace : m :: (e ++ a) ≠ n :: (c ++ a) := fun he =>
    hsame (List.append_cancel_right (show m :: e ++ a = n :: c ++ a from he))
  have hdraft : m :: (e ++ a) ≠ draftName n :: (c ++ a) := fun he => hm n (List.cons.inj he).1
  have hway' : ¬ m :: (e ++ a) <:+ c ++ a := by
    rintro ⟨x, hx⟩
    rw [show x ++ m :: (e ++ a) = (x ++ m :: e) ++ a by simp] at hx
    exact hway _ hmem' ⟨x, List.append_cancel_right hx⟩
  rw [hget, if_neg hplace, if_neg hdraft, if_neg hway']
  exact h m e hmem' hm

/-- None of the files that were gathered lies in another. -/
theorem Gathered.not_suffix (h : Gathered d a r) {b : Address} (hb : n :: c ∈ gathered d r)
    (hb' : b ∈ gathered d r) : ¬ b <:+ c := by
  obtain ⟨d₁, -, hsame, hmade⟩ := h.makeBackup_on
  exact (h.ready hsame hmade).not_suffix_tail hb hb'

/-- **What is published is in its place**, unless it has the name of a draft. -/
theorem settled_of_publish (htx : tx.dir = Path.ofAddress r) (h : Gathered d a r)
    (hpublish : (tx.publish (Path.ofAddress a)).on d = (.ok files, d')) :
    Settled d.tree a r (gathered d r) d'.tree := by
  refine holds_of_publish (Settled d.tree a r) htx h ⟨?_, ?_⟩
    (fun _ _ _ _ _ hmem => absurd hmem List.not_mem_nil) hpublish
  · intro _ _ _ _ _ _ _ _ hdone hb hnew hk hsettled
    exact hsettled.keeping hk hnew fun b hb => h.apart b (hdone b hb)
  · intro _ _ _ _ _ _ hdone hb hsource ho hsettled
    exact hsettled.put (fun b hb' => h.not_suffix hb (hdone b hb')) hsource ho

/-! ### Drafts -/

/-- No file of a bundle has the name of a draft. -/
theorem ne_draftName (hn : n ∈ bundleNames) (m : Text) : n ≠ draftName m := fun he => by
  have hend : draftName m = ('.' :: m ++ ".tm".toList) ++ ['p'] := by simp [draftName]
  have hlast : n.getLast? = some 'p' := by rw [he, hend, List.getLast?_concat]
  have hall : ∀ n ∈ bundleNames, n.getLast? ≠ some 'p' := by decide
  exact hall n hn hlast

/-- **No draft is left** of files that were published into one directory. -/
theorem get?_draft_of_publish {names : List Text} (htx : tx.dir = Path.ofAddress r)
    (h : Gathered d a r) (hnames : AreNames names)
    (hmem : ∀ b ∈ gathered d r, ∃ n ∈ names, b = n :: c)
    (hspares : Address.Spares r (c ++ a) names)
    (hpublish : (tx.publish (Path.ofAddress a)).on d = (.ok files, d'))
    (hb : n :: c ∈ gathered d r) : d'.tree.get? (draftName n :: (c ++ a)) = none := by
  have hname : ∀ {m e}, m :: e ∈ gathered d r → m ∈ names ∧ e = c := fun hm => by
    obtain ⟨k, hk, he⟩ := hmem _ hm
    cases he
    exact ⟨hk, rfl⟩
  refine holds_of_publish
    (fun done t => ∀ m, m :: c ∈ done → t.get? (draftName m :: (c ++ a)) = none) htx h ⟨?_, ?_⟩
    (fun _ _ _ _ hm => absurd hm List.not_mem_nil) hpublish n hb
  · intro done b _ _ _ _ t t' hdone hb _ hk hgone m hm
    have hmnames := (hname (hdone _ hm)).1
    cases hk with
    | absent _ => exact hgone m hm
    | kept _ _ _ houtside _ =>
      refine (houtside _ (hspares.draft m hmnames)).trans ((if_neg fun he => ?_).trans (hgone m hm))
      rw [← List.append_cancel_right (show draftName m :: c ++ a = b ++ a from he)] at hb
      exact (hnames.draft m hmnames).2 (hname hb).1
  · intro done k e _ d₁ d₂ hdone hb _ ho hgone m hm
    obtain ⟨hk, rfl⟩ := hname hb
    cases ho with
    | done _ _ _ _ _ hget =>
    have hmnames : m ∈ names := (List.mem_append.1 hm).elim (fun hm => (hname (hdone _ hm)).1)
      fun hm => by
        cases List.mem_singleton.1 hm
        exact hk
    have hplace : draftName m :: (e ++ a) ≠ k :: (e ++ a) := fun he =>
      (hnames.draft m hmnames).2 ((List.cons.inj he).1 ▸ hk)
    rw [hget, if_neg hplace]
    split
    · rfl
    next hdraft =>
    rw [if_neg (not_suffix_of_cons _ _)]
    refine hgone m ((List.mem_append.1 hm).resolve_right fun hm => hdraft ?_)
    cases List.mem_singleton.1 hm
    rfl

end Transaction

end ActionBundles
