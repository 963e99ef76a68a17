import ActionBundles.Proofs.Atomicity
import ActionBundles.Proofs.Confined
import ActionBundles.Proofs.GuardedTransactions

/-!
# Publishing where there is room

A transaction whose files all go into one directory publishes all of them if there is room for them:
if nothing but directories stands on the way, no directory in their places and nothing under the
names of their drafts (`Tree.HasRoom`). `Transaction.Gathers` says what has been gathered at every
moment before that, `Transaction.Placed` what has been published at every moment of it, and
`Transaction.publish_on_room` what publishing comes to.
-/

namespace ActionBundles

open ActionBundles.Action

/-- There is room for files of some names in a directory, or where it can be made. -/
structure Tree.HasRoom (t : Tree) (dir : Address) (names : List Text) : Prop where
  clear : t.Clear dir
  place : ∀ n ∈ names, t.get? (n :: dir) ≠ some .directory
  draft : ∀ n ∈ names, t.get? (Transaction.draftName n :: dir) = none

/-- Neither of two addresses lies below the other. -/
def Address.Apart (a b : Address) : Prop := ¬ a <:+ b ∧ ¬ b <:+ a

theorem Address.Apart.not_suffix {a b : Address} (h : Address.Apart a b) (c : Address) :
    ¬ a <:+ c ++ b := fun hs =>
  (List.suffix_or_suffix_of_suffix hs (List.suffix_append c b)).elim h.1 h.2

theorem Address.Apart.not_suffix_cons {a b : Address} (h : Address.Apart a b) (n : Text) :
    ¬ a <:+ n :: b := h.not_suffix [n]

/-- Whether files of some names in a directory, and their drafts, lie outside `r`. -/
structure Address.Spares (r dir : Address) (names : List Text) : Prop where
  directory : ¬ r <:+ dir
  place : ∀ n ∈ names, ¬ r <:+ n :: dir
  draft : ∀ n ∈ names, ¬ r <:+ Transaction.draftName n :: dir

theorem Address.Apart.spares {r dir : Address} (h : Address.Apart r dir) (names : List Text) :
    Address.Spares r dir names where
  directory := h.1
  place _ _ := h.not_suffix_cons _
  draft _ _ := h.not_suffix_cons _

/-- Room that is left outside `r` is not taken by what happens in `r`. -/
theorem Address.Spares.hasRoom {r dir : Address} {names : List Text} {t t' : Tree}
    (h : Address.Spares r dir names) (hsame : ∀ x, ¬ r <:+ x → t'.get? x = t.get? x)
    (hroom : t.HasRoom dir names) : t'.HasRoom dir names where
  clear x hx := by
    rw [hsame x fun hs => h.directory (hs.trans hx)]
    exact hroom.clear x hx
  place n hn := by
    rw [hsame _ (h.place n hn)]
    exact hroom.place n hn
  draft n hn := by
    rw [hsame _ (h.draft n hn)]
    exact hroom.draft n hn

namespace Transaction

variable {a r c dir : Address} {t t' t₀ : Tree} {d d' : Disk} {n : Text} {node : Node}
  {files : List (Text × Node)} {tx : Transaction} {content : Bytes}

theorem ne_of_suffix {x : Address} (h : x <:+ dir) : x ≠ n :: dir := fun he =>
  not_suffix_of_cons n dir (he ▸ h)

/-! ### Gathering -/

/-- What has been gathered in the transaction at `r`: files of some names, all in one directory. -/
structure Gathers (r c : Address) (files : List (Text × Node)) (t : Tree) : Prop where
  directory : t.get? r = some .directory
  entry : ∀ x node, r <:+ x → t.get? x = some node →
    node = .directory ∧ x <:+ c ++ stagingAddress r ∨
      ∃ n, (n, node) ∈ files ∧ x = n :: (c ++ stagingAddress r)
  file : ∀ n node, (n, node) ∈ files → t.get? (n :: (c ++ stagingAddress r)) = some node

theorem gathers_nothing (hdir : t.get? r = some .directory)
    (hempty : ∀ b, b ≠ [] → t.get? (b ++ r) = none) : Gathers r c [] t where
  directory := hdir
  entry x node hx hnode := by
    obtain ⟨b, rfl⟩ := hx
    by_cases hb : b = []
    · subst hb
      exact .inl ⟨Option.some.inj (hnode.symm.trans hdir), suffix_staging c⟩
    · cases (hempty b hb).symm.trans hnode
  file n node hmem := by cases hmem

/-- Where nothing of its name was gathered before, there is nothing. -/
theorem Gathers.vacant (h : Gathers r c files t) (hnew : ∀ node, (n, node) ∉ files) :
    t.get? (n :: (c ++ stagingAddress r)) = none := by
  cases hget : t.get? (n :: (c ++ stagingAddress r)) with
  | none => rfl
  | some node =>
    rcases h.entry _ node (suffix_staging (n :: c)) hget with ⟨-, hs⟩ | ⟨m, hmem, he⟩
    · exact absurd hs (not_suffix_of_cons n _)
    · obtain ⟨rfl, -⟩ := List.cons.inj he
      exact absurd hmem (hnew node)

theorem Gathers.gather (h : Gathers r c files t) (hnew : ∀ node, (n, node) ∉ files)
    (hget : ∀ x, t'.get? x =
      if x = n :: (c ++ stagingAddress r) then some node
      else if x <:+ c ++ stagingAddress r then some .directory else t.get? x) :
    Gathers r c (files ++ [(n, node)]) t' where
  directory := by
    rw [hget, if_neg (ne_of_suffix (suffix_staging c)), if_pos (suffix_staging c)]
  entry x node' hx hnode := by
    rw [hget] at hnode
    split at hnode
    · next he =>
      cases hnode
      exact .inr ⟨n, by simp, he⟩
    split at hnode
    · next hs =>
      cases hnode
      exact .inl ⟨rfl, hs⟩
    · rcases h.entry x node' hx hnode with hdir | ⟨m, hmem, he⟩
      · exact .inl hdir
      · exact .inr ⟨m, List.mem_append_left _ hmem, he⟩
  file m node' hmem := by
    rw [hget]
    rcases List.mem_append.1 hmem with hmem | hmem
    · have hne : m ≠ n := fun he => hnew node' (he ▸ hmem)
      rw [if_neg fun he => hne (List.cons.inj he).1, if_neg (not_suffix_of_cons m _)]
      exact h.file m node' hmem
    · obtain ⟨rfl, rfl⟩ := Prod.mk.inj (List.mem_singleton.1 hmem)
      exact if_pos rfl

section Stage

variable {rel : Text} (hway : Path.IsWay (n :: dir)) (hname : isName n = true)
  (hnul : ∀ k ∈ dir, '\x00' ∉ k) (hplain : d.tree.Plain dir) (hnone : d.tree.get? (n :: dir) = none)
  (hrel : Path.join tx.stagingDir rel = Path.ofAddress (n :: dir))

include hway hname hnul hplain hnone hrel

/-- What it is that a file has been gathered. -/
theorem stage_on_ok (h : (tx.stage rel content).on d = (.ok (), d')) (x : Address) :
    d'.tree.get? x = if x = n :: dir then some (.file content false)
      else if x <:+ dir then some .directory else d.tree.get? x := by
  rw [stage, hrel, makeParent_ofAddress hway, on_bind, on_within] at h
  have hmade := Disk.made_makeDirectories hway.tail hnul hplain
  generalize (Disk.makeDirectories (Path.ofAddress dir)).on d = made at hmade h
  cases hmade with
  | blocked e _ => cases h
  | stopped e _ _ _ _ _ => cases h
  | done _ hnames =>
    have hget := Tree.get?_withDirectories (t := d.tree) hnames
    have hdir : (d.tree.withDirectories dir).get? dir = some .directory :=
      (hget _).trans (if_pos (List.suffix_refl _))
    have hvacant : (d.tree.withDirectories dir).get? (n :: dir) = none := by
      rw [hget, if_neg (not_suffix_of_cons n dir), hnone]
    have hput : (Disk.write (Path.ofAddress (n :: dir)) content).on
        { d with tree := d.tree.withDirectories dir } = _ :=
      Disk.put_on_vacant (d := { d with tree := d.tree.withDirectories dir }) hdir hname hvacant
    dsimp only [Except.mapError] at h
    rw [on_within, hput] at h
    cases h
    refine (Tree.get?_set_of_directory hdir hname (.inr (by simp [hvacant])) x).trans ?_
    rw [hget]
    rfl

theorem stageExecutable_on_ok (h : (tx.stageExecutable rel content).on d = (.ok (), d'))
    (x : Address) :
    d'.tree.get? x = if x = n :: dir then some (.file content true)
      else if x <:+ dir then some .directory else d.tree.get? x := by
  rw [stageExecutable, on_bind] at h
  cases hstage : (tx.stage rel content).on d with
  | mk outcome d₁ =>
    rw [hstage] at h
    cases outcome with
    | error e => cases h
    | ok _ =>
      have hget := stage_on_ok hway hname hnul hplain hnone hrel hstage
      have hfile : d₁.tree.get? (n :: dir) = some (.file content false) :=
        (hget _).trans (if_pos rfl)
      dsimp only at h
      rw [hrel, on_within, Disk.makeExecutable_on, Disk.find_of_get? hfile (by simp)] at h
      cases h
      refine (Tree.get?_set_of_directory (Tree.get?_dir hfile) hname
        (.inr (by simp [hfile])) x).trans ?_
      rw [hget]
      by_cases hx : x = n :: dir
      · rw [if_pos hx, if_pos hx]
      · rw [if_neg hx, if_neg hx, if_neg hx]

end Stage

/-! ### One file after another -/

/-- The files of `done` have been put into the directory at `c` below `a`. -/
structure Placed (t₀ : Tree) (a r c : Address) (done : List Address) (t : Tree) : Prop where
  file : ∀ b ∈ done, t.get? (b ++ a) = t₀.get? (b ++ stagingAddress r)
  way : done ≠ [] → t.get? (c ++ a) = some .directory
  clear : t.Clear (c ++ a)
  other : ∀ x, ¬ r <:+ x → (∀ b ∈ done, x ≠ b ++ a) → ¬ x <:+ c ++ a → t.get? x = t₀.get? x

theorem placed_nothing (h : t.Clear (c ++ a)) : Placed t a r c [] t where
  file b hb := by cases hb
  way h := absurd rfl h
  clear := h
  other _ _ _ _ := rfl

/-- The names of the files that are to be put into a directory, and of their drafts. -/
structure AreNames (names : List Text) : Prop where
  isName : ∀ n ∈ names, ActionBundles.isName n = true
  draft : ∀ n ∈ names, ActionBundles.isName (draftName n) = true ∧ draftName n ∉ names

theorem areNames_bundleNames : AreNames bundleNames := by
  have hall : ∀ n ∈ bundleNames, ActionBundles.isName n = true ∧
      ActionBundles.isName (draftName n) = true ∧ draftName n ∉ bundleNames := by decide
  exact ⟨fun n hn => (hall n hn).1, fun n hn => (hall n hn).2⟩

section Keeping

variable {b x : Address} {kept fresh kept₁ fresh₁ : List Address}
  (h : Keeping a r b kept fresh t kept₁ fresh₁ t')

include h

theorem Keeping.get?_of_ne (hx : ¬ r <:+ x) (hne : x ≠ b ++ a) : t'.get? x = t.get? x := by
  cases h with
  | absent _ => rfl
  | kept _ _ _ houtside _ => exact (houtside x hx).trans (if_neg hne)

theorem Keeping.place_ne_directory (hapart : ¬ r <:+ b ++ a)
    (hplace : t.get? (b ++ a) ≠ some .directory) : t'.get? (b ++ a) ≠ some .directory := by
  cases h with
  | absent _ => exact hplace
  | kept _ _ _ houtside _ =>
    rw [houtside _ hapart, if_pos rfl]
    simp

end Keeping

section Place

variable {names : List Text} {rels done rest kept fresh : List Address}

/-- **Putting a file where there is room** succeeds. -/
theorem Placed.put {kept₁ fresh₁ : List Address} {outcome : Except Failure Unit × Disk} {d₁ : Disk}
    (hnames : AreNames names) (hroom : t₀.HasRoom (c ++ a) names)
    (hspares : Address.Spares r (c ++ a) names) (hdone : ∀ b ∈ done, ∃ m ∈ names, b = m :: c)
    (hn : n ∈ names) (hnew : n :: c ∉ done) (h : Placed t₀ a r c done d.tree)
    (hk : Keeping a r (n :: c) kept fresh d.tree kept₁ fresh₁ d₁.tree)
    (hsource : t₀.get? (n :: c ++ stagingAddress r) = some node)
    (ho : PutOutcome d₁ n (c ++ a) node outcome) :
    ∃ d₂, outcome = (.ok (), d₂) ∧ Placed t₀ a r c (done ++ [n :: c]) d₂.tree := by
  have hsame : ∀ x, ¬ r <:+ x → x ≠ n :: (c ++ a) → d₁.tree.get? x = d.tree.get? x :=
    fun x => hk.get?_of_ne
  have hway : ∀ x, x <:+ c ++ a → d₁.tree.get? x = d.tree.get? x := fun x hx =>
    hsame x (fun hs => hspares.directory (hs.trans hx)) (ne_of_suffix hx)
  have hother : ∀ m, ¬ r <:+ m :: (c ++ a) → m :: c ∉ done →
      d.tree.get? (m :: (c ++ a)) = t₀.get? (m :: (c ++ a)) := fun m hout hm => by
      refine h.other _ hout (fun b hb he => hm ?_) (not_suffix_of_cons m _)
      have hb' : m :: c = b := List.append_cancel_right (show m :: c ++ a = b ++ a from he)
      rwa [hb']
  have hdraft : d₁.tree.get? (draftName n :: (c ++ a)) = none := by
    rw [hsame _ (hspares.draft n hn) fun he => draftName_ne n (List.cons.inj he).1,
      hother (draftName n) (hspares.draft n hn) fun hmem => ?_, hroom.draft n hn]
    obtain ⟨m, hm, he⟩ := hdone _ hmem
    exact (hnames.draft n hn).2 ((List.cons.inj he).1 ▸ hm)
  have hplace : d₁.tree.get? (n :: (c ++ a)) ≠ some .directory :=
    hk.place_ne_directory (hspares.place n hn)
      (hother n (hspares.place n hn) hnew ▸ hroom.place n hn)
  have hclear : d₁.tree.Clear (c ++ a) := fun x hx => hway x hx ▸ h.clear x hx
  cases ho with
  | blocked e hblocked => exact absurd hblocked (Tree.clear_iff.1 hclear).2
  | refused e _ hrefused =>
    rcases hrefused with hdir | hlong
    · cases hdraft.symm.trans hdir
    · exact absurd hlong (Nat.not_lt.2 (isName_iff.1 (hnames.draft n hn).1).2.2)
  | stuck e _ hdir => exact absurd hdir hplace
  | done d₂ _ _ _ _ hget =>
    have hhere : d₂.tree.get? (c ++ a) = some .directory := by
      rw [hget, if_neg (ne_of_suffix (List.suffix_refl _)),
        if_neg (ne_of_suffix (List.suffix_refl _)), if_pos (List.suffix_refl _)]
    refine ⟨d₂, rfl, fun b hb => ?_, fun _ => hhere, Tree.clear_of_directory hhere,
      fun x hx hxdone hxway => ?_⟩
    · rcases List.mem_append.1 hb with hb | hb
      · obtain ⟨m, hm, rfl⟩ := hdone b hb
        have hmn : m ≠ n := fun he => hnew (he ▸ hb)
        have hmdraft : m ≠ draftName n := fun he => (hnames.draft n hn).2 (he ▸ hm)
        have hne : m :: (c ++ a) ≠ n :: (c ++ a) := fun he => hmn (List.cons.inj he).1
        have hput := hget (m :: (c ++ a))
        rw [if_neg hne, if_neg fun he => hmdraft (List.cons.inj he).1,
          if_neg (not_suffix_of_cons m _), hsame _ (hspares.place m hm) hne] at hput
        exact hput.trans (h.file _ hb)
      · obtain rfl := List.mem_singleton.1 hb
        exact (hget _).trans ((if_pos rfl).trans hsource.symm)
    · have hxn : x ≠ n :: (c ++ a) := hxdone (n :: c) (by simp)
      have hxsame : d.tree.get? x = t₀.get? x :=
        h.other x hx (fun b hb => hxdone b (by simp [hb])) hxway
      rw [hget, if_neg hxn]
      split
      · next he =>
        rw [← hxsame, ← hsame x hx hxn, he, hdraft]
      · exact (hsame x hx hxn).trans hxsame

/-- **Publishing files where there is room** puts all of them into their places. -/
theorem Progress.place_all (hnames : AreNames names) (hroom : t₀.HasRoom (c ++ a) names)
    (hspares : Address.Spares r (c ++ a) names) (hrels : ∀ b ∈ rels, ∃ n ∈ names, b = n :: c)
    (h₀ : Ready t₀ a r rels) (ha : Path.IsWay a) (hr : Path.IsWay r)
    (htx : tx.dir = Path.ofAddress r) (hsplit : rels = done ++ rest) {p : Published}
    (h : Progress t₀ a r rels done done kept fresh p d.tree)
    (hplaced : Placed t₀ a r c done d.tree) :
    ∃ out d' kept', (tx.publishEach (Path.ofAddress a) p (rest.map Path.ofRelative)).on d =
        (.ok out, d') ∧ Placed t₀ a r c rels d'.tree ∧ Underway t₀ a r rels kept' d'.tree := by
  induction rest generalizing done kept fresh p d with
  | nil =>
    rw [List.append_nil] at hsplit
    subst hsplit
    exact ⟨p.files, d, kept, rfl, hplaced, h.underway⟩
  | cons b rest ih =>
    have hb : b ∈ rels := by simp [hsplit]
    obtain ⟨n, hn, rfl⟩ := hrels b hb
    have hnew : n :: c ∉ done := fun hmem =>
      (List.nodup_append.1 (hsplit ▸ h₀.nodup)).2.2 _ hmem _ List.mem_cons_self rfl
    obtain ⟨d₁, kept₁, fresh₁, p₁, file, outcome, hp₁, hk, hsource, hfile, ho, hrun⟩ :=
      h.step h₀ ha hr htx hb hnew (rest.map Path.ofRelative)
    obtain ⟨d₂, rfl, hplaced₂⟩ := hplaced.put hnames hroom hspares
      (fun b hb => hrels b (h.ofDone b hb |> h.mem b)) hn hnew hk hsource ho
    have hrest : rels = (done ++ [n :: c]) ++ rest := by rw [hsplit, List.append_assoc]; rfl
    obtain ⟨out, d', kept', hrun', hplaced', hunderway⟩ :=
      ih hrest (hp₁.put h₀ hb hfile ho) hplaced₂
    exact ⟨out, d', kept', hrun.trans hrun', hplaced', hunderway⟩

end Place

/-! ### Publishing what was gathered -/

/-- The files of `files` stand in the directory `dir`, and nothing else has changed outside the
transaction at `r`. -/
structure Arrived (r dir : Address) (files : List (Text × Node)) (t₀ t : Tree) : Prop where
  file : ∀ n node, (n, node) ∈ files → t.get? (n :: dir) = some node
  directory : t.get? dir = some .directory
  other : ∀ x, ¬ r <:+ x → (∀ n node, (n, node) ∈ files → x ≠ n :: dir) → ¬ x <:+ dir →
    t.get? x = t₀.get? x
  own : t.get? r = some .directory
  links : ∀ x target, ¬ r <:+ x → t.get? x = some (.link target) → t₀.get? x = some (.link target)

/-- **Publishing where there is room** puts every file that was gathered into its place, if all of
them go into one directory. -/
theorem Gathered.arrive {names : List Text} (h : Gathered d a r) (htx : tx.dir = Path.ofAddress r)
    (hne : files ≠ []) (hnames : AreNames names) (hin : ∀ n node, (n, node) ∈ files → n ∈ names)
    (hmem : ∀ b, b ∈ gathered d r ↔ ∃ n node, (n, node) ∈ files ∧ b = n :: c)
    (hfile : ∀ n node, (n, node) ∈ files → d.tree.get? (n :: (c ++ stagingAddress r)) = some node)
    (hroom : d.tree.HasRoom (c ++ a) names) (hspares : Address.Spares r (c ++ a) names) :
    ∃ out d', (tx.publish (Path.ofAddress a)).on d = (.ok out, d') ∧
      Arrived r (c ++ a) files d.tree d'.tree := by
  have hr : Path.IsWay r := (Tree.isWay_of_get? h.staging).tail
  have hgathered : ∀ b ∈ gathered d r, ∃ n ∈ names, b = n :: c := fun b hb => by
    obtain ⟨n, node, hn, rfl⟩ := (hmem b).1 hb
    exact ⟨n, hin n node hn, rfl⟩
  obtain ⟨d₁, hd₁, hsame, hmade⟩ := h.makeBackup_on
  have hsameOut : ∀ x, ¬ r <:+ x → d₁.tree.get? x = d.tree.get? x := fun x hx =>
    hsame x fun he => hx (he ▸ List.suffix_cons _ r)
  have h₁ := h.ready hsame hmade
  have hroom₁ := hspares.hasRoom hsameOut hroom
  obtain ⟨out, d', kept, hrun, hplaced, hunderway⟩ := h₁.progress.place_all hnames hroom₁ hspares
    hgathered h₁ (isWay_of_names h.names) hr htx (List.nil_append _).symm
    (placed_nothing hroom₁.clear)
  have hplace : ∀ n node, (n, node) ∈ files → n :: c ∈ gathered d r := fun n node hn =>
    (hmem _).2 ⟨n, node, hn, rfl⟩
  refine ⟨out, d', ?_, fun n node hn => ?_, ?_, fun x hx hxfiles hxway => ?_,
    Tree.get?_dir hunderway.backup, fun x target hx hlink => ?_⟩
  · rw [publish_on h.staging h.noLinks htx, on_bind_ok hd₁]
    exact hrun
  · refine (hplaced.file _ (hplace n node hn)).trans ?_
    rw [hsame _ (staging_ne_backup (n :: c) [])]
    exact hfile n node hn
  · obtain ⟨⟨n, node⟩, rest, he⟩ := List.exists_cons_of_ne_nil hne
    exact hplaced.way (List.ne_nil_of_mem (hplace n node (by simp [he])))
  · rw [hplaced.other x hx (fun b hb => ?_) hxway, hsameOut x hx]
    obtain ⟨n, node, hn, rfl⟩ := (hmem b).1 hb
    exact hxfiles n node hn
  · rw [← hsameOut x hx]
    exact hunderway.links x target hx hlink

section Publish

variable (h : Gathers r c files d.tree) (hne : files ≠ [])
  (hfiles : ∀ n node, (n, node) ∈ files → ∃ content mode, node = .file content mode)

include h

theorem Gathers.backup : d.tree.get? (backupAddress r) = none := by
  cases hget : d.tree.get? (backupAddress r) with
  | none => rfl
  | some node =>
    have hdiffer : ∀ b, b ++ stagingAddress r ≠ backupAddress r := fun b => staging_ne_backup b []
    rcases h.entry _ _ (List.suffix_cons _ r) hget with ⟨-, hs⟩ | ⟨n, -, he⟩
    · rcases List.suffix_or_suffix_of_suffix hs (List.suffix_append c _) with hs | hs
      · exact absurd (hs.eq_of_length rfl).symm (hdiffer [])
      · exact absurd (hs.eq_of_length rfl) (hdiffer [])
    · exact absurd he.symm (hdiffer (n :: c))

include hfiles in
theorem Gathers.noLinks : d.tree.NoLinksIn (stagingAddress r) := fun b target hlink => by
  rcases h.entry _ _ (suffix_staging b) hlink with ⟨hdir, -⟩ | ⟨n, hmem, -⟩
  · cases hdir
  · obtain ⟨content, mode, hfile⟩ := hfiles n _ hmem
    cases hfile

include hne

theorem Gathers.staging : d.tree.get? (stagingAddress r) = some .directory := by
  obtain ⟨⟨n, node⟩, rest, rfl⟩ := List.exists_cons_of_ne_nil hne
  exact Tree.get?_of_append (b := n :: c) (h.file n node (by simp)) (List.cons_ne_nil n c)

include hfiles

theorem Gathers.mem_gathered {b : Address} :
    b ∈ gathered d r ↔ ∃ n node, (n, node) ∈ files ∧ b = n :: c := by
  rw [(filesBelow_gathered (h.staging hne) (h.noLinks hfiles)).2.2]
  constructor
  · rintro ⟨-, content, mode, hfile⟩
    rcases h.entry _ _ (suffix_staging b) hfile with ⟨hdir, -⟩ | ⟨n, hmem, he⟩
    · cases hdir
    · exact ⟨n, _, hmem, List.append_cancel_right (show b ++ _ = n :: c ++ _ from he)⟩
  · rintro ⟨n, node, hmem, rfl⟩
    obtain ⟨content, mode, rfl⟩ := hfiles n node hmem
    exact ⟨List.cons_ne_nil n c, content, mode, h.file n _ hmem⟩

/-- What a transaction that lies apart has gathered is put into its place where there is room. -/
theorem publish_on_room {names : List Text} (htx : tx.dir = Path.ofAddress r)
    (hroot : d.tree.get? a = some .directory) (hno : d.tree.NoLinksIn a)
    (hnames : AreNames names) (hmem : ∀ n node, (n, node) ∈ files → n ∈ names)
    (hroom : d.tree.HasRoom (c ++ a) names) (hapart : Address.Apart r (c ++ a)) :
    ∃ out d', (tx.publish (Path.ofAddress a)).on d = (.ok out, d') ∧
      Arrived r (c ++ a) files d.tree d'.tree := by
  have hready : Gathered d a r := by
    refine ⟨h.staging hne, h.noLinks hfiles, h.backup, Tree.isName_of_mem hroot, fun b hb => ?_,
      fun b _ => Disk.plain_of_noLinksIn hno hroot, fun n c _ => hno (draftName n :: c)⟩
    obtain ⟨n, node, -, rfl⟩ := (h.mem_gathered hne hfiles).1 hb
    exact hapart.not_suffix_cons n
  exact hready.arrive htx hne hnames hmem (fun b => h.mem_gathered hne hfiles) h.file hroom
    (hapart.spares names)

end Publish

/-- Closing a transaction takes its directory away. -/
theorem close_on (htx : tx.dir = Path.ofAddress r) (hdir : d.tree.get? r = some .directory) :
    tx.close.on d = (.ok (), { d with tree := d.tree.prune r }) := by
  rw [close, on_bind_attempt, htx, Disk.removeAll_on, Disk.place_of_get? hdir]
  rfl

/-- A transaction is closed whether its work fails or not. -/
theorem run_on [Medium] {α : Type} (transactions name : Text)
    (work : Transaction → Action Failure α) (d : Disk) :
    (run transactions name work).on d =
      match (start transactions name).on d with
      | (.error e, d₁) => (.error e, d₁)
      | (.ok tx, d₁) => (((work tx).on d₁).1, (tx.close.on ((work tx).on d₁).2).2) := by
  rw [run, on_bind]
  generalize (start transactions name).on d = started
  obtain ⟨e | tx, d₁⟩ := started
  · rfl
  · dsimp only
    rw [on_bind_attempt]
    generalize (work tx).on d₁ = worked
    obtain ⟨outcome, d₂⟩ := worked
    dsimp only
    rw [on_bind, close, on_bind_attempt]
    cases outcome <;> rfl

end Transaction

/-! ### Publishing bundles -/

/-- The files of a bundle. -/
def Bundle.files (b : Bundle) : List (Text × Node) :=
  [(Bundle.descriptorName, .file b.descriptor.utf8 false),
    (Bundle.dockerfileName, .file b.dockerfile.utf8 false),
    (Bundle.entrypointName, .file b.entrypoint.utf8 true),
    (SyncRecord.fileName, .file b.sync.document.utf8 false)]

theorem Bundle.mem_bundleNames_of_mem_files {b : Bundle} {n : Text} {node : Node}
    (h : (n, node) ∈ b.files) : n ∈ Transaction.bundleNames ∧
      ∃ content mode, node = .file content mode := by
  simp only [files, List.mem_cons, Prod.mk.injEq, List.not_mem_nil, or_false] at h
  rcases h with ⟨rfl, rfl⟩ | ⟨rfl, rfl⟩ | ⟨rfl, rfl⟩ | ⟨rfl, rfl⟩ <;>
    exact ⟨by simp [Transaction.bundleNames], _, _, rfl⟩

namespace Project

variable {l : Layout} {occasion : Occasion} {plan : Plan} {a c dir r : Address} {t₀ : Tree}
  {d d' : Disk} {name n : Text} {files : List (Text × Node)} {tx : Transaction} {content : Bytes}

/-- The files of `files` stand in the directory `dir` of a project without links, and nothing else
has changed but what transactions may change. -/
structure Delivered (a dir : Address) (files : List (Text × Node)) (t₀ t : Tree) : Prop where
  file : ∀ n node, (n, node) ∈ files → t.get? (n :: dir) = some node
  directory : t.get? dir = some .directory
  other : ∀ x, ¬ Scratch a x → (∀ n node, (n, node) ∈ files → x ≠ n :: dir) → ¬ x <:+ dir →
    t.get? x = t₀.get? x
  root : t.get? a = some .directory
  noLinks : t.NoLinksIn a

/-- What may come of publishing files into the directory `dir`, if there is room for them. -/
inductive PublishOutcome (a dir : Address) (files : List (Text × Node)) (t₀ : Tree) :
    Except Failure (List Text) × Disk → Prop
  /-- The transaction fails before it publishes anything. -/
  | failed (e : Failure) (d' : Disk) (h : t₀.Confined (Scratch a) a d'.tree) :
      PublishOutcome a dir files t₀ (.error e, d')
  /-- All files are published. -/
  | done (out : List Text) (d' : Disk) (h : Delivered a dir files t₀ d'.tree) :
      PublishOutcome a dir files t₀ (.ok out, d')

theorem bridge_suffix_of_scratch {x : Address} (h : Scratch a x) : bridgeAddress a <:+ x := by
  rcases h with rfl | rfl | hs
  · exact List.suffix_refl _
  · exact List.suffix_cons _ _
  · exact (List.suffix_cons _ _).trans hs

/-- What lies apart from the program's own directory lies apart from every transaction. -/
theorem apart_transaction (h : Address.Apart (bridgeAddress a) dir) :
    Address.Apart (name :: transactionsAddress a) dir := by
  have hin : bridgeAddress a <:+ name :: transactionsAddress a :=
    (List.suffix_cons _ _).trans (List.suffix_cons _ _)
  exact ⟨fun hs => h.1 (hin.trans hs), fun hs =>
    (List.suffix_or_suffix_of_suffix hs hin).elim h.2 h.1⟩

section Gathering

variable (hc : Path.IsWay (n :: c)) (hname : isName n = true) (hnul : ∀ k ∈ c, '\x00' ∉ k)
  (htx : tx.dir = Path.ofAddress (name :: transactionsAddress a))
  (h : t₀.Confined (Scratch a) a d.tree)
  (hg : Transaction.Gathers (name :: transactionsAddress a) c files d.tree)
  (hnew : ∀ node, (n, node) ∉ files)

include hc htx hg in
theorem join_stagingDir : Path.join tx.stagingDir (Path.ofRelative (n :: c)) =
    Path.ofAddress (n :: (c ++ Transaction.stagingAddress (name :: transactionsAddress a))) := by
  have hr : Path.IsWay (name :: transactionsAddress a) := Tree.isWay_of_get? hg.directory
  rw [Transaction.stagingDir, htx, Path.join_ofAddress hr (by decide)]
  exact Path.join_ofRelative (Transaction.isWay_stagingAddress hr) hc (List.cons_ne_nil n c)

theorem suffix_gathered (name : Text) : transactionsAddress a <:+
    c ++ Transaction.stagingAddress (name :: transactionsAddress a) :=
  (List.suffix_cons _ _).trans (Transaction.suffix_staging c)

include hc hname hnul hg in
theorem way_gathered :
    Path.IsWay (n :: (c ++ Transaction.stagingAddress (name :: transactionsAddress a))) ∧
      ∀ k ∈ n :: (c ++ Transaction.stagingAddress (name :: transactionsAddress a)), '\x00' ∉ k :=
  ⟨hc.append (Transaction.isWay_stagingAddress (Tree.isWay_of_get? hg.directory)),
    List.forall_mem_cons.2 ⟨(isName_iff.1 hname).2.1, List.forall_mem_append.2 ⟨hnul,
      List.forall_mem_cons.2 ⟨by decide, Disk.nul_not_mem_of_get? hg.directory⟩⟩⟩⟩

include hc hname hnul htx h hg hnew

theorem stage_gathers : t₀.Confined (Scratch a) a
      ((tx.stage (Path.ofRelative (n :: c)) content).on d).2.tree ∧
    ∀ d', (tx.stage (Path.ofRelative (n :: c)) content).on d = (.ok (), d') →
      Transaction.Gathers (name :: transactionsAddress a) c (files ++ [(n, .file content false)])
        d'.tree := by
  obtain ⟨hway, hnul'⟩ := way_gathered hc hname hnul hg
  have hrel := join_stagingDir hc htx hg
  have hin := suffix_gathered (a := a) (c := c) name
  refine ⟨confined_stage hway hnul' hin hrel d h, fun d' hd' => hg.gather hnew ?_⟩
  exact Transaction.stage_on_ok hway hname (List.forall_mem_cons.1 hnul').2
    (h.plain ((suffix_transactionsAddress a).trans hin)) (hg.vacant hnew) hrel hd'

theorem stageExecutable_gathers : t₀.Confined (Scratch a) a
      ((tx.stageExecutable (Path.ofRelative (n :: c)) content).on d).2.tree ∧
    ∀ d', (tx.stageExecutable (Path.ofRelative (n :: c)) content).on d = (.ok (), d') →
      Transaction.Gathers (name :: transactionsAddress a) c (files ++ [(n, .file content true)])
        d'.tree := by
  obtain ⟨hway, hnul'⟩ := way_gathered hc hname hnul hg
  have hrel := join_stagingDir hc htx hg
  have hin := suffix_gathered (a := a) (c := c) name
  refine ⟨confined_stageExecutable hway hnul' hin hrel d h, fun d' hd' => hg.gather hnew ?_⟩
  exact Transaction.stageExecutable_on_ok hway hname (List.forall_mem_cons.1 hnul').2
    (h.plain ((suffix_transactionsAddress a).trans hin)) (hg.vacant hnew) hrel hd'

end Gathering

/-- What may come of the work of a transaction: it fails while files are gathered, or all of them
are published. -/
inductive WorkOutcome (a r dir : Address) (files : List (Text × Node)) (t₀ : Tree) :
    Except Failure (List Text) × Disk → Prop
  | failed (e : Failure) (d' : Disk) (h : t₀.Confined (Scratch a) a d'.tree) :
      WorkOutcome a r dir files t₀ (.error e, d')
  | done (out : List Text) (d' : Disk) (t : Tree) (h : t₀.Confined (Scratch a) a t)
      (harrived : Transaction.Arrived r dir files t d'.tree) :
      WorkOutcome a r dir files t₀ (.ok out, d')

/-- Work goes on only after a file has been gathered. -/
theorem WorkOutcome.bind {x : Action Failure Unit} {f : Unit → Action Failure (List Text)}
    {P : Tree → Prop}
    (hx : t₀.Confined (Scratch a) a (x.on d).2.tree ∧ ∀ d', x.on d = (.ok (), d') → P d'.tree)
    (hf : ∀ d', t₀.Confined (Scratch a) a d'.tree → P d'.tree →
      WorkOutcome a r dir files t₀ ((f ()).on d')) :
    WorkOutcome a r dir files t₀ ((x >>= f).on d) := by
  obtain ⟨hconfined, hok⟩ := hx
  rw [on_bind]
  generalize x.on d = outcome at hconfined hok
  obtain ⟨e | _, d'⟩ := outcome
  · exact .failed e d' hconfined
  · exact hf d' hconfined (hok d' rfl)

/-- Where a bundle can be put. -/
structure Place (a c : Address) : Prop where
  isWay : Path.IsWay c
  nul : ∀ k ∈ c, '\x00' ∉ k
  ne_nil : c ≠ []
  apart : Address.Apart (bridgeAddress a) (c ++ a)

theorem Place.not_scratch (h : Place a c) {x : Address} (hx : x <:+ c ++ a ∨ c ++ a <:+ x) :
    ¬ Scratch a x := fun hs => by
  have hbridge := bridge_suffix_of_scratch hs
  rcases hx with hx | ⟨b, rfl⟩
  · exact h.apart.1 (hbridge.trans hx)
  · exact h.apart.not_suffix b hbridge

theorem Place.hasRoom (h : Place a c) {t : Tree} {names : List Text}
    (hroom : t₀.HasRoom (c ++ a) names) (hconfined : t₀.Confined (Scratch a) a t) :
    t.HasRoom (c ++ a) names where
  clear x hx := by
    rw [hconfined.same x (h.not_scratch (.inl hx))]
    exact hroom.clear x hx
  place n hn := by
    rw [hconfined.same _ (h.not_scratch (.inr (List.suffix_cons _ _)))]
    exact hroom.place n hn
  draft n hn := by
    rw [hconfined.same _ (h.not_scratch (.inr (List.suffix_cons _ _)))]
    exact hroom.draft n hn

/-- Gathers the files of a plan. -/
def Plan.gather [Medium] (plan : Plan) (tx : Transaction) : Action Failure Unit := do
  tx.stage (plan.artifact ++ '/' :: Bundle.descriptorName) plan.bundle.descriptor.utf8
  tx.stage (plan.artifact ++ '/' :: Bundle.dockerfileName) plan.bundle.dockerfile.utf8
  tx.stageExecutable (plan.artifact ++ '/' :: Bundle.entrypointName) plan.bundle.entrypoint.utf8
  tx.stageJson (plan.artifact ++ '/' :: SyncRecord.fileName) plan.bundle.sync.toJson

theorem publish_eq [Medium] (l : Layout) (occasion : Occasion) (plan : Plan) :
    publish l occasion plan = Transaction.run l.transactionsDir occasion.transactionName fun tx =>
      plan.gather tx >>= fun _ => (tx.publish l.root).during (.publishBundle plan.artifact) := by
  simp only [publish, Plan.gather, bind_assoc]

/-- The work of the transaction that publishes a bundle. -/
theorem work_outcome (hc : Place a c) (hl : l.root = Path.ofAddress a)
    (hartifact : plan.artifact = Path.ofRelative c)
    (hroom : t₀.HasRoom (c ++ a) Transaction.bundleNames)
    (htx : tx.dir = Path.ofAddress (name :: transactionsAddress a))
    (h : t₀.Confined (Scratch a) a d.tree)
    (hg : Transaction.Gathers (name :: transactionsAddress a) c [] d.tree) :
    WorkOutcome a (name :: transactionsAddress a) (c ++ a) plan.bundle.files t₀
      ((plan.gather tx >>= fun _ =>
        (tx.publish l.root).during (.publishBundle plan.artifact)).on d) := by
  have hrel : ∀ n, plan.artifact ++ '/' :: n = Path.ofRelative (n :: c) := fun n => by
    rw [hartifact, Path.ofRelative_cons hc.ne_nil]
  have hname : ∀ n ∈ Transaction.bundleNames, isName n = true ∧ Path.isStep n = true := by
    have hall : ∀ n ∈ Transaction.bundleNames, isName n = true ∧ Path.isStep n = true := by decide
    exact hall
  have hstep : ∀ n ∈ Transaction.bundleNames, Path.IsWay (n :: c) := fun n hn =>
    hc.isWay.cons (hname n hn).2
  have hnew : ∀ {n : Text} {files : List (Text × Node)} (names : List Text),
      files.map Prod.fst = names → n ∉ names → ∀ node, (n, node) ∉ files :=
    fun names he hn node hmem => hn (he ▸ List.mem_map_of_mem (f := Prod.fst) hmem)
  simp only [Plan.gather, bind_assoc, hrel]
  refine WorkOutcome.bind (stage_gathers (hstep _ (by decide)) (by decide) hc.nul htx h hg
    (by simp)) fun d₁ h₁ hg₁ => ?_
  refine WorkOutcome.bind (stage_gathers (hstep _ (by decide)) (by decide) hc.nul htx h₁ hg₁
    (hnew [Bundle.descriptorName] rfl (by decide))) fun d₂ h₂ hg₂ => ?_
  refine WorkOutcome.bind (stageExecutable_gathers (hstep _ (by decide)) (by decide) hc.nul htx h₂
    hg₂ (hnew [Bundle.descriptorName, Bundle.dockerfileName] rfl (by decide))) fun d₃ h₃ hg₃ => ?_
  refine WorkOutcome.bind (stage_gathers (hstep _ (by decide)) (by decide) hc.nul htx h₃ hg₃
    (hnew [Bundle.descriptorName, Bundle.dockerfileName, Bundle.entrypointName] rfl (by decide)))
    fun d₄ h₄ hg₄ => ?_
  obtain ⟨out, d₅, hpublish, harrived⟩ := Transaction.publish_on_room hg₄ (List.cons_ne_nil _ _)
    (fun n node hn => (Bundle.mem_bundleNames_of_mem_files hn).2) htx
    h₄.root h₄.noLinks Transaction.areNames_bundleNames
    (fun n node hn => (Bundle.mem_bundleNames_of_mem_files hn).1) (hc.hasRoom hroom h₄)
    (apart_transaction hc.apart)
  rw [on_during, hl, hpublish]
  exact .done out d₅ d₄.tree h₄ harrived

/-- **Publishing a bundle where there is room** fails before anything is published, or puts all
files of the bundle into their places and changes nothing else. -/
theorem publish_outcome (hc : Place a c) (hl : l.root = Path.ofAddress a)
    (hname : isName occasion.transactionName = true)
    (hroot : d.tree.get? a = some .directory) (hno : d.tree.NoLinksIn a)
    (hartifact : plan.artifact = Path.ofRelative c)
    (hroom : d.tree.HasRoom (c ++ a) Transaction.bundleNames) :
    PublishOutcome a (c ++ a) plan.bundle.files d.tree ((publish l occasion plan).on d) := by
  have ha := Tree.isWay_of_get? hroot
  rw [publish_eq, transactionsDir_eq ha hl, Transaction.run_on]
  obtain ⟨hconfined, hstarted⟩ := start_confined ha (Disk.nul_not_mem_of_get? hroot) hname
    (.refl hroot hno)
  generalize (Transaction.start (Path.ofAddress (transactionsAddress a))
    occasion.transactionName).on d = started at hconfined hstarted
  obtain ⟨e | tx, d₁⟩ := started
  · exact .failed e d₁ hconfined
  obtain ⟨htx, hown, hempty⟩ := hstarted tx d₁ rfl
  have hway := Tree.isWay_of_get? hown
  have hwork : WorkOutcome a _ (c ++ a) plan.bundle.files d.tree _ := work_outcome hc hl hartifact
    hroom htx hconfined (Transaction.gathers_nothing hown hempty)
  dsimp only
  generalize Action.on _ d₁ = worked at hwork ⊢
  cases hwork with
  | failed e d₂ h₂ => exact .failed e _ (confined_close hway htx d₂ h₂)
  | done out d₂ t ht harrived =>
    rw [Transaction.close_on htx harrived.own]
    have hin : transactionsAddress a <:+ occasion.transactionName :: transactionsAddress a :=
      List.suffix_cons _ _
    have houtside : ∀ x, ¬ Scratch a x →
        ¬ occasion.transactionName :: transactionsAddress a <:+ x := fun x hx hs =>
      hx (.inr (.inr (hin.trans hs)))
    have hget : ∀ x, ¬ Scratch a x →
        (d₂.tree.prune (occasion.transactionName :: transactionsAddress a)).get? x =
          d₂.tree.get? x := fun x hx => Tree.get?_prune_of_not_suffix (houtside x hx)
    have hdir := hc.not_scratch (.inl (List.suffix_refl (c ++ a)))
    have hrootOut : ¬ Scratch a a := hc.not_scratch (.inl (List.suffix_append c a))
    refine .done out _ ⟨fun n node hn => ?_, (hget _ hdir).trans harrived.directory,
      fun x hx hxfiles hxway => ?_, ?_, fun b target hlink => ?_⟩
    · exact (hget _ (hc.not_scratch (.inr (List.suffix_cons _ _)))).trans (harrived.file n node hn)
    · exact (hget x hx).trans <|
        (harrived.other x (houtside x hx) hxfiles hxway).trans (ht.same x hx)
    · exact (hget a hrootOut).trans
        (Tree.directory_of_suffix harrived.directory (List.suffix_append c a))
    · rw [Tree.get?_prune] at hlink
      split at hlink
      · cases hlink
      · next hout =>
        have hnot : ¬ occasion.transactionName :: transactionsAddress a <:+ b ++ a := fun hs =>
          hout ⟨fun hnil => ?_, hs⟩
        · exact ht.noLinks b target (harrived.links _ target hnot hlink)
        · rw [hnil] at hs
          exact absurd (List.suffix_nil.1 hs) (List.cons_ne_nil _ _)

end Project

end ActionBundles
