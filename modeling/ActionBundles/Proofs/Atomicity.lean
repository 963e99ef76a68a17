import ActionBundles.Proofs.Regions
import ActionBundles.Proofs.Underway

/-!
# When a failure leaves no trace

A transaction that fails to publish undoes what it has on record: the files that it put into their
places and the files that it kept. It has no record of the directories that it makes for them nor
of the drafts beside them. `LeavesNoTrace` says, of the files in the order in which they are
published, when that does no harm; `publish_leaves_no_trace_iff` is that a failure leaves everything
outside the transaction as it was exactly then.
-/

namespace ActionBundles

namespace Transaction

open ActionBundles.Action

variable {t t' t₀ : Tree} {d : Disk} {a r x : Address}
  {rels seen done fresh kept rest : List Address} {n : Text} {b c : Address} {p : Published}

/-- **When a failure leaves no trace**, where the files of `rest` are published after those of
`done` and `t` is the tree before. The first of them fails without harm if a file stands in its way,
or if its draft cannot be written beside its place. A place that is a directory does harm unless the
draft that stays is one of the published files or was there before. If it does not fail, it must
make no directory and take no other file for its draft. -/
def LeavesNoTrace (t : Tree) (a r : Address) : List Address → List Address → Prop
  | done, (n :: c) :: rest =>
    t.Blocked (c ++ a) ∨
      t.get? (c ++ a) = some .directory ∧
        ((t.get? (draftName n :: (c ++ a)) = some .directory ∨
            maxNameLength < (draftName n).byteLength) ∨
          t.get? (n :: (c ++ a)) = some .directory ∧
            (draftName n :: c ∈ done ∨
              t.get? (draftName n :: (c ++ a)) = t.get? (n :: c ++ stagingAddress r)) ∨
          t.get? (n :: (c ++ a)) ≠ some .directory ∧
            (draftName n :: c ∈ done ∨ t.get? (draftName n :: (c ++ a)) = none) ∧
            LeavesNoTrace t a r (done ++ [n :: c]) rest)
  | _, _ => True

/-! ### One file after another -/

/-- How far publishing has come: the files of `seen` were looked for in their places, and those of
`done` were put there. -/
structure Progress (t₀ : Tree) (a r : Address) (rels seen done kept fresh : List Address)
    (p : Published) (t : Tree) : Prop where
  underway : Underway t₀ a r rels kept t
  records : Records a r done fresh kept p
  mem : ∀ b ∈ seen, b ∈ rels
  ofDone : ∀ b ∈ done, b ∈ seen
  ofKept : ∀ b ∈ kept, b ∈ seen
  ofFresh : ∀ b ∈ fresh, b ∈ seen
  looked : ∀ b ∈ seen, b ∈ kept ∨ b ∈ fresh
  nodup : kept.Nodup

theorem Ready.progress (h : Ready t a r rels) : Progress t a r rels [] [] [] [] {} t where
  underway := h.underway
  records := .nothing
  mem _ hb := by cases hb
  ofDone _ hb := hb
  ofKept _ hb := hb
  ofFresh _ hb := hb
  looked _ hb := by cases hb
  nodup := List.nodup_nil

/-- What keeping the file of `b` changes: nothing if there was none. -/
inductive Keeping (a r b : Address) (kept fresh : List Address) (t : Tree) :
    List Address → List Address → Tree → Prop where
  | absent (h : ¬ HasFile t (b ++ a)) : Keeping a r b kept fresh t kept (fresh ++ [b]) t
  | kept (t' : Tree) (hfile : HasFile t (b ++ a))
      (hsaved : t'.get? (b ++ backupAddress r) = t.get? (b ++ a))
      (houtside : ∀ x, ¬ r <:+ x → t'.get? x = if x = b ++ a then none else t.get? x)
      (hbackup : ∀ b' ∈ kept, t'.get? (b' ++ backupAddress r) = t.get? (b' ++ backupAddress r)) :
      Keeping a r b kept fresh t (kept ++ [b]) fresh t'

section Steps

variable {tx : Transaction} (h₀ : Ready t₀ a r rels)

include h₀

/-- What was published is undone before the failure is passed on. -/
theorem Progress.rollBack (h : Progress t₀ a r rels seen done kept fresh p d.tree) (e : Failure) :
    ∃ d', (rollBack p >>= fun _ => throw e : Action Failure (List Text)).on d = (.error e, d') ∧
      RolledBack a r done fresh kept d.tree d'.tree := by
  obtain ⟨d', hd', hback⟩ := rollBack_on h.records (fun b hb => by
    have hmem : b ∈ rels := by
      rcases List.mem_append.1 hb with hb | hb
      · exact h.mem b (h.ofDone b hb)
      · exact h.mem b (h.ofFresh b hb)
    obtain ⟨n, c, rfl⟩ := List.exists_cons_of_ne_nil (h₀.ne_nil b hmem)
    exact ⟨h₀.isName hmem, h.underway.plain h₀ hmem, h₀.apart _ hmem⟩) h.underway.restore h.nodup
  exact ⟨d', by rw [on_bind_ok hd', on_throw], hback⟩

/-- **Publishing one file**: it is kept or it was not there, and then it is put into its place. -/
theorem Progress.step (h : Progress t₀ a r rels done done kept fresh p d.tree)
    (ha : Path.IsWay a) (hr : Path.IsWay r) (htx : tx.dir = Path.ofAddress r)
    (hb : n :: c ∈ rels) (hnew : n :: c ∉ done) (rest : List Text) :
    ∃ d₁ kept₁ fresh₁ p₁ file outcome,
      Progress t₀ a r rels (done ++ [n :: c]) done kept₁ fresh₁ p₁ d₁.tree ∧
      Keeping a r (n :: c) kept fresh d.tree kept₁ fresh₁ d₁.tree ∧
      t₀.get? (n :: c ++ stagingAddress r) = some file ∧
      (∃ content mode, file = .file content mode) ∧
      PutOutcome d₁ n (c ++ a) file outcome ∧
      (tx.publishEach (Path.ofAddress a) p (Path.ofRelative (n :: c) :: rest)).on d =
        match outcome with
        | (.error e, d₂) => (Transaction.rollBack p₁ >>= fun _ => throw e).on d₂
        | (.ok (), d₂) => (tx.publishEach (Path.ofAddress a)
            (p₁.afterPut (Path.ofAddress (n :: c ++ a))) rest).on d₂ := by
  have hnewKept : n :: c ∉ kept := fun hmem => hnew (h.ofKept _ hmem)
  have hseen : ∀ {l : List Address}, (∀ b ∈ l, b ∈ done) → ∀ b ∈ l, b ∈ done ++ [n :: c] :=
    fun hl b hmem => List.mem_append_left _ (hl b hmem)
  have hone : ∀ {l : List Address}, (∀ b ∈ l, b ∈ done) →
      ∀ b ∈ l ++ [n :: c], b ∈ done ++ [n :: c] := fun hl b hmem => by
    rcases List.mem_append.1 hmem with hmem | hmem
    · exact List.mem_append_left _ (hl b hmem)
    · exact List.mem_append_right _ hmem
  have hrels : ∀ b ∈ done ++ [n :: c], b ∈ rels := fun b hmem => by
    rcases List.mem_append.1 hmem with hmem | hmem
    · exact h.mem b hmem
    · exact List.mem_singleton.1 hmem ▸ hb
  have hput : ∀ {d₁ : Disk} {kept₁ : List Address}, Underway t₀ a r rels kept₁ d₁.tree →
      ∃ file, t₀.get? (n :: c ++ stagingAddress r) = some file ∧
        (∃ content mode, file = .file content mode) ∧
        PutOutcome d₁ n (c ++ a) file ((put (Path.ofAddress (n :: c ++ stagingAddress r))
          (Path.ofAddress (n :: c ++ a))).on d₁) := fun hu => by
    obtain ⟨content, mode, hsource, hbefore⟩ := hu.source h₀ hb
    exact ⟨.file content mode, hbefore, ⟨content, mode, rfl⟩,
      put_outcome (h₀.isName hb) (hu.plain h₀ hb) (hu.draft_ne_link h₀ hb) hsource⟩
  have hcons := fun d => publishEach_cons ha hr htx
    (isWay_of_names fun k hk => h₀.isName hb k (List.mem_append_left a hk)) (h₀.ne_nil _ hb) rest p d
  rcases h.underway.keep h₀ hb hnewKept with ⟨hkeep, habsent⟩ |
    ⟨d₁, hkeep, hfile, hunderway, hsaved, houtside, hbackup⟩
  · obtain ⟨file, hsource, hisFile, ho⟩ := hput h.underway
    refine ⟨d, kept, fresh ++ [n :: c], _, file, _,
      ⟨h.underway, h.records.after_absent (n :: c), hrels, hseen h.ofDone, hseen h.ofKept,
        hone h.ofFresh, fun b hmem => ?_, h.nodup⟩,
      .absent habsent, hsource, hisFile, ho, ?_⟩
    · rcases List.mem_append.1 hmem with hmem | hmem
      · exact (h.looked b hmem).imp_right (List.mem_append_left _)
      · exact .inr (List.mem_append_right _ hmem)
    · have hrun := hcons d
      rw [hkeep] at hrun
      exact hrun
  · obtain ⟨file, hsource, hisFile, ho⟩ := hput hunderway
    have hnodup : (kept ++ [n :: c]).Nodup :=
      List.nodup_append.2 ⟨h.nodup, List.nodup_singleton _, fun b hb b' hb' he =>
        hnewKept (List.mem_singleton.1 hb' ▸ he ▸ hb)⟩
    refine ⟨d₁, kept ++ [n :: c], fresh, _, file, _,
      ⟨hunderway, h.records.after_keep (n :: c), hrels, hseen h.ofDone, hone h.ofKept,
        hseen h.ofFresh, fun b hmem => ?_, hnodup⟩,
      .kept d₁.tree hfile hsaved houtside hbackup, hsource, hisFile, ho, ?_⟩
    · rcases List.mem_append.1 hmem with hmem | hmem
      · exact (h.looked b hmem).imp_left (List.mem_append_left _)
      · exact .inl (List.mem_append_right _ hmem)
    · have hrun := hcons d
      rw [hkeep] at hrun
      exact hrun

/-- How far publishing has come when a file could not be put into its place. -/
theorem Progress.failed {d₂ : Disk} {file : Node} {e : Failure}
    (h : Progress t₀ a r rels seen done kept fresh p d.tree) (hb : n :: c ∈ rels)
    (hfile : ∃ content mode, file = .file content mode)
    (ho : PutOutcome d n (c ++ a) file (.error e, d₂)) :
    Progress t₀ a r rels seen done kept fresh p d₂.tree :=
  { h with underway := h.underway.put h₀ hb hfile ho }

/-- How far publishing has come when a file was put into its place. -/
theorem Progress.put {d₂ : Disk} {file : Node}
    (h : Progress t₀ a r rels (done ++ [n :: c]) done kept fresh p d.tree) (hb : n :: c ∈ rels)
    (hfile : ∃ content mode, file = .file content mode)
    (ho : PutOutcome d n (c ++ a) file (.ok (), d₂)) :
    Progress t₀ a r rels (done ++ [n :: c]) (done ++ [n :: c]) kept fresh
      (p.afterPut (Path.ofAddress (n :: c ++ a))) d₂.tree where
  underway := h.underway.put h₀ hb hfile ho
  records := h.records.after_put (n :: c)
  mem := h.mem
  ofDone _ hmem := hmem
  ofKept := h.ofKept
  ofFresh := h.ofFresh
  looked := h.looked
  nodup := h.nodup

end Steps

/-- What may come of publishing the file `n :: c` after those of `done`, and then those of `rest`. -/
inductive NextOutcome (t₀ : Tree) (a r : Address) (rels done kept fresh : List Address)
    (tx : Transaction) (n : Text) (c : Address) (rest : List Address) (t : Tree) :
    Except Failure (List Text) × Disk → Prop where
  /-- The file is not put into its place, and what was published is undone. -/
  | failed {d₁ d₂ d₃ : Disk} {kept₁ fresh₁ : List Address} {p₁ : Published} {file : Node}
      {e : Failure} (hp : Progress t₀ a r rels (done ++ [n :: c]) done kept₁ fresh₁ p₁ d₁.tree)
      (hk : Keeping a r (n :: c) kept fresh t kept₁ fresh₁ d₁.tree)
      (hsource : t₀.get? (n :: c ++ stagingAddress r) = some file)
      (hfile : ∃ content mode, file = .file content mode)
      (ho : PutOutcome d₁ n (c ++ a) file (.error e, d₂))
      (hback : RolledBack a r done fresh₁ kept₁ d₂.tree d₃.tree) :
      NextOutcome t₀ a r rels done kept fresh tx n c rest t (.error e, d₃)
  /-- The file is put into its place, and publishing goes on. -/
  | put {d₁ d₂ : Disk} {kept₁ fresh₁ : List Address} {p₁ p₂ : Published} {file : Node}
      {outcome : Except Failure (List Text) × Disk}
      (hp : Progress t₀ a r rels (done ++ [n :: c]) done kept₁ fresh₁ p₁ d₁.tree)
      (hk : Keeping a r (n :: c) kept fresh t kept₁ fresh₁ d₁.tree)
      (hsource : t₀.get? (n :: c ++ stagingAddress r) = some file)
      (hfile : ∃ content mode, file = .file content mode)
      (ho : PutOutcome d₁ n (c ++ a) file (.ok (), d₂))
      (hnext : Progress t₀ a r rels (done ++ [n :: c]) (done ++ [n :: c]) kept₁ fresh₁ p₂ d₂.tree)
      (hrun : (tx.publishEach (Path.ofAddress a) p₂ (rest.map Path.ofRelative)).on d₂ = outcome) :
      NextOutcome t₀ a r rels done kept fresh tx n c rest t outcome

/-- **Publishing the next file**, with all that a proof about the whole of publishing needs for
it. -/
theorem Progress.next {tx : Transaction} (h₀ : Ready t₀ a r rels) (ha : Path.IsWay a)
    (hr : Path.IsWay r) (htx : tx.dir = Path.ofAddress r) (hsplit : rels = done ++ b :: rest)
    (h : Progress t₀ a r rels done done kept fresh p d.tree) :
    ∃ n c, b = n :: c ∧ n :: c ∈ rels ∧ n :: c ∉ done ∧ rels = (done ++ [n :: c]) ++ rest ∧
      NextOutcome t₀ a r rels done kept fresh tx n c rest d.tree
        ((tx.publishEach (Path.ofAddress a) p ((b :: rest).map Path.ofRelative)).on d) := by
  obtain ⟨n, c, rfl⟩ := List.exists_cons_of_ne_nil (h₀.ne_nil b (by simp [hsplit]))
  have hb : n :: c ∈ rels := by simp [hsplit]
  have hnew : n :: c ∉ done := fun hmem =>
    List.disjoint_of_nodup_append (hsplit ▸ h₀.nodup) hmem List.mem_cons_self
  obtain ⟨d₁, kept₁, fresh₁, p₁, file, ⟨outcome, d₂⟩, hp, hk, hsource, hfile, ho, heq⟩ :=
    h.step h₀ ha hr htx hb hnew (rest.map Path.ofRelative)
  refine ⟨n, c, rfl, hb, hnew, by simp [hsplit], ?_⟩
  rw [List.map_cons, heq]
  cases outcome with
  | error e =>
    obtain ⟨d₃, hd₃, hback⟩ := (hp.failed h₀ hb hfile ho).rollBack h₀ e
    dsimp only
    rw [hd₃]
    exact .failed hp hk hsource hfile ho hback
  | ok _ => exact .put hp hk hsource hfile ho (hp.put h₀ hb hfile ho) rfl

/-! ### Traces that last -/

/-- A trace at `x` that no rolling back will undo, where the files of `rest` are still to come: a
directory that was none, or a file that is gone and of which there is no record. -/
def Lasting (t₀ : Tree) (a : Address) (done kept rest : List Address) (t : Tree) (x : Address) :
    Prop :=
  (∀ b ∈ kept, x ≠ b ++ a) ∧
    (t.get? x = some .directory ∧ t₀.get? x ≠ some .directory ∨
      HasFile t₀ x ∧ (HasFile t x → ∃ b ∈ done, x = b ++ a) ∧
        ∀ m e, m :: e ∈ rest → x ≠ draftName m :: (e ++ a))

theorem not_hasFile_of_directory (h : t.get? x = some .directory) : ¬ HasFile t x := by
  rintro ⟨content, mode, hfile⟩
  cases h.symm.trans hfile

theorem RolledBack.lasting (h : RolledBack a r done fresh kept t t') (hx : ¬ r <:+ x)
    (hl : Lasting t₀ a done kept rest t x) : t'.get? x ≠ t₀.get? x := by
  obtain ⟨hkept, ⟨hdir, hbefore⟩ | ⟨⟨content, mode, hbefore⟩, hdone, -⟩⟩ := hl
  · rcases h.other x hx hkept with ⟨hsame, -⟩ | ⟨-, hfile, -⟩
    · rw [hsame, hdir]
      exact hbefore.symm
    · exact absurd hfile (not_hasFile_of_directory hdir)
  · rcases h.other x hx hkept with ⟨hsame, hno⟩ | ⟨-, -, hnone⟩
    · rw [hsame, hbefore]
      intro hfile
      obtain ⟨b, hb, rfl⟩ := hdone ⟨content, mode, hfile⟩
      exact hno ⟨b, List.mem_append_left _ hb, rfl⟩ ⟨content, mode, hfile⟩
    · rw [hnone, hbefore]
      simp

theorem Lasting.keeping {kept₁ fresh₁ : List Address} (hl : Lasting t₀ a done kept rest t x)
    (hk : Keeping a r b kept fresh t kept₁ fresh₁ t') (hx : ¬ r <:+ x) (hnew : b ∉ done) :
    Lasting t₀ a done kept₁ rest t' x := by
  cases hk with
  | absent _ => exact hl
  | kept _ hfile _ houtside _ =>
    obtain ⟨hkept, htrace⟩ := hl
    have hne : x ≠ b ++ a := by
      rintro rfl
      rcases htrace with ⟨hdir, -⟩ | ⟨-, hdone, -⟩
      · exact not_hasFile_of_directory hdir hfile
      · obtain ⟨b', hb', he⟩ := hdone hfile
        exact hnew (List.append_cancel_right he ▸ hb')
    refine ⟨fun b' hb' => ?_, ?_⟩
    · rcases List.mem_append.1 hb' with hb' | hb'
      · exact hkept b' hb'
      · exact List.mem_singleton.1 hb' ▸ hne
    · have hsame := (houtside x hx).trans (if_neg hne)
      rwa [hasFile_congr hsame, hsame]

/-- Where something was lost, there will be no other draft. -/
theorem Lasting.ne_draft (hl : Lasting t₀ a done kept ((n :: c) :: rest) t x)
    (hdraft : t.get? (draftName n :: (c ++ a)) = none ∨ HasFile t (draftName n :: (c ++ a))) :
    x ≠ draftName n :: (c ++ a) := by
  rintro rfl
  obtain ⟨-, ⟨hdir, -⟩ | ⟨-, -, hfree⟩⟩ := hl
  · rcases hdraft with hnone | hfile
    · cases hdir.symm.trans hnone
    · exact not_hasFile_of_directory hdir hfile
  · exact hfree n c (by simp) rfl

/-- A directory that is made where there was a trace is a trace as well. -/
theorem Lasting.of_directory {done' rest' : List Address} (hl : Lasting t₀ a done kept rest t x)
    (hdir : t'.get? x = some .directory) : Lasting t₀ a done' kept rest' t' x := by
  obtain ⟨hkept, ⟨-, hbefore⟩ | ⟨⟨content, mode, hbefore⟩, -⟩⟩ := hl
  · exact ⟨hkept, .inl ⟨hdir, hbefore⟩⟩
  · exact ⟨hkept, .inl ⟨hdir, by simp [hbefore]⟩⟩

theorem Lasting.of_eq {done' rest' : List Address} (hl : Lasting t₀ a done kept rest t x)
    (hsame : t'.get? x = t.get? x) (hdone : ∀ b ∈ done, b ∈ done') (hrest : ∀ b ∈ rest', b ∈ rest) :
    Lasting t₀ a done' kept rest' t' x := by
  obtain ⟨hkept, ⟨hdir, hbefore⟩ | ⟨hbefore, hfile, hfree⟩⟩ := hl
  · exact ⟨hkept, .inl ⟨hsame.trans hdir, hbefore⟩⟩
  · refine ⟨hkept, .inr ⟨hbefore, fun hhas => ?_, fun m e hm => hfree m e (hrest _ hm)⟩⟩
    obtain ⟨b, hb, he⟩ := hfile ((hasFile_congr hsame).1 hhas)
    exact ⟨b, hdone b hb, he⟩

section Put

variable {file : Node} {d₂ : Disk}

theorem Lasting.failed {e : Failure} (hnames : ∀ k ∈ c ++ a, isName k = true)
    (ho : PutOutcome d n (c ++ a) file (.error e, d₂))
    (hl : Lasting t₀ a done kept ((n :: c) :: rest) d.tree x) :
    Lasting t₀ a done kept rest d₂.tree x := by
  have hrest : ∀ b ∈ rest, b ∈ (n :: c) :: rest := fun b hb => List.mem_cons_of_mem _ hb
  cases ho with
  | blocked _ _ => exact hl.of_eq rfl (fun _ hb => hb) hrest
  | refused _ _ _ =>
    have hget := Tree.get?_withDirectories (t := d.tree) hnames x
    split at hget
    · exact hl.of_directory hget
    · exact hl.of_eq hget (fun _ hb => hb) hrest
  | stuck _ _ _ _ hdraft hget =>
    have hne := hl.ne_draft hdraft
    exact hl.of_eq ((hget x).trans (if_neg hne)) (fun _ hb => hb) hrest

theorem Lasting.put (ho : PutOutcome d n (c ++ a) file (.ok (), d₂))
    (hl : Lasting t₀ a done kept ((n :: c) :: rest) d.tree x) :
    Lasting t₀ a (done ++ [n :: c]) kept rest d₂.tree x := by
  have hrest : ∀ b ∈ rest, b ∈ (n :: c) :: rest := fun b hb => List.mem_cons_of_mem _ hb
  have hdone : ∀ b ∈ done, b ∈ done ++ [n :: c] := fun b hb => List.mem_append_left _ hb
  cases ho with
  | done _ _ hplace _ hdraft hget =>
    have hx := hget x
    rw [if_neg (hl.ne_draft hdraft)] at hx
    split at hx
    · next hxplace =>
      -- What was lost here is found again, but it is on record as published.
      subst hxplace
      obtain ⟨hkept, ⟨hdir, -⟩ | ⟨hbefore, -, hfree⟩⟩ := hl
      · rcases hplace with hnone | hfile
        · cases hdir.symm.trans hnone
        · exact absurd hfile (not_hasFile_of_directory hdir)
      · exact ⟨hkept, .inr ⟨hbefore, fun _ => ⟨n :: c, by simp, rfl⟩,
          fun m e hm => hfree m e (hrest _ hm)⟩⟩
    split at hx
    · exact hl.of_directory hx
    · exact hl.of_eq hx hdone hrest

end Put

/-- **A trace that lasts is there after the failure.** -/
theorem Progress.lasting {tx : Transaction} (h₀ : Ready t₀ a r rels) (ha : Path.IsWay a)
    (hr : Path.IsWay r) (htx : tx.dir = Path.ofAddress r) (hsplit : rels = done ++ rest)
    (h : Progress t₀ a r rels done done kept fresh p d.tree) (hx : ¬ r <:+ x)
    (hl : Lasting t₀ a done kept rest d.tree x) {e : Failure} {d' : Disk}
    (herr : (tx.publishEach (Path.ofAddress a) p (rest.map Path.ofRelative)).on d = (.error e, d')) :
    d'.tree.get? x ≠ t₀.get? x := by
  induction rest generalizing done kept fresh p d with
  | nil => cases herr
  | cons b rest ih =>
    obtain ⟨n, c, rfl, hb, hnew, hsplit', hnext⟩ := h.next h₀ ha hr htx hsplit
    rw [herr] at hnext
    cases hnext with
    | failed hp hk _ _ ho hback =>
      exact hback.lasting hx ((hl.keeping hk hx hnew).failed
        (fun k hk => h₀.isName hb k (List.mem_cons_of_mem n hk)) ho)
    | put hp hk _ _ ho hnext hrun => exact ih hsplit' hnext ((hl.keeping hk hx hnew).put ho) hrun

/-! ### Nothing but what is on record -/

/-- What differs from the tree before is on record. -/
structure Untraced (t₀ : Tree) (a r : Address) (done kept fresh : List Address) (t : Tree) :
    Prop where
  outside : ∀ x, ¬ r <:+ x → (∀ b ∈ done ++ kept, x ≠ b ++ a) → t.get? x = t₀.get? x
  saved : ∀ b ∈ kept, HasFile t₀ (b ++ a) ∧ t.get? (b ++ backupAddress r) = t₀.get? (b ++ a)
  new : ∀ b ∈ done, b ∉ kept → t₀.get? (b ++ a) = none
  file : ∀ b ∈ done, t.get? (b ++ a) = none ∨ HasFile t (b ++ a)
  absent : ∀ b ∈ fresh, b ∉ done → ¬ HasFile t₀ (b ++ a)

theorem Untraced.nothing (t : Tree) (a r : Address) : Untraced t a r [] [] [] t where
  outside _ _ _ := rfl
  saved _ hb := by cases hb
  new _ hb := by cases hb
  file _ hb := by cases hb
  absent _ hb := by cases hb

/-- What is on record is all undone. -/
theorem RolledBack.get?_eq (h : RolledBack a r done fresh kept t t')
    (hu : Untraced t₀ a r done kept fresh t) (hx : ¬ r <:+ x) : t'.get? x = t₀.get? x := by
  by_cases hkept : ∃ b ∈ kept, x = b ++ a
  · obtain ⟨b, hb, rfl⟩ := hkept
    exact (h.restored b hb).trans (hu.saved b hb).2
  have hother := h.other x hx fun b hb he => hkept ⟨b, hb, he⟩
  by_cases hdone : ∃ b ∈ done, x = b ++ a
  · obtain ⟨b, hb, rfl⟩ := hdone
    rw [hu.new b hb fun hmem => hkept ⟨b, hmem, rfl⟩]
    rcases hother with ⟨hsame, hno⟩ | ⟨-, -, hnone⟩
    · rw [hsame]
      exact (hu.file b hb).resolve_right (hno ⟨b, List.mem_append_left _ hb, rfl⟩)
    · exact hnone
  · have hbefore := hu.outside x hx fun b hb he => by
      rcases List.mem_append.1 hb with hb | hb
      · exact hdone ⟨b, hb, he⟩
      · exact hkept ⟨b, hb, he⟩
    rcases hother with ⟨hsame, -⟩ | ⟨⟨b, hb, he⟩, hfile, -⟩
    · rw [hsame, hbefore]
    · rcases List.mem_append.1 hb with hb | hb
      · exact absurd ⟨b, hb, he⟩ hdone
      · rw [he] at hbefore hfile
        exact absurd ((hasFile_congr hbefore).1 hfile)
          (hu.absent b hb fun hmem => hdone ⟨b, hmem, he⟩)

/-- Keeping a file is on record. -/
theorem Untraced.keeping {kept₁ fresh₁ : List Address} (hu : Untraced t₀ a r done kept fresh t)
    (hk : Keeping a r b kept fresh t kept₁ fresh₁ t') (hkept : ∀ b ∈ kept, b ∈ done)
    (hnew : b ∉ done) (hapart : ∀ b' ∈ done ++ [b], ¬ r <:+ b' ++ a) :
    Untraced t₀ a r done kept₁ fresh₁ t' := by
  have hbefore : t.get? (b ++ a) = t₀.get? (b ++ a) := by
    refine hu.outside _ (hapart b (by simp)) fun b' hb' he => hnew ?_
    rw [List.append_cancel_right he]
    exact (List.mem_append.1 hb').elim id (hkept b')
  cases hk with
  | absent hno =>
    refine ⟨hu.outside, hu.saved, hu.new, hu.file, fun b' hb' hmem => ?_⟩
    rcases List.mem_append.1 hb' with hb' | hb'
    · exact hu.absent b' hb' hmem
    · rw [List.mem_singleton.1 hb', ← hasFile_congr hbefore]
      exact hno
  | kept _ hfile hsaved houtside hbackup =>
    refine ⟨fun x hx hxs => ?_, fun b' hb' => ?_, fun b' hb' hmem => ?_, fun b' hb' => ?_,
      hu.absent⟩
    · rw [houtside x hx, if_neg (hxs b (by simp))]
      exact hu.outside x hx fun b' hb' => hxs b' (by
        rw [← List.append_assoc]
        exact List.mem_append_left _ hb')
    · rcases List.mem_append.1 hb' with hb' | hb'
      · rw [hbackup b' hb']
        exact hu.saved b' hb'
      · rw [List.mem_singleton.1 hb', ← hasFile_congr hbefore, hsaved, hbefore]
        exact ⟨hfile, rfl⟩
    · exact hu.new b' hb' fun hb'' => hmem (List.mem_append_left _ hb'')
    · have hne : b' ++ a ≠ b ++ a := fun he => hnew (List.append_cancel_right he ▸ hb')
      have hsame := (houtside _ (hapart b' (List.mem_append_left _ hb'))).trans (if_neg hne)
      rw [hasFile_congr hsame, hsame]
      exact hu.file b' hb'

/-- What was published was no directory before. -/
theorem Untraced.before_ne_directory (hu : Untraced t₀ a r done kept fresh t) (hmem : b ∈ done) :
    t₀.get? (b ++ a) ≠ some .directory := by
  by_cases hkept : b ∈ kept
  · exact fun hdir => not_hasFile_of_directory hdir (hu.saved b hkept).1
  · simp [hu.new b hmem hkept]

section Before

theorem Progress.mem_rels (h : Progress t₀ a r rels (done ++ [b]) done kept fresh p t) : b ∈ rels :=
  h.mem b (by simp)

/-- The directory of a place is no place of a file. -/
theorem Progress.way_ne (h₀ : Ready t₀ a r rels)
    (h : Progress t₀ a r rels (done ++ [n :: c]) done kept fresh p t) (hx : x <:+ c ++ a)
    (hb : b ∈ done ++ [n :: c]) : x ≠ b ++ a := by
  rintro rfl
  obtain ⟨e, he⟩ := hx
  rw [← List.append_assoc] at he
  exact h₀.not_suffix_tail h.mem_rels (h.mem b hb) ⟨e, List.append_cancel_right he⟩

/-- A draft is no place of a file, unless it was published. -/
theorem draft_ne (hdraft : draftName n :: c ∉ done) (hb : b ∈ done ++ [n :: c]) :
    draftName n :: (c ++ a) ≠ b ++ a := fun he => by
  obtain rfl : draftName n :: c = b := List.append_cancel_right he
  rcases List.mem_append.1 hb with hb | hb
  · exact hdraft hb
  · exact draftName_ne n (List.cons.inj (List.mem_singleton.1 hb)).1

theorem Progress.mem_seen (h : Progress t₀ a r rels seen done kept fresh p t) :
    ∀ b ∈ done ++ kept, b ∈ seen :=
  List.forall_mem_append.2 ⟨h.ofDone, h.ofKept⟩

variable (h₀ : Ready t₀ a r rels) (h : Progress t₀ a r rels (done ++ [n :: c]) done kept fresh p t)
  (hu : Untraced t₀ a r done kept fresh t)

include h₀ h hu

/-- The way to the directory of a place is as it was. -/
theorem Untraced.get?_way (hx : x <:+ c ++ a) : t.get? x = t₀.get? x := by
  exact hu.outside x (h₀.apart_tail h.mem_rels hx) fun b hb =>
    h.way_ne h₀ hx (h.mem_seen b hb)

theorem Untraced.blocked_iff : t.Blocked (c ++ a) ↔ t₀.Blocked (c ++ a) := by
  refine exists_congr fun x => and_congr_right fun hx => ?_
  rw [hu.get?_way h₀ h hx]

/-- A draft is as it was, unless it is a file that was published. -/
theorem Untraced.get?_draft (hdraft : draftName n :: c ∉ done) :
    t.get? (draftName n :: (c ++ a)) = t₀.get? (draftName n :: (c ++ a)) := by
  by_cases hx : r <:+ draftName n :: (c ++ a)
  · rcases List.suffix_cons_iff.1 hx with he | hs
    · have hr : t.get? r = some .directory := Tree.get?_dir h.underway.backup
      have hr₀ : t₀.get? r = some .directory := Tree.get?_dir h₀.backup
      rw [← he, hr, hr₀]
    · exact absurd hs (h₀.apart_tail h.mem_rels (List.suffix_refl _))
  · exact hu.outside _ hx fun b hb => draft_ne hdraft (h.mem_seen b hb)

theorem Untraced.draft_directory_iff : t.get? (draftName n :: (c ++ a)) = some .directory ↔
    t₀.get? (draftName n :: (c ++ a)) = some .directory := by
  by_cases hdraft : draftName n :: c ∈ done
  · refine iff_of_false (fun hdir => ?_) (hu.before_ne_directory hdraft)
    rcases hu.file _ hdraft with hnone | hfile
    · cases hdir.symm.trans hnone
    · exact not_hasFile_of_directory hdir hfile
  · rw [hu.get?_draft h₀ h hdraft]

/-- A place from which no file was kept is as it was. -/
theorem Untraced.get?_place (hnew : n :: c ∉ done) (hkept : n :: c ∉ kept) :
    t.get? (n :: (c ++ a)) = t₀.get? (n :: (c ++ a)) := by
  refine hu.outside (n :: c ++ a) (h₀.apart _ h.mem_rels) fun b hmem he => ?_
  obtain rfl : n :: c = b := List.append_cancel_right he
  exact (List.mem_append.1 hmem).elim hnew hkept

/-- A place was a directory if it is one. -/
theorem Untraced.place_directory_iff (hnew : n :: c ∉ done) :
    t.get? (n :: (c ++ a)) = some .directory ↔ t₀.get? (n :: (c ++ a)) = some .directory := by
  by_cases hkept : n :: c ∈ kept
  · exact iff_of_false (h.underway.restore.place _ hkept)
      fun hdir => not_hasFile_of_directory hdir (hu.saved _ hkept).1
  · rw [hu.get?_place h₀ h hnew hkept]

end Before

/-! ### The condition, case by case -/

section Condition

theorem leavesNoTrace_of_blocked (h : t.Blocked (c ++ a)) :
    LeavesNoTrace t a r done ((n :: c) :: rest) := .inl h

theorem leavesNoTrace_of_refused (hdir : t.get? (c ++ a) = some .directory)
    (hdraft : t.get? (draftName n :: (c ++ a)) = some .directory ∨
      maxNameLength < (draftName n).byteLength) :
    LeavesNoTrace t a r done ((n :: c) :: rest) := .inr ⟨hdir, .inl hdraft⟩

theorem not_leavesNoTrace_of_clear (hblocked : ¬ t.Blocked (c ++ a))
    (hdir : t.get? (c ++ a) ≠ some .directory) :
    ¬ LeavesNoTrace t a r done ((n :: c) :: rest) := by
  rintro (h | ⟨h, -⟩)
  · exact hblocked h
  · exact hdir h

variable (hdir : t.get? (c ++ a) = some .directory)
  (hdraft : t.get? (draftName n :: (c ++ a)) ≠ some .directory) (hname : isName (draftName n) = true)

include hdir hdraft hname

theorem leavesNoTrace_iff_of_stuck (hplace : t.get? (n :: (c ++ a)) = some .directory) :
    LeavesNoTrace t a r done ((n :: c) :: rest) ↔
      draftName n :: c ∈ done ∨
        t.get? (draftName n :: (c ++ a)) = t.get? (n :: c ++ stagingAddress r) := by
  have hlong : ¬ maxNameLength < (draftName n).byteLength := Nat.not_lt.2 (isName_iff.1 hname).2.2
  have hblocked := Tree.not_blocked_of_directory hdir
  simp only [LeavesNoTrace, hblocked, hdir, hdraft, hlong, hplace, false_or, true_and, ne_eq,
    not_true, false_and, or_false]

theorem leavesNoTrace_iff_of_done (hplace : t.get? (n :: (c ++ a)) ≠ some .directory) :
    LeavesNoTrace t a r done ((n :: c) :: rest) ↔
      (draftName n :: c ∈ done ∨ t.get? (draftName n :: (c ++ a)) = none) ∧
        LeavesNoTrace t a r (done ++ [n :: c]) rest := by
  have hlong : ¬ maxNameLength < (draftName n).byteLength := Nat.not_lt.2 (isName_iff.1 hname).2.2
  have hblocked := Tree.not_blocked_of_directory hdir
  conv_lhs => rw [LeavesNoTrace]
  simp only [hblocked, hdir, hdraft, hlong, hplace, false_or, true_and, ne_eq, not_false_iff,
    false_and]

end Condition

/-! ### What comes of putting a file that leaves no trace -/

theorem Untraced.of_get?_eq (h : Untraced t₀ a r done kept fresh t)
    (hsame : ∀ x, t'.get? x = t.get? x) : Untraced t₀ a r done kept fresh t' where
  outside x hx hxs := (hsame x).trans (h.outside x hx hxs)
  saved b hb := by
    rw [hsame]
    exact h.saved b hb
  new := h.new
  file b hb := by
    rw [hasFile_congr (hsame _), hsame]
    exact h.file b hb
  absent := h.absent

/-- A directory that is made for a place is a trace that lasts. -/
theorem Progress.lasting_directory (h₀ : Ready t₀ a r rels)
    (h : Progress t₀ a r rels (done ++ [n :: c]) done kept fresh p t)
    (hdir : t'.get? (c ++ a) = some .directory) (hbefore : t₀.get? (c ++ a) ≠ some .directory)
    (done' rest : List Address) : Lasting t₀ a done' kept rest t' (c ++ a) :=
  ⟨fun b hb => h.way_ne h₀ (List.suffix_refl _) (h.ofKept b hb), .inl ⟨hdir, hbefore⟩⟩

section Outcomes

variable {file : Node} {e : Failure} {d₂ d' : Disk}

/-- A draft that stays is no trace where a file was published under its name. -/
theorem Untraced.stuck (h : Untraced t₀ a r done kept fresh t)
    (hfile : ∃ content mode, file = .file content mode) (hmem : draftName n :: c ∈ done)
    (hapart : ¬ r <:+ draftName n :: (c ++ a))
    (hget : ∀ x, t'.get? x = if x = draftName n :: (c ++ a) then some file else t.get? x) :
    Untraced t₀ a r done kept fresh t' := by
  obtain ⟨content, mode, rfl⟩ := hfile
  refine ⟨fun x hx hxs => ?_, fun b hb => ?_, h.new, fun b hb => ?_, h.absent⟩
  · have hne : x ≠ draftName n :: (c ++ a) := hxs _ (List.mem_append_left _ hmem)
    rw [hget, if_neg hne]
    exact h.outside x hx hxs
  · rw [hget, if_neg]
    · exact h.saved b hb
    · exact fun he => hapart (he ▸ suffix_backup b)
  · by_cases hx : b ++ a = draftName n :: (c ++ a)
    · exact .inr ⟨content, mode, by rw [hget, if_pos hx]⟩
    · have hsame := (hget (b ++ a)).trans (if_neg hx)
      rw [hasFile_congr hsame, hsame]
      exact h.file b hb

variable (h₀ : Ready t₀ a r rels)
  (h : Progress t₀ a r rels (done ++ [n :: c]) done kept fresh p d.tree)
  (hu : Untraced t₀ a r done kept fresh d.tree) (hnew : n :: c ∉ done)
  (hfile : ∃ content mode, file = .file content mode)

include h₀ h hu hnew hfile

/-- A file that is put into its place is on record, and it is no trace that its directory is there
and its draft is gone. -/
theorem Untraced.put (ho : PutOutcome d n (c ++ a) file (.ok (), d₂))
    (hdir : d.tree.get? (c ++ a) = some .directory)
    (hdraft : draftName n :: c ∈ done ∨ t₀.get? (draftName n :: (c ++ a)) = none) :
    Untraced t₀ a r (done ++ [n :: c]) kept fresh d₂.tree := by
  obtain ⟨content, mode, rfl⟩ := hfile
  have hb : n :: c ∈ rels := h.mem_rels
  cases ho with
  | done _ _ hplace _ hdraftFree hget =>
    have hgone : d₂.tree.get? (draftName n :: (c ++ a)) = none := by
      rw [hget, if_neg fun he => draftName_ne n (List.cons.inj he).1, if_pos rfl]
    have hother : ∀ x, x ≠ n :: (c ++ a) → x ≠ draftName n :: (c ++ a) →
        d₂.tree.get? x = d.tree.get? x := fun x hx hx' => by
      rw [hget, if_neg hx, if_neg hx']
      split
      · next hs => rw [Tree.directory_of_suffix hdir hs]
      · rfl
    have hinside : ∀ x, r <:+ x → d₂.tree.get? x = d.tree.get? x := fun x hx =>
      h.underway.get?_inside h₀ hb (.done d₂ ‹_› hplace ‹_› hdraftFree hget) hx
    refine ⟨fun x hx hxs => ?_, fun b hmem => ?_, fun b hmem hmem' => ?_, fun b hmem => ?_,
      fun b hmem hmem' => hu.absent b hmem fun hb => hmem' (List.mem_append_left _ hb)⟩
    · have hplace' : x ≠ n :: (c ++ a) := hxs (n :: c) (by simp)
      have hold : ∀ b ∈ done ++ kept, x ≠ b ++ a := fun b hmem => hxs b (by
        rcases List.mem_append.1 hmem with hmem | hmem <;> simp [hmem])
      by_cases hx' : x = draftName n :: (c ++ a)
      · have hnot : draftName n :: c ∉ done := fun hmem =>
          hxs _ (List.mem_append_left _ (List.mem_append_left _ hmem)) hx'
        rw [hx', hgone, hdraft.resolve_left hnot]
      · rw [hother x hplace' hx']
        exact hu.outside x hx hold
    · rw [hinside _ (suffix_backup b)]
      exact hu.saved b hmem
    · rcases List.mem_append.1 hmem with hmem | hmem
      · exact hu.new b hmem hmem'
      · obtain rfl := List.mem_singleton.1 hmem
        have hsame : d.tree.get? (n :: c ++ a) = t₀.get? (n :: c ++ a) :=
          hu.get?_place h₀ h hnew hmem'
        have hfresh : n :: c ∈ fresh := (h.looked _ (by simp)).resolve_left hmem'
        rw [← hsame]
        exact hplace.resolve_right fun hfile =>
          hu.absent _ hfresh hnew ((hasFile_congr hsame).1 hfile)
    · rcases List.mem_append.1 hmem with hmem | hmem
      · by_cases hx : b ++ a = draftName n :: (c ++ a)
        · rw [hx]
          exact .inl hgone
        · have hne : b ++ a ≠ n :: (c ++ a) := fun he =>
            hnew (List.append_cancel_right (show b ++ a = n :: c ++ a from he) ▸ hmem)
          have hsame := hother _ hne hx
          rw [hasFile_congr hsame, hsame]
          exact hu.file b hmem
      · rw [List.mem_singleton.1 hmem]
        exact .inr ⟨content, mode, by rw [show n :: c ++ a = n :: (c ++ a) from rfl, hget, if_pos rfl]⟩

/-- **What a failure to put a file leaves behind.** -/
theorem Untraced.failed_iff (hsource : t₀.get? (n :: c ++ stagingAddress r) = some file)
    (ho : PutOutcome d n (c ++ a) file (.error e, d₂))
    (hback : RolledBack a r done fresh kept d₂.tree d'.tree) :
    (∀ x, ¬ r <:+ x → d'.tree.get? x = t₀.get? x) ↔ LeavesNoTrace t₀ a r done ((n :: c) :: rest) := by
  have hb : n :: c ∈ rels := h.mem_rels
  have hway := fun {x} hx => hu.get?_way h₀ h (x := x) hx
  cases ho with
  | blocked _ hblocked =>
    exact iff_of_true (fun x hx => hback.get?_eq hu hx)
      (leavesNoTrace_of_blocked ((hu.blocked_iff h₀ h).1 hblocked))
  | refused _ hclear hdraft =>
    have hdraft₀ := hdraft.imp_left (hu.draft_directory_iff h₀ h).1
    by_cases hdir : t₀.get? (c ++ a) = some .directory
    · rw [Tree.withDirectories_of_directory ((hway (List.suffix_refl _)).trans hdir)] at hback
      exact iff_of_true (fun x hx => hback.get?_eq hu hx) (leavesNoTrace_of_refused hdir hdraft₀)
    · have hblocked : ¬ t₀.Blocked (c ++ a) := fun hblocked =>
        (Tree.clear_iff.1 hclear).2 ((hu.blocked_iff h₀ h).2 hblocked)
      have hnames : ∀ k ∈ c ++ a, isName k = true := fun k hk =>
        h₀.isName hb k (List.mem_cons_of_mem n hk)
      have hmade : (d.tree.withDirectories (c ++ a)).get? (c ++ a) = some .directory := by
        rw [Tree.get?_withDirectories hnames, if_pos (List.suffix_refl _)]
      have hout : ¬ r <:+ c ++ a := h₀.apart_tail hb (List.suffix_refl _)
      refine iff_of_false (fun hall => ?_) (not_leavesNoTrace_of_clear hblocked hdir)
      exact hback.lasting hout (h.lasting_directory h₀ hmade hdir done rest) (hall _ hout)
  | stuck _ _ hplace hname hdraft hget =>
    have hdir : t₀.get? (c ++ a) = some .directory :=
      (hway (List.suffix_refl _)).symm.trans (Tree.get?_dir hplace)
    have hfree : t₀.get? (draftName n :: (c ++ a)) ≠ some .directory := fun hdir => by
      rcases hdraft with hnone | hfile'
      · cases ((hu.draft_directory_iff h₀ h).2 hdir).symm.trans hnone
      · exact not_hasFile_of_directory ((hu.draft_directory_iff h₀ h).2 hdir) hfile'
    rw [leavesNoTrace_iff_of_stuck hdir hfree hname
      ((hu.place_directory_iff h₀ h hnew).1 hplace), hsource]
    by_cases hmem : draftName n :: c ∈ done
    · have hout : ¬ r <:+ draftName n :: (c ++ a) := h₀.apart _ (h.mem _ (h.ofDone _ hmem))
      exact iff_of_true (fun x hx => hback.get?_eq (hu.stuck hfile hmem hout hget) hx) (.inl hmem)
    by_cases hsame : t₀.get? (draftName n :: (c ++ a)) = some file
    · refine iff_of_true (fun x hx => hback.get?_eq (hu.of_get?_eq fun x => ?_) hx) (.inr hsame)
      rw [hget]
      split
      · next hx => rw [hx, hu.get?_draft h₀ h hmem, hsame]
      · rfl
    have hout : ¬ r <:+ draftName n :: (c ++ a) := h.underway.not_suffix_draft h₀ hb hdraft
    refine iff_of_false (fun hall => hsame ?_) (by simp [hmem, hsame])
    rw [← hall _ hout]
    rcases hback.other _ hout fun b hb => draft_ne hmem (h.ofKept b hb) with
      ⟨hstays, -⟩ | ⟨⟨b, hb, he⟩, -⟩
    · rw [hstays, hget, if_pos rfl]
    · have hseen : b ∈ done ++ [n :: c] :=
        (List.mem_append.1 hb).elim (h.ofDone b) (h.ofFresh b)
      exact absurd he (draft_ne hmem hseen)

/-- **What a file that was put into its place leaves behind**: nothing, or a trace that lasts. -/
theorem Untraced.put_cases (ho : PutOutcome d n (c ++ a) file (.ok (), d₂)) (hrest : n :: c ∉ rest) :
    Untraced t₀ a r (done ++ [n :: c]) kept fresh d₂.tree ∧
        (LeavesNoTrace t₀ a r done ((n :: c) :: rest) ↔
          LeavesNoTrace t₀ a r (done ++ [n :: c]) rest) ∨
      (∃ x, ¬ r <:+ x ∧ Lasting t₀ a (done ++ [n :: c]) kept rest d₂.tree x) ∧
        ¬ LeavesNoTrace t₀ a r done ((n :: c) :: rest) := by
  have hb : n :: c ∈ rels := h.mem_rels
  have hput := fun hdir hclean => hu.put h₀ h hnew hfile ho hdir hclean
  cases ho with
  | done _ hclear hplace hname hdraft hget =>
  by_cases hdir : t₀.get? (c ++ a) = some .directory
  · have hfree : t₀.get? (draftName n :: (c ++ a)) ≠ some .directory := fun hdir' => by
      have hdir' := (hu.draft_directory_iff h₀ h).2 hdir'
      rcases hdraft with hnone | hhas
      · cases hdir'.symm.trans hnone
      · exact not_hasFile_of_directory hdir' hhas
    have hplace₀ : t₀.get? (n :: (c ++ a)) ≠ some .directory := fun hdir' => by
      have hdir' := (hu.place_directory_iff h₀ h hnew).2 hdir'
      rcases hplace with hnone | hhas
      · cases hdir'.symm.trans hnone
      · exact not_hasFile_of_directory hdir' hhas
    rw [leavesNoTrace_iff_of_done hdir hfree hname hplace₀]
    by_cases hclean : draftName n :: c ∈ done ∨ t₀.get? (draftName n :: (c ++ a)) = none
    · exact .inl ⟨hput ((hu.get?_way h₀ h (List.suffix_refl (c ++ a))).trans hdir) hclean,
        and_iff_right hclean⟩
    · obtain ⟨hmem, hlost⟩ := not_or.1 hclean
      have hsame := hu.get?_draft h₀ h hmem
      have hhas : HasFile t₀ (draftName n :: (c ++ a)) :=
        (hasFile_congr hsame).1 (hdraft.resolve_left fun hnone => hlost (hsame.symm.trans hnone))
      have hgone : d₂.tree.get? (draftName n :: (c ++ a)) = none := by
        rw [hget, if_neg fun he => draftName_ne n (List.cons.inj he).1, if_pos rfl]
      refine .inr ⟨⟨draftName n :: (c ++ a), ?_, fun b hb => draft_ne hmem (h.ofKept b hb),
        .inr ⟨hhas, fun ⟨_, _, hf⟩ => ?_, fun m e hm he => ?_⟩⟩, fun h => hclean h.1⟩
      · exact h.underway.not_suffix_draft h₀ hb hdraft
      · cases hgone.symm.trans hf
      · obtain ⟨hname, he⟩ := List.cons.inj he
        rw [draftName_injective hname, List.append_cancel_right he] at hrest
        exact hrest hm
  · have hout : ¬ r <:+ c ++ a := h₀.apart_tail hb (List.suffix_refl _)
    have hmade : d₂.tree.get? (c ++ a) = some .directory := by
      rw [hget, if_neg (List.cons_ne_self _ _).symm, if_neg (List.cons_ne_self _ _).symm,
        if_pos (List.suffix_refl _)]
    have hblocked : ¬ t₀.Blocked (c ++ a) := fun hblocked =>
      (Tree.clear_iff.1 hclear).2 ((hu.blocked_iff h₀ h).2 hblocked)
    exact .inr ⟨⟨c ++ a, hout, h.lasting_directory h₀ hmade hdir _ rest⟩,
      not_leavesNoTrace_of_clear hblocked hdir⟩

end Outcomes

/-! ### From the first file to the last -/

/-- **Publishing one file after another**, from any moment at which there is no trace. -/
theorem Progress.leavesNoTrace_iff {tx : Transaction} (h₀ : Ready t₀ a r rels) (ha : Path.IsWay a)
    (hr : Path.IsWay r) (htx : tx.dir = Path.ofAddress r) (hsplit : rels = done ++ rest)
    (h : Progress t₀ a r rels done done kept fresh p d.tree)
    (hu : Untraced t₀ a r done kept fresh d.tree) {e : Failure} {d' : Disk}
    (herr : (tx.publishEach (Path.ofAddress a) p (rest.map Path.ofRelative)).on d = (.error e, d')) :
    (∀ x, ¬ r <:+ x → d'.tree.get? x = t₀.get? x) ↔ LeavesNoTrace t₀ a r done rest := by
  induction rest generalizing done kept fresh p d with
  | nil => cases herr
  | cons b rest ih =>
    obtain ⟨n, c, rfl, -, hnew, hsplit', hnext⟩ := h.next h₀ ha hr htx hsplit
    have hapart : ∀ b ∈ done ++ [n :: c], ¬ r <:+ b ++ a := fun b hb =>
      h₀.apart b (hsplit' ▸ List.mem_append_left rest hb)
    rw [herr] at hnext
    cases hnext with
    | failed hp hk hsource hfile ho hback =>
      exact (hu.keeping hk h.ofKept hnew hapart).failed_iff h₀ hp hnew hfile hsource ho hback
    | put hp hk hsource hfile ho hnext hrun =>
      have hrest : n :: c ∉ rest := (List.nodup_cons.1
        (List.nodup_append.1 (hsplit ▸ h₀.nodup)).2.1).1
      rcases (hu.keeping hk h.ofKept hnew hapart).put_cases h₀ hp hnew hfile ho hrest with
        ⟨hu₂, hiff⟩ | ⟨⟨x, hx, hl⟩, hno⟩
      · rw [ih hsplit' hnext hu₂ hrun, hiff]
      · exact iff_of_false
          (fun hall => hnext.lasting h₀ ha hr htx hsplit' hx hl hrun (hall x hx)) hno

/-! ### The whole of publishing -/

/-- The transaction at `r` has gathered its files and kept none, and no link is in the way of
publishing them below `a`. -/
structure Gathered (d : Disk) (a r : Address) : Prop where
  staging : d.tree.get? (stagingAddress r) = some .directory
  noLinks : d.tree.NoLinksIn (stagingAddress r)
  backup : d.tree.get? (backupAddress r) = none
  names : ∀ k ∈ a, isName k = true
  apart : ∀ b ∈ gathered d r, ¬ r <:+ b ++ a
  plain : ∀ b ∈ gathered d r, d.tree.Plain (b ++ a)
  draft : ∀ n c, n :: c ∈ gathered d r →
    ∀ target, d.tree.get? (draftName n :: (c ++ a)) ≠ some (.link target)

theorem draftName_ne_backup (n : Text) : draftName n ≠ "backup" := fun h =>
  absurd (List.cons.inj h).1 (by decide)

/-- The directory for what is kept is in nobody's way. -/
theorem leavesNoTrace_congr (hsame : ∀ x, x ≠ backupAddress r → t'.get? x = t.get? x)
    (hne : ∀ b ∈ rest, b ≠ []) (hapart : ∀ b ∈ rest, ¬ r <:+ b ++ a) :
    LeavesNoTrace t' a r done rest ↔ LeavesNoTrace t a r done rest := by
  induction rest generalizing done with
  | nil => simp only [LeavesNoTrace]
  | cons b rest ih =>
    obtain ⟨n, c, rfl⟩ := List.exists_cons_of_ne_nil (hne b (by simp))
    have hout : ¬ r <:+ n :: (c ++ a) := hapart (n :: c) (by simp)
    have hin : r <:+ backupAddress r := List.suffix_cons _ r
    have hway : ∀ x, x <:+ c ++ a → t'.get? x = t.get? x := fun x hx => hsame x fun he =>
      hout ((he ▸ hin).trans (hx.trans (List.suffix_cons n (c ++ a))))
    have hblocked : t'.Blocked (c ++ a) ↔ t.Blocked (c ++ a) :=
      exists_congr fun x => and_congr_right fun hx => by rw [hway x hx]
    have hplace := hsame (n :: (c ++ a)) fun he => hout (he ▸ hin)
    have hdraft := hsame (draftName n :: (c ++ a)) fun he =>
      draftName_ne_backup n (List.cons.inj he).1
    have hsource := hsame (n :: c ++ stagingAddress r) (staging_ne_backup (n :: c) [])
    have hrest : LeavesNoTrace t' a r (done ++ [n :: c]) rest ↔
        LeavesNoTrace t a r (done ++ [n :: c]) rest :=
      ih (fun b hb => hne b (by simp [hb])) fun b hb => hapart b (by simp [hb])
    simp only [LeavesNoTrace, hblocked, hway _ (List.suffix_refl _), hplace, hdraft, hsource, hrest]

/-- With a directory for what is kept, all is ready. -/
theorem Gathered.ready {d₁ : Disk} (h : Gathered d a r)
    (hsame : ∀ x, x ≠ backupAddress r → d₁.tree.get? x = d.tree.get? x)
    (hmade : d₁.tree.get? (backupAddress r) = some .directory) :
    Ready d₁.tree a r (gathered d r) := by
  obtain ⟨-, hnodup, hmem⟩ := filesBelow_gathered h.staging h.noLinks
  have hstaged : ∀ b, d₁.tree.get? (b ++ stagingAddress r) = d.tree.get? (b ++ stagingAddress r) :=
    fun b => hsame _ (staging_ne_backup b [])
  refine ⟨(hstaged []).trans h.staging, hmade, fun b hne => ?_, hnodup, fun b hb => ((hmem b).1 hb).1,
    fun b hb => (hasFile_congr (hstaged b)).2 ((hmem b).1 hb).2, h.names, h.apart,
    fun b hb x hx target hlink => ?_, fun n c hb target hlink => ?_⟩
  · rw [hsame _ fun he => hne (List.append_left_eq_self.1 he)]
    exact Tree.get?_eq_none_of_append (by simp [h.backup]) hne
  · have hne : x ≠ backupAddress r := fun he =>
      h.apart b hb ((he ▸ List.suffix_cons _ r : r <:+ x).trans hx)
    exact h.plain b hb x hx target ((hsame x hne).symm.trans hlink)
  · have hne : draftName n :: (c ++ a) ≠ backupAddress r := fun he =>
      draftName_ne_backup n (List.cons.inj he).1
    exact h.draft n c hb target ((hsame _ hne).symm.trans hlink)

theorem Gathered.makeBackup_on (h : Gathered d a r) :
    ∃ d₁, ((Disk.makeDirectories (Path.ofAddress (backupAddress r))).within
        (.create (Path.ofAddress (backupAddress r)))).on d = (.ok (), d₁) ∧
      (∀ x, x ≠ backupAddress r → d₁.tree.get? x = d.tree.get? x) ∧
      d₁.tree.get? (backupAddress r) = some .directory := by
  have hr : d.tree.get? r = some .directory := Tree.get?_dir h.staging
  have hnames : ∀ k ∈ backupAddress r, isName k = true :=
    List.forall_mem_cons.2 ⟨by decide, Tree.isName_of_mem hr⟩
  have hclear : d.tree.Clear (backupAddress r) := fun x hx => by
    rcases List.suffix_cons_iff.1 hx with rfl | hx
    · exact .inl h.backup
    · exact .inr (Tree.directory_of_suffix hr hx)
  have hget := Tree.get?_withDirectories (t := d.tree) hnames
  refine ⟨{ d with tree := d.tree.withDirectories (backupAddress r) }, ?_, fun x hx => ?_,
    (hget _).trans (if_pos (List.suffix_refl _))⟩
  · rw [on_within, Disk.makeDirectories_on_clear hclear hnames]
    rfl
  · refine (hget x).trans ?_
    split
    · next hs =>
      rw [Tree.directory_of_suffix hr ((List.suffix_cons_iff.1 hs).resolve_left hx)]
    · rfl

/-- **Publishing is undone up to what is not on record.** A transaction that fails to publish leaves
everything outside its directory as it was exactly if it made no directory and no draft of it took
the place of anything, up to the file that failed. -/
theorem publish_leaves_no_trace_iff {tx : Transaction} (htx : tx.dir = Path.ofAddress r)
    (h : Gathered d a r) {e : Failure} {d' : Disk}
    (herr : (tx.publish (Path.ofAddress a)).on d = (.error e, d')) :
    (∀ x, ¬ r <:+ x → d'.tree.get? x = d.tree.get? x) ↔
      LeavesNoTrace d.tree a r [] (gathered d r) := by
  obtain ⟨d₁, hd₁, hsame, hmade⟩ := h.makeBackup_on
  have hr : Path.IsWay r := (Tree.isWay_of_get? h.staging).tail
  have hne := fun b hb => (((filesBelow_gathered h.staging h.noLinks).2.2 b).1 hb).1
  have hready := h.ready hsame hmade
  rw [publish_on h.staging h.noLinks htx, on_bind_ok hd₁] at herr
  rw [← leavesNoTrace_congr hsame hne h.apart, ← hready.progress.leavesNoTrace_iff hready
    (isWay_of_names h.names) hr htx rfl (.nothing _ _ _) herr]
  refine forall₂_congr fun x hx => ?_
  rw [hsame x fun he => hx (he ▸ List.suffix_cons _ r)]

/-! ### A failure that leaves a trace -/

/-- A disk on which a transaction `/t` has gathered a file `h` for `/p`, where `h` is a directory and
there is a file under the name of the draft. -/
def stuckDisk : Disk where
  tree := (((((Tree.empty.set "p" [] .directory).set "h" ["p"] .directory).set ".h.tmp" ["p"]
    (.file [1] false)).set "t" [] .directory).set "staging" ["t"] .directory).set "h"
    ["staging", "t"] (.file [2] false)

theorem gathered_stuckDisk : gathered stuckDisk ["t".toList] = [["h".toList]] := by decide

theorem noLinks_stuckDisk : ∀ b target, stuckDisk.tree.get? b ≠ some (.link target) := by
  refine Tree.noLinks_set (Tree.noLinks_set (Tree.noLinks_set (Tree.noLinks_set (Tree.noLinks_set
    (Tree.noLinks_set Tree.noLinks_empty ?_) ?_) ?_) ?_) ?_) ?_ <;> simp

theorem publish_leaves_no_trace_iff_stuckDisk :
    ∃ e d', ((⟨Path.ofAddress ["t".toList]⟩ : Transaction).publish
        (Path.ofAddress ["p".toList])).on stuckDisk = (.error e, d') ∧
      ¬ ∀ x, ¬ ["t".toList] <:+ x → d'.tree.get? x = stuckDisk.tree.get? x := by
  have hgathered : Gathered stuckDisk ["p".toList] ["t".toList] := by
    refine ⟨by decide, fun b => noLinks_stuckDisk _, by decide, by decide, ?_,
      fun b _ x _ => noLinks_stuckDisk x, fun n c _ => noLinks_stuckDisk _⟩
    rw [gathered_stuckDisk]
    decide
  have hfails : (((⟨Path.ofAddress ["t".toList]⟩ : Transaction).publish
      (Path.ofAddress ["p".toList])).on stuckDisk).1.isOk = false := by
    decide +kernel
  generalize hrun : ((⟨Path.ofAddress ["t".toList]⟩ : Transaction).publish
    (Path.ofAddress ["p".toList])).on stuckDisk = run at hfails
  obtain ⟨e | _, d'⟩ := run
  · refine ⟨e, d', rfl, fun hall => ?_⟩
    have hclean := (publish_leaves_no_trace_iff rfl hgathered hrun).1 hall
    rw [gathered_stuckDisk, leavesNoTrace_iff_of_stuck (by decide) (by decide)
      (by decide) (by decide)] at hclean
    exact absurd hclean (by decide)
  · cases hfails

end Transaction

end ActionBundles
