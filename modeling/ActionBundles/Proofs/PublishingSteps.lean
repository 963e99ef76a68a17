import ActionBundles.Proofs.Regions

/-!
# The steps of publishing

What it does to keep a file, to put one into its place, to withdraw one and to restore one, where
no links are in the way: either nothing, or a change of the entries that are named here. The last
lemma of each step says what stands at every address afterwards.
-/

namespace ActionBundles

namespace Transaction

open ActionBundles.Action

variable {d : Disk} {p dir r : Address} {n : Text} {content : Bytes} {mode : Bool}

/-- Where the files of the transaction at `r` are gathered. -/
def stagingAddress (r : Address) : Address := ("staging" : Text) :: r

/-- Where the files of the transaction at `r` are kept. -/
def backupAddress (r : Address) : Address := ("backup" : Text) :: r

theorem isWay_stagingAddress (hr : Path.IsWay r) : Path.IsWay (stagingAddress r) :=
  hr.cons (by decide)

theorem isWay_backupAddress (hr : Path.IsWay r) : Path.IsWay (backupAddress r) :=
  hr.cons (by decide)

theorem staging_ne_backup (b c : Address) : b ++ stagingAddress r ≠ c ++ backupAddress r := by
  intro h
  have hs : stagingAddress r <:+ c ++ backupAddress r := ⟨b, h⟩
  rcases List.suffix_or_suffix_of_suffix hs (List.suffix_append c _) with hs | hs
  · exact absurd (List.cons.inj (hs.eq_of_length rfl)).1 (by decide)
  · exact absurd (List.cons.inj (hs.eq_of_length rfl)).1 (by decide)

/-- The name under which a file is put beside its place. -/
def draftName (n : Text) : Text := '.' :: n ++ ".tmp".toList

theorem isStep_draftName {n : Text} (h : Path.isStep n = true) :
    Path.isStep (draftName n) = true := by
  obtain ⟨hne, -, -, hslash⟩ := Path.isStep_iff.1 h
  obtain ⟨c, rest, rfl⟩ := List.exists_cons_of_ne_nil hne
  refine Path.isStep_iff.2 ⟨by simp [draftName], by simp [draftName], by simp [draftName], ?_⟩
  simpa [draftName] using hslash

/-- What it is to put a file into the place of an address. -/
theorem put_eq [Medium] {source n : Text} {dir : Address} (h : Path.IsWay (n :: dir)) :
    put source (Path.ofAddress (n :: dir)) = (do
      makeParent (Path.ofAddress (n :: dir))
      (Disk.copy source (Path.ofAddress (draftName n :: dir))).within
        (.publish (Path.ofAddress (n :: dir)))
      (Disk.move (Path.ofAddress (draftName n :: dir)) (Path.ofAddress (n :: dir))).within
        (.publish (Path.ofAddress (n :: dir)))) := by
  rw [put, Path.fileName?_ofAddress h, Path.parent?_ofAddress h, Option.getD_some,
    Option.getD_some, ← Path.join_ofAddress h.tail (isStep_draftName (h n (by simp)))]
  rfl

/-- Whether a file stands at an address. -/
def HasFile (t : Tree) (p : Address) : Prop := ∃ content mode, t.get? p = some (.file content mode)

theorem hasFile_congr {t t' : Tree} (h : t'.get? p = t.get? p) : HasFile t' p ↔ HasFile t p := by
  rw [HasFile, HasFile, h]

theorem none_or_hasFile {t : Tree} (hdirectory : t.get? p ≠ some .directory)
    (hlink : ∀ target, t.get? p ≠ some (.link target)) : t.get? p = none ∨ HasFile t p := by
  cases h : t.get? p with
  | none => exact .inl rfl
  | some node =>
    cases node with
    | directory => exact absurd h hdirectory
    | file content mode => exact .inr ⟨content, mode, h⟩
    | link target => exact absurd h (hlink target)

theorem makeParent_ofAddress [Medium] (h : Path.IsWay (n :: dir)) :
    makeParent (Path.ofAddress (n :: dir)) =
      (Disk.makeDirectories (Path.ofAddress dir)).within (.create (Path.ofAddress dir)) := by
  rw [makeParent, Path.parent?_ofAddress h]

theorem isWay_of_names {p : Address} (h : ∀ k ∈ p, isName k = true) : Path.IsWay p :=
  fun k hk => isStep_of_isName (h k hk)

theorem nul_not_mem_of_names {p : Address} (h : ∀ k ∈ p, isName k = true) : ∀ k ∈ p, '\x00' ∉ k :=
  fun k hk => (isName_iff.1 (h k hk)).2.1

theorem makeParent_on_clear (hclear : d.tree.Clear dir) (hnames : ∀ k ∈ n :: dir, isName k = true) :
    (makeParent (Path.ofAddress (n :: dir))).on d =
      (.ok (), { d with tree := d.tree.withDirectories dir }) := by
  rw [makeParent_ofAddress (isWay_of_names hnames), on_within,
    Disk.makeDirectories_on_clear hclear fun k hk => hnames k (List.mem_cons_of_mem n hk)]
  rfl

theorem makeParent_on_blocked (hplain : d.tree.Plain dir) (hblocked : d.tree.Blocked dir)
    (hnames : ∀ k ∈ n :: dir, isName k = true) :
    ∃ e, (makeParent (Path.ofAddress (n :: dir))).on d = (.error e, d) := by
  obtain ⟨e, he⟩ := Disk.makeDirectories_on_blocked hplain hblocked fun k hk =>
    hnames k (List.mem_cons_of_mem n hk)
  refine ⟨.refused (.create (Path.ofAddress dir)) e, ?_⟩
  rw [makeParent_ofAddress (isWay_of_names hnames), on_within, he]
  rfl

theorem moveOrCopy_on {node : Node} (h : d.tree.get? p = some node) (hnode : node ≠ .directory)
    (hdir : d.tree.get? dir = some .directory) (hn : isName n = true)
    (hplace : d.tree.get? (n :: dir) ≠ some .directory) (hne : p ≠ n :: dir) :
    (moveOrCopy (Path.ofAddress p) (Path.ofAddress (n :: dir))).on d =
      (.ok (), { d with tree := (d.tree.prune p).set n dir node }) := by
  rw [moveOrCopy, on_bind_attempt, Disk.move_on_place h hnode hdir hn hplace hne]
  rfl

/-- What stands at every address after a move into a directory that was made for it. -/
theorem get?_movedInto {t : Tree} {node : Node} (hclear : t.Clear dir)
    (hnames : ∀ k ∈ n :: dir, isName k = true) (h : t.get? p = some node)
    (hnode : node ≠ .directory) (hplace : t.get? (n :: dir) ≠ some .directory) (x : Address) :
    (((t.withDirectories dir).prune p).set n dir node).get? x =
      if x = n :: dir then some node else if x = p then none
      else if x <:+ dir then some .directory else t.get? x := by
  have hdirs := Tree.get?_withDirectories (t := t) fun k hk => hnames k (List.mem_cons_of_mem n hk)
  have hp : (t.withDirectories dir).get? p ≠ some .directory := by
    rw [hdirs]
    split
    · next hsuffix =>
      rcases hclear p hsuffix with hnone | hdirectory
      · cases h.symm.trans hnone
      · exact absurd (Option.some.inj (h.symm.trans hdirectory)) hnode
    · rw [h]
      simpa using hnode
  have hself : ¬ n :: dir <:+ dir := fun hsuffix => by
    have := hsuffix.length_le
    rw [List.length_cons] at this
    omega
  have hplace' : (t.withDirectories dir).get? (n :: dir) ≠ some .directory := by
    rw [hdirs, if_neg hself]
    exact hplace
  have hdir : (t.withDirectories dir).get? dir = some .directory := by
    rw [hdirs, if_pos (List.suffix_refl dir)]
  rw [Tree.get?_moved hp hdir (hnames n (by simp)) hplace', hdirs]

/-- Moving something into a directory that is made for it. -/
theorem makeParent_moveOrCopy_on {node : Node} (hclear : d.tree.Clear dir)
    (hnames : ∀ k ∈ n :: dir, isName k = true) (h : d.tree.get? p = some node)
    (hnode : node ≠ .directory) (hplace : d.tree.get? (n :: dir) ≠ some .directory)
    (hne : p ≠ n :: dir) :
    (makeParent (Path.ofAddress (n :: dir))).on d =
        (.ok (), { d with tree := d.tree.withDirectories dir }) ∧
      (moveOrCopy (Path.ofAddress p) (Path.ofAddress (n :: dir))).on
        { d with tree := d.tree.withDirectories dir } =
        (.ok (), { d with tree := ((d.tree.withDirectories dir).prune p).set n dir node }) := by
  have hdirs := Tree.get?_withDirectories (t := d.tree) fun k hk =>
    hnames k (List.mem_cons_of_mem n hk)
  refine ⟨makeParent_on_clear hclear hnames, moveOrCopy_on ?_ hnode ?_ (hnames n (by simp)) ?_ hne⟩
  · rw [hdirs, if_neg]
    · exact h
    · intro hsuffix
      rcases hclear p hsuffix with hnone | hdirectory
      · cases h.symm.trans hnone
      · exact hnode (Option.some.inj (h.symm.trans hdirectory))
  · rw [hdirs, if_pos (List.suffix_refl dir)]
  · rw [hdirs, if_neg]
    · exact hplace
    · intro hsuffix
      have := hsuffix.length_le
      rw [List.length_cons] at this
      omega

/-! ### Keeping -/

theorem keep_on_absent (hnames : ∀ k ∈ p, isName k = true) (hplain : d.tree.Plain p)
    (h : ¬ HasFile d.tree p) (backup : Text) :
    (keep (Path.ofAddress p) backup).on d = (.ok false, d) := by
  have hfile : d.isFile (Path.ofAddress p) = false := by
    rw [Bool.eq_false_iff]
    exact fun hf => h ((Disk.isFile_ofAddress (isWay_of_names hnames) (nul_not_mem_of_names hnames)
      hplain).1 hf)
  rw [keep, on_bind, on_ask, hfile]
  rfl

theorem keep_on_file (h : d.tree.get? p = some (.file content mode)) (hclear : d.tree.Clear dir)
    (hnames : ∀ k ∈ n :: dir, isName k = true)
    (hbackup : d.tree.get? (n :: dir) ≠ some .directory) (hne : p ≠ n :: dir) :
    ∃ d', (keep (Path.ofAddress p) (Path.ofAddress (n :: dir))).on d = (.ok true, d') ∧
      ∀ x, d'.tree.get? x =
        if x = n :: dir then some (.file content mode) else if x = p then none
        else if x <:+ dir then some .directory else d.tree.get? x := by
  have hfile : d.isFile (Path.ofAddress p) = true :=
    (Disk.isFile_ofAddress (Tree.isWay_of_get? h) (Disk.nul_not_mem_of_get? h)
      (Tree.plain_of_get? h (by simp))).2 ⟨content, mode, h⟩
  obtain ⟨hparent, hmove⟩ :=
    makeParent_moveOrCopy_on hclear hnames h (by simp) hbackup hne
  refine ⟨{ d with tree := ((d.tree.withDirectories dir).prune p).set n dir (.file content mode) },
    ?_, get?_movedInto hclear hnames h (by simp) hbackup⟩
  rw [keep, on_bind, on_ask, hfile]
  dsimp only
  rw [if_pos rfl, on_bind_ok hparent, on_bind, on_within, hmove]
  rfl

/-! ### Putting -/

theorem put_on_blocked (hnames : ∀ k ∈ n :: dir, isName k = true) (hplain : d.tree.Plain dir)
    (hblocked : d.tree.Blocked dir) (source : Text) :
    ∃ e, (put source (Path.ofAddress (n :: dir))).on d = (.error e, d) := by
  obtain ⟨e, he⟩ := makeParent_on_blocked hplain hblocked hnames
  exact ⟨e, by rw [put_eq (isWay_of_names hnames), on_bind_error he]⟩

theorem not_suffix_of_cons (m : Text) (dir : Address) : ¬ m :: dir <:+ dir := fun hsuffix => by
  have := hsuffix.length_le
  rw [List.length_cons] at this
  omega

theorem draftName_injective {n m : Text} (h : draftName n = draftName m) : n = m := by
  simpa [draftName] using h

theorem draftName_ne (n : Text) : draftName n ≠ n := fun h => by
  have := congrArg List.length h
  simp [draftName] at this
  omega

/-- A file that is copied to a name in a directory. -/
theorem copy_on_into {m : Text} (hsource : d.tree.get? p = some (.file content mode))
    (hdir : d.tree.get? dir = some .directory) (hm : isName m = true)
    (hplace : d.tree.get? (m :: dir) = none ∨ HasFile d.tree (m :: dir)) :
    (Disk.copy (Path.ofAddress p) (Path.ofAddress (m :: dir))).on d =
      (.ok (), { d with tree := d.tree.set m dir (.file content mode) }) := by
  rw [Disk.copy_on_file hsource]
  rcases hplace with hnone | ⟨old, mode', hfile⟩
  · exact Disk.put_on_vacant hdir hm hnone
  · exact Disk.put_on_file hfile

section Put

variable (hnames : ∀ k ∈ n :: dir, isName k = true) (hclear : d.tree.Clear dir)
  (hsource : d.tree.get? p = some (.file content mode))

include hclear hsource in
/-- Making the directories of a place leaves a file where it is. -/
theorem get?_source_withDirectories (hdirs : ∀ k ∈ dir, isName k = true) :
    (d.tree.withDirectories dir).get? p = some (.file content mode) := by
  rw [Tree.get?_withDirectories hdirs, if_neg]
  · exact hsource
  · intro hsuffix
    rcases hclear p hsuffix with hnone | hdirectory
    · cases hsource.symm.trans hnone
    · cases hsource.symm.trans hdirectory

include hnames hclear hsource in
/-- The name of a draft is too long, or a directory has it. -/
theorem put_on_refused
    (hdraft : d.tree.get? (draftName n :: dir) = some .directory ∨
      maxNameLength < (draftName n).byteLength) :
    ∃ e, (put (Path.ofAddress p) (Path.ofAddress (n :: dir))).on d =
      (.error e, { d with tree := d.tree.withDirectories dir }) := by
  have hdirs : ∀ k ∈ dir, isName k = true := fun k hk => hnames k (List.mem_cons_of_mem n hk)
  have hmade : (d.tree.withDirectories dir).get? dir = some .directory := by
    rw [Tree.get?_withDirectories hdirs, if_pos (List.suffix_refl dir)]
  obtain ⟨e, he⟩ : ∃ e, (Disk.put (Path.ofAddress (draftName n :: dir)) content (some mode)).on
      { d with tree := d.tree.withDirectories dir } =
        (.error e, { d with tree := d.tree.withDirectories dir }) := by
    rcases hdraft with hdirectory | hlong
    · refine ⟨_, Disk.put_on_directory ?_⟩
      rw [Tree.get?_withDirectories hdirs, if_neg (not_suffix_of_cons _ dir)]
      exact hdirectory
    · have hnul : '\x00' ∉ draftName n := by
        have := nul_not_mem_of_names hnames n (by simp)
        simpa [draftName] using this
      exact Disk.put_on_tooLong hmade (isStep_draftName (isStep_of_isName (hnames n (by simp))))
        hnul hlong
  refine ⟨.refused (.publish (Path.ofAddress (n :: dir))) e, ?_⟩
  rw [put_eq (isWay_of_names hnames), on_bind_ok (makeParent_on_clear hclear hnames)]
  refine on_bind_error ?_
  rw [on_within, Disk.copy_on_file (get?_source_withDirectories hclear hsource hdirs), he]
  rfl

include hnames hsource in
/-- A directory stands in the place, and the draft stays beside it. -/
theorem put_on_stuck (hplace : d.tree.get? (n :: dir) = some .directory)
    (hname : isName (draftName n) = true)
    (hdraft : d.tree.get? (draftName n :: dir) = none ∨ HasFile d.tree (draftName n :: dir)) :
    ∃ e d', (put (Path.ofAddress p) (Path.ofAddress (n :: dir))).on d = (.error e, d') ∧
      ∀ x, d'.tree.get? x =
        if x = draftName n :: dir then some (.file content mode) else d.tree.get? x := by
  have hdir : d.tree.get? dir = some .directory := Tree.get?_dir hplace
  have hfree : d.tree.get? (draftName n :: dir) ≠ some .directory := by
    rcases hdraft with hnone | ⟨old, mode', hfile⟩
    · simp [hnone]
    · simp [hfile]
  have hallowed : Node.file content mode = .directory ∨
      d.tree.get? (draftName n :: dir) ≠ some .directory := .inr hfree
  have hget := Tree.get?_set_of_directory hdir hname hallowed
  have hparent := makeParent_on_clear (Tree.clear_of_directory hdir) hnames
  rw [Tree.withDirectories_of_directory hdir] at hparent
  refine ⟨.refused (.publish (Path.ofAddress (n :: dir))) .isDirectory,
    { d with tree := d.tree.set (draftName n) dir (.file content mode) }, ?_, hget⟩
  rw [put_eq (isWay_of_names hnames), on_bind_ok hparent, on_bind, on_within,
    copy_on_into hsource hdir hname hdraft]
  dsimp only [Except.mapError]
  rw [on_within, Disk.move_on_directory ((hget _).trans (if_pos rfl))]
  · rfl
  · rw [hget, if_neg fun he => draftName_ne n (List.cons.inj he).1.symm]
    exact hplace

include hnames hclear hsource in
/-- **A file is put into its place**; its draft is gone afterwards. -/
theorem put_on_done (hplace : d.tree.get? (n :: dir) = none ∨ HasFile d.tree (n :: dir))
    (hname : isName (draftName n) = true)
    (hdraft : d.tree.get? (draftName n :: dir) = none ∨ HasFile d.tree (draftName n :: dir)) :
    ∃ d', (put (Path.ofAddress p) (Path.ofAddress (n :: dir))).on d = (.ok (), d') ∧
      ∀ x, d'.tree.get? x =
        if x = n :: dir then some (.file content mode) else if x = draftName n :: dir then none
        else if x <:+ dir then some .directory else d.tree.get? x := by
  have hdirs : ∀ k ∈ dir, isName k = true := fun k hk => hnames k (List.mem_cons_of_mem n hk)
  have hmade := Tree.get?_withDirectories (t := d.tree) hdirs
  have hdir : (d.tree.withDirectories dir).get? dir = some .directory := by
    rw [hmade, if_pos (List.suffix_refl dir)]
  have hbeside : ∀ m, d.tree.get? (m :: dir) = none ∨ HasFile d.tree (m :: dir) →
      (d.tree.withDirectories dir).get? (m :: dir) = none ∨
        HasFile (d.tree.withDirectories dir) (m :: dir) := fun m hm => by
    rw [HasFile, hmade, if_neg (not_suffix_of_cons m dir)]
    exact hm
  have hnot : ∀ m, d.tree.get? (m :: dir) = none ∨ HasFile d.tree (m :: dir) →
      (d.tree.withDirectories dir).get? (m :: dir) ≠ some .directory := fun m hm => by
    rcases hbeside m hm with hnone | ⟨old, mode', hfile⟩
    · simp [hnone]
    · simp [hfile]
  have hallowed : Node.file content mode = .directory ∨
      (d.tree.withDirectories dir).get? (draftName n :: dir) ≠ some .directory :=
    .inr (hnot _ hdraft)
  have hcopied := Tree.get?_set_of_directory hdir hname hallowed
  have hdraftHere : ((d.tree.withDirectories dir).set (draftName n) dir (.file content mode)).get?
      (draftName n :: dir) = some (.file content mode) := by
    rw [hcopied, if_pos rfl]
  have hdirHere : ((d.tree.withDirectories dir).set (draftName n) dir (.file content mode)).get?
      dir = some .directory := Tree.get?_dir hdraftHere
  have hne : draftName n :: dir ≠ n :: dir := fun he => draftName_ne n (List.cons.inj he).1
  have hplaceHere : ((d.tree.withDirectories dir).set (draftName n) dir (.file content mode)).get?
      (n :: dir) ≠ some .directory := by
    rw [hcopied, if_neg hne.symm]
    exact hnot n hplace
  refine ⟨{ d with tree := (((d.tree.withDirectories dir).set (draftName n) dir
    (.file content mode)).prune (draftName n :: dir)).set n dir (.file content mode) }, ?_, ?_⟩
  · rw [put_eq (isWay_of_names hnames), on_bind_ok (makeParent_on_clear hclear hnames), on_bind,
      on_within, copy_on_into (get?_source_withDirectories hclear hsource hdirs) hdir hname
        (hbeside _ hdraft)]
    dsimp only [Except.mapError]
    rw [on_within, Disk.move_on_place hdraftHere (by simp) hdirHere (hnames n (by simp)) hplaceHere
      hne]
    rfl
  · intro x
    rw [Tree.get?_moved (by simp [hdraftHere]) hdirHere (hnames n (by simp)) hplaceHere, hcopied,
      hmade]
    by_cases hx : x = draftName n :: dir
    · simp [hx]
    · simp [hx]

end Put

/-- What may come of putting a file into the place of `n` in `dir`. -/
inductive PutOutcome (d : Disk) (n : Text) (dir : Address) (file : Node) :
    Except Failure Unit × Disk → Prop where
  /-- A file stands in the way, and nothing happens. -/
  | blocked (e : Failure) (h : d.tree.Blocked dir) : PutOutcome d n dir file (.error e, d)
  /-- There can be no draft, and only the directories of the place are made. -/
  | refused (e : Failure) (hclear : d.tree.Clear dir)
      (hdraft : d.tree.get? (draftName n :: dir) = some .directory ∨
        maxNameLength < (draftName n).byteLength) :
      PutOutcome d n dir file (.error e, { d with tree := d.tree.withDirectories dir })
  /-- A directory stands in the place, and the draft stays beside it. -/
  | stuck (e : Failure) (d' : Disk) (hplace : d.tree.get? (n :: dir) = some .directory)
      (hname : isName (draftName n) = true)
      (hdraft : d.tree.get? (draftName n :: dir) = none ∨ HasFile d.tree (draftName n :: dir))
      (hget : ∀ x, d'.tree.get? x = if x = draftName n :: dir then some file else d.tree.get? x) :
      PutOutcome d n dir file (.error e, d')
  /-- The file is in its place, and its draft is gone. -/
  | done (d' : Disk) (hclear : d.tree.Clear dir)
      (hplace : d.tree.get? (n :: dir) = none ∨ HasFile d.tree (n :: dir))
      (hname : isName (draftName n) = true)
      (hdraft : d.tree.get? (draftName n :: dir) = none ∨ HasFile d.tree (draftName n :: dir))
      (hget : ∀ x, d'.tree.get? x =
        if x = n :: dir then some file else if x = draftName n :: dir then none
        else if x <:+ dir then some .directory else d.tree.get? x) :
      PutOutcome d n dir file (.ok (), d')

/-- What putting a file does to an entry: it stays as it was, it is a directory on the way, or it was
no directory and is the file now or is gone. -/
theorem PutOutcome.get?_cases {file : Node} {outcome : Except Failure Unit × Disk}
    (hnames : ∀ k ∈ dir, isName k = true) (h : PutOutcome d n dir file outcome) (x : Address) :
    outcome.2.tree.get? x = d.tree.get? x ∨
      (x <:+ dir ∧ outcome.2.tree.get? x = some .directory) ∨
      (d.tree.get? x ≠ some .directory ∧
        (outcome.2.tree.get? x = some file ∨ outcome.2.tree.get? x = none)) := by
  have hfree : ∀ {y}, d.tree.get? y = none ∨ HasFile d.tree y → d.tree.get? y ≠ some .directory :=
    fun hy => by
      rcases hy with hnone | ⟨_, _, hf⟩
      · simp [hnone]
      · simp [hf]
  cases h with
  | blocked e _ => exact .inl rfl
  | refused e _ _ =>
    rw [Tree.get?_withDirectories hnames]
    split
    · next hs => exact .inr (.inl ⟨hs, rfl⟩)
    · exact .inl rfl
  | stuck e d' _ _ hdraft hget =>
    rw [hget]
    split
    · next hx => exact .inr (.inr ⟨hx ▸ hfree hdraft, .inl rfl⟩)
    · exact .inl rfl
  | done d' _ hplace _ hdraft hget =>
    rw [hget]
    split
    · next hx => exact .inr (.inr ⟨hx ▸ hfree hplace, .inl rfl⟩)
    split
    · next hx => exact .inr (.inr ⟨hx ▸ hfree hdraft, .inr rfl⟩)
    split
    · next hs => exact .inr (.inl ⟨hs, rfl⟩)
    · exact .inl rfl

theorem isName_draftName (hn : isName n = true) :
    isName (draftName n) = true ∨ maxNameLength < (draftName n).byteLength := by
  obtain ⟨hstep, hnul, -⟩ := isName_iff.1 hn
  rcases Nat.lt_or_ge maxNameLength (draftName n).byteLength with hlt | hge
  · exact .inr hlt
  · exact .inl (isName_iff.2 ⟨isStep_draftName hstep, by simpa [draftName] using hnul, hge⟩)

/-- **Putting a file into its place**, whatever stands there and beside it, but for links. -/
theorem put_outcome (hnames : ∀ k ∈ n :: dir, isName k = true) (hplain : d.tree.Plain (n :: dir))
    (hlink : ∀ target, d.tree.get? (draftName n :: dir) ≠ some (.link target))
    (hsource : d.tree.get? p = some (.file content mode)) :
    PutOutcome d n dir (.file content mode)
      ((put (Path.ofAddress p) (Path.ofAddress (n :: dir))).on d) := by
  by_cases hblocked : d.tree.Blocked dir
  · obtain ⟨e, he⟩ := put_on_blocked hnames hplain.tail hblocked (Path.ofAddress p)
    rw [he]
    exact .blocked e hblocked
  have hclear : d.tree.Clear dir := Tree.clear_iff.2 ⟨hplain.tail, hblocked⟩
  have hrefused : d.tree.get? (draftName n :: dir) = some .directory ∨
      maxNameLength < (draftName n).byteLength →
      PutOutcome d n dir (.file content mode)
        ((put (Path.ofAddress p) (Path.ofAddress (n :: dir))).on d) := fun h => by
    obtain ⟨e, he⟩ := put_on_refused hnames hclear hsource h
    rw [he]
    exact .refused e hclear h
  rcases isName_draftName (hnames n (by simp)) with hname | hlong
  · by_cases hdirectory : d.tree.get? (draftName n :: dir) = some .directory
    · exact hrefused (.inl hdirectory)
    have hdraft : d.tree.get? (draftName n :: dir) = none ∨
        HasFile d.tree (draftName n :: dir) := none_or_hasFile hdirectory hlink
    by_cases hplace : d.tree.get? (n :: dir) = some .directory
    · obtain ⟨e, d', he, hget⟩ := put_on_stuck hnames hsource hplace hname hdraft
      rw [he]
      exact .stuck e d' hplace hname hdraft hget
    · have hfree := none_or_hasFile hplace (hplain _ (List.suffix_refl _))
      obtain ⟨d', he, hget⟩ := put_on_done hnames hclear hsource hfree hname hdraft
      rw [he]
      exact .done d' hclear hfree hname hdraft hget
  · exact hrefused (.inr hlong)

/-! ### One file after another -/

/-- What is on record after a file was kept or was not there. -/
def Published.afterKeep (p : Published) (place backup : Text) (isKept : Bool) : Published :=
  if isKept then { p with backups := p.backups ++ [(place, backup)] }
  else { p with created := p.created ++ [place] }

/-- What is on record after a file was put into its place. -/
def Published.afterPut (p : Published) (place : Text) : Published :=
  { p with files := p.files ++ [place] }

/-- Publishing a file and then the others. -/
theorem publishEach_cons [Medium] {tx : Transaction} {a b : Address}
    (ha : Path.IsWay a) (hr : Path.IsWay r) (htx : tx.dir = Path.ofAddress r) (hb : Path.IsWay b)
    (hne : b ≠ []) (rest : List Text) (p : Published) (d : Disk) :
    (tx.publishEach (Path.ofAddress a) p (Path.ofRelative b :: rest)).on d =
      match (keep (Path.ofAddress (b ++ a)) (Path.ofAddress (b ++ backupAddress r))).on d with
      | (.error e, d₁) => (rollBack p >>= fun _ => throw e).on d₁
      | (.ok isKept, d₁) =>
        let p₁ := p.afterKeep (Path.ofAddress (b ++ a)) (Path.ofAddress (b ++ backupAddress r)) isKept
        match (put (Path.ofAddress (b ++ stagingAddress r)) (Path.ofAddress (b ++ a))).on d₁ with
        | (.error e, d₂) => (rollBack p₁ >>= fun _ => throw e).on d₂
        | (.ok (), d₂) =>
          (tx.publishEach (Path.ofAddress a) (p₁.afterPut (Path.ofAddress (b ++ a))) rest).on d₂ := by
  have hplace : Path.join (Path.ofAddress a) (Path.ofRelative b) = Path.ofAddress (b ++ a) :=
    Path.join_ofRelative ha hb hne
  have hbackup : Path.join tx.backupDir (Path.ofRelative b) =
      Path.ofAddress (b ++ backupAddress r) := by
    rw [backupDir, htx, Path.join_ofAddress hr (by decide)]
    exact Path.join_ofRelative (isWay_backupAddress hr) hb hne
  have hstaging : Path.join tx.stagingDir (Path.ofRelative b) =
      Path.ofAddress (b ++ stagingAddress r) := by
    rw [stagingDir, htx, Path.join_ofAddress hr (by decide)]
    exact Path.join_ofRelative (isWay_stagingAddress hr) hb hne
  rw [publishEach, hplace, hbackup, hstaging, on_bind_attempt]
  generalize (keep (Path.ofAddress (b ++ a)) (Path.ofAddress (b ++ backupAddress r))).on d = kept
  obtain ⟨e | isKept, d₁⟩ := kept
  · rfl
  · show Action.on (_ >>= _) d₁ = _
    rw [on_bind_attempt]
    dsimp only
    generalize (put (Path.ofAddress (b ++ stagingAddress r)) (Path.ofAddress (b ++ a))).on d₁ = done
    obtain ⟨e | _, d₂⟩ := done <;> rfl

/-! ### Publishing what was gathered -/

/-- The files that the transaction at `r` has gathered, by their ways from where they are gathered,
in the order in which they are published. -/
def gathered (d : Disk) (r : Address) : List Address :=
  ((d.filesBelow (Path.ofAddress (stagingAddress r))).toOption.getD []).map fun path =>
    ((Path.steps path).drop (stagingAddress r).length).reverse

theorem exists_map_eq {α β : Type} {f : α → β} {P : α → Prop} {l : List β}
    (h : ∀ y ∈ l, ∃ x, y = f x ∧ P x) : ∃ xs : List α, l = xs.map f ∧ ∀ x ∈ xs, P x := by
  induction l with
  | nil => exact ⟨[], rfl, by simp⟩
  | cons y l ih =>
    obtain ⟨x, rfl, hx⟩ := h y (by simp)
    obtain ⟨xs, rfl, hxs⟩ := ih fun z hz => h z (by simp [hz])
    exact ⟨x :: xs, rfl, List.forall_mem_cons.2 ⟨hx, hxs⟩⟩

section Gathered

variable (hstaging : d.tree.get? (stagingAddress r) = some .directory)
  (hno : d.tree.NoLinksIn (stagingAddress r))

include hstaging hno

theorem filesBelow_gathered : d.filesBelow (Path.ofAddress (stagingAddress r)) =
      .ok ((gathered d r).map fun b => Path.ofAddress (b ++ stagingAddress r)) ∧
    (gathered d r).Nodup ∧
    ∀ b, b ∈ gathered d r ↔ b ≠ [] ∧ HasFile d.tree (b ++ stagingAddress r) := by
  obtain ⟨files, hfiles, hnodup, hmem⟩ := Disk.mem_filesBelow hno hstaging
  obtain ⟨rels, rfl, hrels⟩ := exists_map_eq
    (f := fun b => Path.ofAddress (b ++ stagingAddress r))
    (P := fun b => b ≠ [] ∧ HasFile d.tree (b ++ stagingAddress r)) (l := files)
    fun path hpath => by
      obtain ⟨b, content, mode, hne, he, hfile⟩ := (hmem path).1 hpath
      exact ⟨b, he, hne, content, mode, hfile⟩
  have hback : ∀ b ∈ rels, ((Path.steps (Path.ofAddress (b ++ stagingAddress r))).drop
      (stagingAddress r).length).reverse = b := fun b hb => by
    obtain ⟨-, content, mode, hfile⟩ := hrels b hb
    have hlength : (stagingAddress r).length = (stagingAddress r).reverse.length :=
      List.length_reverse.symm
    rw [Path.steps_ofAddress (Tree.isWay_of_get? hfile), List.reverse_append, hlength,
      List.drop_left, List.reverse_reverse]
  have hgathered : gathered d r = rels := by
    rw [gathered, hfiles]
    show List.map _ (rels.map _) = rels
    rw [List.map_map]
    exact (List.map_congr_left fun b hb => hback b hb).trans (List.map_id rels)
  rw [hgathered]
  refine ⟨hfiles, hnodup.of_map _, fun b => ⟨hrels b, fun ⟨hne, content, mode, hfile⟩ => ?_⟩⟩
  obtain ⟨b', hb', he⟩ := List.mem_map.1 ((hmem _).2 ⟨b, content, mode, hne, rfl, hfile⟩)
  obtain ⟨-, _, _, hfile'⟩ := hrels b' hb'
  have hsame := Disk.ofAddress_injective (Tree.isWay_of_get? hfile') (Tree.isWay_of_get? hfile) he
  exact List.append_cancel_right hsame ▸ hb'

/-- Publishing is to make a directory for what is kept, and then to publish one file after
another. -/
theorem publish_on [Medium] {tx : Transaction} (htx : tx.dir = Path.ofAddress r) (root : Text) :
    (tx.publish root).on d =
      (do (Disk.makeDirectories (Path.ofAddress (backupAddress r))).within
            (.create (Path.ofAddress (backupAddress r)))
          tx.publishEach root {} ((gathered d r).map Path.ofRelative)).on d := by
  have hr : Path.IsWay r := (Tree.isWay_of_get? hstaging).tail
  have hstagingDir : tx.stagingDir = Path.ofAddress (stagingAddress r) := by
    rw [stagingDir, htx, Path.join_ofAddress hr (by decide)]
    rfl
  have hbackupDir : tx.backupDir = Path.ofAddress (backupAddress r) := by
    rw [backupDir, htx, Path.join_ofAddress hr (by decide)]
    rfl
  have hthere : d.isThere (Path.ofAddress (stagingAddress r)) = true :=
    (Disk.isThere_ofAddress (Tree.isWay_of_get? hstaging) (Disk.nul_not_mem_of_get? hstaging)
      (Tree.plain_of_get? hstaging (by simp))).2 (by simp [hstaging])
  obtain ⟨hfiles, -, hmem⟩ := filesBelow_gathered hstaging hno
  have hbelow : ((gathered d r).map fun b => Path.ofAddress (b ++ stagingAddress r)).map
      (below (Path.ofAddress (stagingAddress r))) = (gathered d r).map Path.ofRelative := by
    rw [List.map_map]
    refine List.map_congr_left fun b hb => ?_
    obtain ⟨-, content, mode, hfile⟩ := (hmem b).1 hb
    exact below_ofAddress (Tree.isWay_of_get? hstaging) fun k hk =>
      Tree.isWay_of_get? hfile k (List.mem_append_left _ hk)
  rw [publish, on_bind, on_ask, hstagingDir, hbackupDir, hthere]
  show Action.on (_ >>= _) d = _
  rw [on_bind, on_within, on_consult, hfiles, ← hbelow]
  rfl

end Gathered

/-! ### Withdrawing and restoring -/

/-- The tree without the file at an address, if there is one. -/
def withoutFile (t : Tree) (p : Address) : Tree :=
  match t.get? p with
  | some (.file _ _) => t.prune p
  | _ => t

theorem withoutFile_of_file {t : Tree} (h : HasFile t p) : withoutFile t p = t.prune p := by
  obtain ⟨content, mode, hfile⟩ := h
  rw [withoutFile, hfile]

theorem withoutFile_of_not_file {t : Tree} (h : ¬ HasFile t p) : withoutFile t p = t := by
  rw [withoutFile]
  split
  · next hfile => exact absurd ⟨_, _, hfile⟩ h
  · rfl

theorem get?_withoutFile_of_ne {t : Tree} {x : Address} (h : x ≠ p) :
    (withoutFile t p).get? x = t.get? x := by
  by_cases hfile : HasFile t p
  · have hp : t.get? p ≠ some .directory := by
      obtain ⟨content, mode, hf⟩ := hfile
      simp [hf]
    rw [withoutFile_of_file hfile, Tree.get?_prune_of_ne_directory hp, if_neg h]
  · rw [withoutFile_of_not_file hfile]

theorem not_hasFile_withoutFile (t : Tree) (p : Address) : ¬ HasFile (withoutFile t p) p := by
  by_cases hfile : HasFile t p
  · have hp : t.get? p ≠ some .directory := by
      obtain ⟨content, mode, hf⟩ := hfile
      simp [hf]
    rw [withoutFile_of_file hfile, HasFile, Tree.get?_prune_of_ne_directory hp, if_pos rfl]
    simp
  · rwa [withoutFile_of_not_file hfile]

theorem withdraw_on (hnames : ∀ k ∈ p, isName k = true) (hplain : d.tree.Plain p) :
    (withdraw (Path.ofAddress p)).on d = (.ok (), { d with tree := withoutFile d.tree p }) := by
  rw [withdraw, on_bind, on_ask]
  dsimp only
  have hiff := Disk.isFile_ofAddress (isWay_of_names hnames) (nul_not_mem_of_names hnames) hplain
  by_cases hfile : HasFile d.tree p
  · obtain ⟨content, mode, hf⟩ := id hfile
    rw [if_pos (hiff.2 hfile), on_bind_attempt, Disk.removeFile_on, Disk.place_of_get? hf,
      withoutFile_of_file hfile]
    rfl
  · rw [if_neg fun h => hfile (hiff.1 h), withoutFile_of_not_file hfile]
    rfl

/-- A file is put back from where it was kept. -/
theorem restore_on (hnames : ∀ k ∈ n :: dir, isName k = true) (hclear : d.tree.Clear dir)
    (hkept : d.tree.get? p = some (.file content mode))
    (hplace : d.tree.get? (n :: dir) ≠ some .directory) (hne : p ≠ n :: dir) :
    ∃ d', (restore (Path.ofAddress (n :: dir)) (Path.ofAddress p)).on d = (.ok (), d') ∧
      ∀ x, d'.tree.get? x =
        if x = n :: dir then some (.file content mode) else if x = p then none
        else if x <:+ dir then some .directory else d.tree.get? x := by
  obtain ⟨hparent, hmove⟩ := makeParent_moveOrCopy_on hclear hnames hkept (by simp) hplace hne
  refine ⟨{ d with tree := ((d.tree.withDirectories dir).prune p).set n dir (.file content mode) },
    ?_, get?_movedInto hclear hnames hkept (by simp) hplace⟩
  rw [restore, on_bind_attempt, hparent, on_bind_attempt, hmove]
  rfl

end Transaction

end ActionBundles
