import ActionBundles.Proofs.Ways

/-!
# What actions come to

`Action.on` runs an action on a disk. Its equations, one for each way to build an action, let an
action be followed step by step; then come the actions of the file system at the paths of addresses.

Directories are made by `Tree.withDirectories`: on a clear way, where nothing but directories stands,
`Disk.makeDirectories` makes exactly the missing ones, and where a file stands in the way it changes
nothing.
-/

namespace ActionBundles

namespace Action

variable {ε ε' α β : Type}

/-- What an action comes to on a disk: its outcome, and the disk after it. -/
def on (x : Action ε α) (d : Disk) : Except ε α × Disk := (StateT.run (ExceptT.run x) d).run

@[simp] theorem on_pure (a : α) (d : Disk) : (pure a : Action ε α).on d = (.ok a, d) := rfl

@[simp] theorem on_throw (e : ε) (d : Disk) : (throw e : Action ε α).on d = (.error e, d) := rfl

theorem on_bind (x : Action ε α) (f : α → Action ε β) (d : Disk) :
    (x >>= f).on d =
      match x.on d with
      | (.ok a, d') => (f a).on d'
      | (.error e, d') => (.error e, d') := by
  have hon : (StateT.run (ExceptT.run x) d).run = x.on d := rfl
  show (StateT.run (ExceptT.run (x >>= f)) d).run = _
  rw [ExceptT.run_bind, StateT.run_bind, Id.run_bind, hon]
  rcases x.on d with ⟨_ | _, d'⟩ <;> rfl

/-- After a first action that is done. -/
theorem on_bind_ok {x : Action ε α} {f : α → Action ε β} {d d' : Disk} {a : α}
    (h : x.on d = (.ok a, d')) : (x >>= f).on d = (f a).on d' := by rw [on_bind, h]

/-- After a first action that is refused. -/
theorem on_bind_error {x : Action ε α} {f : α → Action ε β} {d d' : Disk} {e : ε}
    (h : x.on d = (.error e, d')) : (x >>= f).on d = (.error e, d') := by rw [on_bind, h]

@[simp] theorem on_ask (question : Disk → α) (d : Disk) :
    (ask question : Action ε α).on d = (.ok (question d), d) := rfl

@[simp] theorem on_consult (question : Disk → Except ε α) (d : Disk) :
    (consult question).on d = (question d, d) := by
  have hget : (get : Action ε Disk).on d = (.ok d, d) := rfl
  rw [consult, on_bind, hget]
  dsimp only
  cases question d <;> rfl

@[simp] theorem on_attempt (x : Action ε α) (d : Disk) :
    (x.attempt : Action ε' (Except ε α)).on d = (.ok (x.on d).1, (x.on d).2) := rfl

theorem on_bind_attempt (x : Action ε α) (f : Except ε α → Action ε' β) (d : Disk) :
    (x.attempt >>= f).on d = (f (x.on d).1).on (x.on d).2 := by rw [on_bind, on_attempt]

@[simp] theorem on_change (f : Tree → Tree) (d : Disk) :
    (change f : Action ε Unit).on d = (.ok (), { d with tree := f d.tree }) := rfl

@[simp] theorem on_reporting (report : ε → ε') (x : Action ε α) (d : Disk) :
    (x.reporting report).on d = ((x.on d).1.mapError report, (x.on d).2) := by
  have hon : (StateT.run (ExceptT.run x) d).run = x.on d := rfl
  rw [on, reporting, ExceptT.run_mk, StateT.run_bind, Id.run_bind, hon]
  rcases x.on d with ⟨_ | _, d'⟩ <;> rfl

@[simp] theorem on_within (work : Work) (x : Action OsError α) (d : Disk) :
    (x.within work).on d = ((x.on d).1.mapError (.refused work), (x.on d).2) := on_reporting ..

@[simp] theorem on_during (work : Work) (x : Action Failure α) (d : Disk) :
    (x.during work).on d = ((x.on d).1.mapError (.during work), (x.on d).2) := on_reporting ..

end Action

/-! ### Directories on a way -/

namespace Tree

/-- Nothing but directories stands on the way to an address and at it. -/
def Clear (t : Tree) (a : Address) : Prop :=
  ∀ b, b <:+ a → t.get? b = none ∨ t.get? b = some .directory

theorem clear_iff {t : Tree} {a : Address} : t.Clear a ↔ t.Plain a ∧ ¬ t.Blocked a := by
  constructor
  · intro h
    refine ⟨fun b hb target ht => ?_, ?_⟩
    · rcases h b hb with hn | hd
      · cases hn.symm.trans ht
      · cases hd.symm.trans ht
    · rintro ⟨b, hb, content, executable, hf⟩
      rcases h b hb with hn | hd
      · cases hn.symm.trans hf
      · cases hd.symm.trans hf
  · rintro ⟨hplain, hblocked⟩ b hb
    cases hnode : t.get? b with
    | none => exact .inl rfl
    | some node =>
      cases node with
      | directory => exact .inr rfl
      | file content executable => exact absurd ⟨b, hb, content, executable, hnode⟩ hblocked
      | link target => exact absurd hnode (hplain b hb target)

theorem clear_of_directory {t : Tree} {a : Address} (h : t.get? a = some .directory) :
    t.Clear a :=
  clear_iff.2 ⟨plain_of_get? h (by simp), not_blocked_of_directory h⟩

/-- The tree with directories on the whole way to an address. -/
def withDirectories (t : Tree) : Address → Tree
  | [] => t
  | n :: a => (t.withDirectories a).set n a .directory

/-- Directories are made where nothing stood, and nothing else changes. -/
theorem get?_withDirectories {t : Tree} {a : Address} (hnames : ∀ n ∈ a, isName n = true)
    (b : Address) :
    (t.withDirectories a).get? b = if b <:+ a then some .directory else t.get? b := by
  induction a generalizing b with
  | nil =>
    by_cases h : b = []
    · subst h
      rfl
    · rw [withDirectories, if_neg (by simpa using h)]
  | cons n a ih =>
    have ih := fun b => ih (fun m hm => hnames m (by simp [hm])) b
    have habove : (t.withDirectories a).get? a = some .directory := by simp [ih a]
    have hallows : (t.withDirectories a).allows n a .directory = true := by
      simp [allows, isDirectory, habove, hnames n (by simp)]
    rw [withDirectories, get?_set, ih]
    by_cases hself : b = n :: a
    · simp [hself, hallows]
    · simp [hself, List.suffix_cons_iff]

/-- Where the whole way is there, no directories are made. -/
theorem withDirectories_of_directory {t : Tree} {a : Address} (h : t.get? a = some .directory) :
    t.withDirectories a = t := by
  refine ext_get? fun b => ?_
  rw [get?_withDirectories (isName_of_mem h)]
  split
  · next hs =>
    by_cases hb : b = a
    · rw [hb, h]
    · rw [get?_of_suffix h hs hb]
  · rfl

/-! ### What is found after a change -/

/-- What is found after an entry was put somewhere was there before, unless it is that entry. -/
theorem get?_of_set {t : Tree} {n : Text} {dir b : Address} {node found : Node}
    (h : (t.set n dir node).get? b = some found) (hne : found ≠ node) : t.get? b = some found := by
  rw [get?_set] at h
  split at h
  · exact absurd (Option.some.inj h).symm hne
  · exact h

/-- What is found after something was taken away was there before. -/
theorem get?_of_prune {t : Tree} {a b : Address} {found : Node}
    (h : (t.prune a).get? b = some found) : t.get? b = some found := by
  rw [get?_prune] at h
  split at h
  · cases h
  · exact h

/-- What is found after an entry was put into a directory, where it gives way. -/
theorem get?_set_of_directory {t : Tree} {n : Text} {dir : Address} {node : Node}
    (hdir : t.get? dir = some .directory) (hn : isName n = true)
    (hplace : node = .directory ∨ t.get? (n :: dir) ≠ some .directory) (b : Address) :
    (t.set n dir node).get? b = if b = n :: dir then some node else t.get? b := by
  have hallows : t.allows n dir node = true := by
    rw [allows, hn, isDirectory, hdir]
    simpa using hplace
  rw [get?_set, hallows]
  simp

/-- Of two contents that a file is given one after the other, the second one stays. -/
theorem set_file_set_file (t : Tree) (n : Text) (dir : Address) (content content' : Bytes)
    (mode mode' : Bool) :
    (t.set n dir (.file content mode)).set n dir (.file content' mode') =
      t.set n dir (.file content' mode') := by
  have hfile : t.allows n dir (.file content mode) = t.allows n dir (.file content' mode') := by
    simp [allows]
  have hagain : (t.set n dir (.file content mode)).allows n dir (.file content' mode') =
      t.allows n dir (.file content' mode') := by
    have hdir : (t.set n dir (.file content mode)).get? dir = t.get? dir := by
      rw [get?_set, if_neg fun h => List.cons_ne_self n dir h.2.symm]
    have hplace : (t.set n dir (.file content mode)).get? (n :: dir) = some .directory ↔
        t.get? (n :: dir) = some .directory := by
      rw [get?_set]
      split
      · next h =>
        have hne : t.get? (n :: dir) ≠ some .directory := by
          simpa [allows] using (Bool.and_eq_true_iff.1 h.1).2
        simp [hne]
      · rfl
    simp [allows, isDirectory, hdir, hplace]
  refine ext_get? fun b => ?_
  rw [get?_set, get?_set, get?_set, hagain, hfile]
  split <;> rfl

/-- What is found after something without entries below was taken away. -/
theorem get?_prune_of_ne_directory {t : Tree} {a : Address} (h : t.get? a ≠ some .directory)
    (b : Address) : (t.prune a).get? b = if b = a then none else t.get? b := by
  rw [get?_prune]
  by_cases hba : b = a
  · subst hba
    have hne : b ≠ [] := fun he => h (he ▸ rfl)
    simp [hne]
  · rw [if_neg hba]
    split
    · next hs =>
      cases hb : t.get? b with
      | none => rfl
      | some node => exact absurd (get?_of_suffix hb hs.2 (Ne.symm hba)) h
    · rfl

/-- What is found after a file or link was moved. -/
theorem get?_moved {t : Tree} {a dir : Address} {n : Text} {node : Node}
    (h : t.get? a ≠ some .directory) (hdir : t.get? dir = some .directory)
    (hn : isName n = true) (hplace : t.get? (n :: dir) ≠ some .directory) (b : Address) :
    ((t.prune a).set n dir node).get? b =
      if b = n :: dir then some node else if b = a then none else t.get? b := by
  have hne : dir ≠ a := fun he => h (he ▸ hdir)
  rw [get?_set_of_directory _ hn (.inr _) b, get?_prune_of_ne_directory h]
  · rw [get?_prune_of_ne_directory h, if_neg hne, hdir]
  · rw [get?_prune_of_ne_directory h]
    split
    · simp
    · exact hplace

end Tree

/-! ### Making directories -/

namespace Disk

variable {d : Disk}

/-- An entry is added, or refused for want of room. -/
theorem add_on [Medium] (name : Text) (dir : Address) (node : Node) (d : Disk) :
    (add name dir node).on d =
      if Medium.adds d.tree (name :: dir) then (.ok (), { d with tree := d.tree.set name dir node })
      else (.error .noSpace, d) := by
  rw [add, Action.on_bind, Action.on_ask]
  dsimp only
  split <;> rfl

/-- Making a directory, on any medium. -/
theorem makeDirectory_on_place [Medium] (path : Text) (d : Disk) :
    (makeDirectory path).on d =
      match d.place path with
      | .error e => (.error e, d)
      | .ok (.entry _ _) => (.error .alreadyExists, d)
      | .ok (.vacant dir name) => (add name dir .directory).on d := by
  rw [makeDirectory, Action.on_bind, Action.on_consult]
  rcases d.place path with _ | ⟨_ | _⟩ <;> rfl

theorem makeDirectory_on (path : Text) (d : Disk) :
    (makeDirectory path).on d =
      match d.place path with
      | .error e => (.error e, d)
      | .ok (.entry _ _) => (.error .alreadyExists, d)
      | .ok (.vacant dir name) => (.ok (), { d with tree := d.tree.set name dir .directory }) := by
  rw [makeDirectory_on_place]
  rcases d.place path with _ | ⟨_ | _⟩ <;> rfl

/-- A directory is made at a vacant place. -/
theorem makeDirectory_on_vacant {n : Text} {dir : Address}
    (hdir : d.tree.get? dir = some .directory) (hn : isName n = true)
    (h : d.tree.get? (n :: dir) = none) :
    (makeDirectory (Path.ofAddress (n :: dir))).on d =
      (.ok (), { d with tree := d.tree.set n dir .directory }) := by
  rw [makeDirectory_on, place_of_vacant hdir hn h]

/-- A directory is not made where something is. -/
theorem makeDirectory_on_entry {a : Address} {node : Node} (h : d.tree.get? a = some node) :
    (makeDirectory (Path.ofAddress a)).on d = (.error .alreadyExists, d) := by
  rw [makeDirectory_on, place_of_get? h]

/-- Where a directory is not made, it does as well that one is there. -/
def settle (path : Text) (e : OsError) (d : Disk) : Except OsError Unit × Disk :=
  (if d.isDirectory path then .ok () else .error e, d)

/-- What `makeDirectoriesWithin` comes to, by what comes of the directory itself. -/
theorem makeDirectoriesWithin_on (bound : Nat) {path : Text} (hpath : path ≠ []) (d : Disk) :
    (makeDirectoriesWithin (bound + 1) path).on d =
      match (makeDirectory path).on d with
      | (.ok (), d₁) => (.ok (), d₁)
      | (.error .notFound, d₁) =>
        match Path.parent? path with
        | none => (.error .notFound, d₁)
        | some above =>
          match (makeDirectoriesWithin bound above).on d₁ with
          | (.error e, d₂) => (.error e, d₂)
          | (.ok (), d₂) =>
            match (makeDirectory path).on d₂ with
            | (.ok (), d₃) => (.ok (), d₃)
            | (.error e, d₃) => settle path e d₃
      | (.error e, d₁) => settle path e d₁ := by
  have hsettle : ∀ (e : OsError) (d : Disk), Action.on (do
      unless ← Action.ask (·.isDirectory path) do throw e) d = settle path e d := fun e d => by
    rw [Action.on_bind, Action.on_ask]
    by_cases h : d.isDirectory path = true <;> simp [settle, h]
  rw [makeDirectoriesWithin]
  simp only [hpath, ↓reduceIte]
  rw [Action.on_bind_attempt]
  rcases (makeDirectory path).on d with ⟨e | u, d₁⟩
  · cases e with
    | notFound =>
      cases Path.parent? path with
      | none => rfl
      | some above =>
        simp only
        rw [Action.on_bind]
        rcases (makeDirectoriesWithin bound above).on d₁ with ⟨e | u, d₂⟩
        · rfl
        · simp only
          rw [Action.on_bind_attempt]
          rcases (makeDirectory path).on d₂ with ⟨e | u, d₃⟩
          · exact hsettle e d₃
          · rfl
    | _ => exact hsettle _ d₁
  · rfl

theorem settle_of_directory {a : Address} (e : OsError) (h : d.tree.get? a = some .directory) :
    settle (Path.ofAddress a) e d = (.ok (), d) := by
  have hdir : d.isDirectory (Path.ofAddress a) = true :=
    (isDirectory_ofAddress (Tree.isWay_of_get? h) (nul_not_mem_of_get? h)
      (Tree.plain_of_get? h (by simp))).2 h
  rw [settle, if_pos hdir]

theorem settle_of_ne {a : Address} (e : OsError) (ha : Path.IsWay a)
    (hnul : ∀ n ∈ a, '\x00' ∉ n) (hplain : d.tree.Plain a)
    (h : d.tree.get? a ≠ some .directory) : settle (Path.ofAddress a) e d = (.error e, d) := by
  rw [settle, if_neg fun hdir => h ((isDirectory_ofAddress ha hnul hplain).1 hdir)]

/-- What may come of making a directory and those that it lies in, on a way without links. -/
inductive Made (d : Disk) (a : Address) : Except OsError Unit × Disk → Prop where
  /-- All are there. -/
  | done (hclear : d.tree.Clear a) (hnames : ∀ n ∈ a, isName n = true) :
      Made d a (.ok (), { d with tree := d.tree.withDirectories a })
  /-- A file stands in the way, and nothing is made. -/
  | blocked (e : OsError) (hblocked : d.tree.Blocked a) : Made d a (.error e, d)
  /-- A name is too long, and directories are made at most up to there. -/
  | stopped (e : OsError) {b : Address} {n : Text} (hn : n ∈ a)
      (hlen : maxNameLength < n.byteLength) (hb : b <:+ a) (hclear : d.tree.Clear b)
      (hnames : ∀ m ∈ b, isName m = true) :
      Made d a (.error e, { d with tree := d.tree.withDirectories b })

/-- After the directories above were made, the directory itself is made, unless its name is too
long. -/
theorem made_after_above {n : Text} {dir : Address} (ha : Path.IsWay (n :: dir))
    (hnul : ∀ m ∈ n :: dir, '\x00' ∉ m) (hnone : d.tree.get? (n :: dir) = none)
    (hclear : d.tree.Clear dir) (hnames : ∀ m ∈ dir, isName m = true) :
    Made d (n :: dir)
      (match (makeDirectory (Path.ofAddress (n :: dir))).on
        { d with tree := d.tree.withDirectories dir } with
      | (.ok (), d₃) => (.ok (), d₃)
      | (.error e, d₃) => settle (Path.ofAddress (n :: dir)) e d₃) := by
  have hsuffix : ¬ n :: dir <:+ dir := fun hs => Nat.not_succ_le_self _ hs.length_le
  have hdir : (d.tree.withDirectories dir).get? dir = some .directory := by
    rw [Tree.get?_withDirectories hnames, if_pos (List.suffix_refl dir)]
  have hvacant : (d.tree.withDirectories dir).get? (n :: dir) = none := by
    rw [Tree.get?_withDirectories hnames, if_neg hsuffix, hnone]
  have hclear' : d.tree.Clear (n :: dir) := fun b hb => by
    rcases List.suffix_cons_iff.1 hb with rfl | hb
    · exact .inl hnone
    · exact hclear b hb
  by_cases hlen : maxNameLength < n.byteLength
  · have hplain : (d.tree.withDirectories dir).Plain (n :: dir) := fun b hb target ht => by
      rcases List.suffix_cons_iff.1 hb with rfl | hb
      · cases hvacant.symm.trans ht
      · rw [Tree.get?_withDirectories hnames, if_pos hb] at ht
        cases ht
    have hmissing := place_of_missing (d := { d with tree := d.tree.withDirectories dir }) ha hnul
      hplain hvacant
    have hne : (d.tree.withDirectories dir).get? (n :: dir) ≠ some .directory := by
      simp [hvacant]
    have hrefused : ∃ e, (makeDirectory (Path.ofAddress (n :: dir))).on
        { d with tree := d.tree.withDirectories dir } =
          (.error e, { d with tree := d.tree.withDirectories dir }) := by
      rw [makeDirectory_on]
      generalize Disk.place _ _ = spot at hmissing
      cases hmissing with
      | vacant he _ hshort =>
        cases he
        exact absurd hlen (Nat.not_lt.2 hshort)
      | notFound => exact ⟨_, rfl⟩
      | notDirectory => exact ⟨_, rfl⟩
      | nameTooLong => exact ⟨_, rfl⟩
    obtain ⟨e, he⟩ := hrefused
    rw [he]
    show Made d (n :: dir) (settle _ e _)
    rw [settle_of_ne e ha hnul hplain hne]
    exact .stopped e (by simp) hlen (List.suffix_cons n dir) hclear hnames
  · have hname : isName n = true :=
      isName_iff.2 ⟨ha n (by simp), hnul n (by simp), Nat.not_lt.1 hlen⟩
    rw [makeDirectory_on_vacant hdir hname hvacant]
    exact .done hclear' (List.forall_mem_cons.2 ⟨hname, hnames⟩)

theorem made_makeDirectoriesWithin {a : Address} (bound : Nat) (hbound : a.length < bound)
    (ha : Path.IsWay a) (hnul : ∀ n ∈ a, '\x00' ∉ n) (hplain : d.tree.Plain a) :
    Made d a ((makeDirectoriesWithin bound (Path.ofAddress a)).on d) := by
  induction a generalizing bound with
  | nil =>
    obtain ⟨bound, rfl⟩ := Nat.exists_eq_add_one_of_ne_zero (Nat.ne_of_gt hbound)
    rw [makeDirectoriesWithin_on bound (Path.ofAddress_ne_nil []), makeDirectory_on_entry rfl]
    show Made d [] (settle (Path.ofAddress []) .alreadyExists d)
    rw [settle_of_directory _ rfl]
    exact .done (Tree.clear_of_directory rfl) (by simp)
  | cons n dir ih =>
    obtain ⟨bound, rfl⟩ := Nat.exists_eq_add_one_of_ne_zero (Nat.ne_of_gt (Nat.zero_lt_of_lt hbound))
    rw [makeDirectoriesWithin_on bound (Path.ofAddress_ne_nil _)]
    cases hnode : d.tree.get? (n :: dir) with
    | some node =>
      rw [makeDirectory_on_entry hnode]
      show Made d (n :: dir) (settle _ .alreadyExists d)
      cases node with
      | directory =>
        rw [settle_of_directory _ hnode]
        have := Made.done (Tree.clear_of_directory hnode) (Tree.isName_of_mem hnode)
        rwa [Tree.withDirectories_of_directory hnode] at this
      | file content executable =>
        rw [settle_of_ne _ ha hnul hplain (by simp [hnode])]
        exact .blocked _ ⟨n :: dir, List.suffix_refl _, content, executable, hnode⟩
      | link target => exact absurd hnode (hplain _ (List.suffix_refl _) target)
    | none =>
      have hmissing := place_of_missing ha hnul hplain hnode
      have hne : d.tree.get? (n :: dir) ≠ some .directory := by simp [hnode]
      rw [makeDirectory_on]
      generalize d.place (Path.ofAddress (n :: dir)) = spot at hmissing
      cases hmissing with
      | vacant he habove hlen =>
        cases he
        have hname : isName n = true :=
          isName_iff.2 ⟨ha n (by simp), hnul n (by simp), hlen⟩
        have hclear : d.tree.Clear (n :: dir) := fun b hb => by
          rcases List.suffix_cons_iff.1 hb with rfl | hb
          · exact .inl hnode
          · exact Tree.clear_of_directory habove b hb
        have := Made.done hclear (List.forall_mem_cons.2 ⟨hname, Tree.isName_of_mem habove⟩)
        rwa [Tree.withDirectories, Tree.withDirectories_of_directory habove] at this
      | notDirectory hblocked =>
        show Made d (n :: dir) (settle _ _ d)
        rw [settle_of_ne _ ha hnul hplain hne]
        exact .blocked _ hblocked
      | nameTooLong hn hlen =>
        show Made d (n :: dir) (settle _ _ d)
        rw [settle_of_ne _ ha hnul hplain hne]
        have := Made.stopped (d := d) .nameTooLong hn hlen (List.nil_suffix)
          (Tree.clear_of_directory rfl) (by simp)
        exact this
      | notFound hblocked habove =>
        show Made d (n :: dir) (match Path.parent? (Path.ofAddress (n :: dir)) with
          | none => (.error .notFound, d)
          | some above => _)
        rw [Path.parent?_ofAddress ha]
        simp only
        have ih := ih bound (by simpa using hbound) ha.tail (fun m hm => hnul m (by simp [hm]))
          hplain.tail
        generalize (makeDirectoriesWithin bound (Path.ofAddress dir)).on d = outcome at ih
        cases ih with
        | blocked e hb => exact absurd (hb.of_suffix (List.suffix_cons n dir)) hblocked
        | stopped e hn hlen hb hclear hnames =>
          exact .stopped e (List.mem_cons_of_mem n hn) hlen
            (hb.trans (List.suffix_cons n dir)) hclear hnames
        | done hclear hnames => exact made_after_above ha hnul hnode hclear hnames

theorem length_le_length_ofAddress {a : Address} (ha : Path.IsWay a) :
    a.length ≤ (Path.ofAddress a).length := by
  induction a with
  | nil => exact Nat.zero_le _
  | cons n a ih =>
    have ih := ih ha.tail
    by_cases h : a = []
    · subst h
      simp [Path.ofAddress, Path.ofNames]
    · rw [Path.ofAddress_cons h]
      simp only [List.length_cons, List.length_append]
      omega

theorem made_makeDirectories {a : Address} (ha : Path.IsWay a) (hnul : ∀ n ∈ a, '\x00' ∉ n)
    (hplain : d.tree.Plain a) : Made d a ((makeDirectories (Path.ofAddress a)).on d) :=
  made_makeDirectoriesWithin _ (Nat.lt_succ_of_le (length_le_length_ofAddress ha)) ha hnul hplain

/-- On a clear way all directories are made. -/
theorem makeDirectories_on_clear {a : Address} (hclear : d.tree.Clear a)
    (hnames : ∀ n ∈ a, isName n = true) :
    (makeDirectories (Path.ofAddress a)).on d =
      (.ok (), { d with tree := d.tree.withDirectories a }) := by
  obtain ⟨hplain, hblocked⟩ := Tree.clear_iff.1 hclear
  have hmade := made_makeDirectories (d := d) (fun n hn => isStep_of_isName (hnames n hn))
    (fun n hn => (isName_iff.1 (hnames n hn)).2.1) hplain
  generalize (makeDirectories (Path.ofAddress a)).on d = outcome at hmade
  cases hmade with
  | done => rfl
  | blocked e hb => exact absurd hb hblocked
  | stopped e hn hlen => exact absurd hlen (Nat.not_lt.2 (isName_iff.1 (hnames _ hn)).2.2)

/-- Where a file stands in the way no directory is made. -/
theorem makeDirectories_on_blocked {a : Address} (hplain : d.tree.Plain a)
    (hblocked : d.tree.Blocked a) (hnames : ∀ n ∈ a, isName n = true) :
    ∃ e, (makeDirectories (Path.ofAddress a)).on d = (.error e, d) := by
  have hmade := made_makeDirectories (d := d) (fun n hn => isStep_of_isName (hnames n hn))
    (fun n hn => (isName_iff.1 (hnames n hn)).2.1) hplain
  generalize (makeDirectories (Path.ofAddress a)).on d = outcome at hmade
  cases hmade with
  | done hclear => exact absurd hblocked (Tree.clear_iff.1 hclear).2
  | blocked e => exact ⟨e, rfl⟩
  | stopped e hn hlen => exact absurd hlen (Nat.not_lt.2 (isName_iff.1 (hnames _ hn)).2.2)

/-! ### Files -/

theorem openForWriting_ofAddress {a : Address} (ha : Path.IsWay a) :
    d.openForWriting (Path.ofAddress a) =
      match d.follow true (Path.ofAddress a) (Path.steps (Path.ofAddress a)) with
      | .ok (.entry _ .directory) => .error .isDirectory
      | outcome => outcome := by
  rw [openForWriting, Path.wantsDirectory_ofAddress ha]
  rfl

/-- Filling a file, on any medium: it gets its content or, if that is refused, a part of it. -/
theorem fill_on [Medium] (name : Text) (dir : Address) (content : Bytes) (executable : Bool)
    (d : Disk) :
    (fill name dir content executable).on d =
      match Medium.stops d.tree (name :: dir) content with
      | none => (.ok (), { d with tree := d.tree.set name dir (.file content executable) })
      | some n =>
        (.error .noSpace,
          { d with tree := d.tree.set name dir (.file (content.take n) executable) }) := by
  rw [fill, Action.on_bind, Action.on_ask]
  dsimp only
  cases Medium.stops d.tree (name :: dir) content <;> rfl

/-- Putting a file, on any medium. -/
theorem put_on_spot [Medium] (path : Text) (content : Bytes) (executable : Option Bool) (d : Disk) :
    (put path content executable).on d =
      match d.openForWriting path with
      | .error e => (.error e, d)
      | .ok (.vacant dir name) =>
        (do
          add name dir (.file [] (executable.getD false))
          fill name dir content (executable.getD false) : Action OsError Unit).on d
      | .ok (.entry (name :: dir) (.file _ old)) =>
        (fill name dir content (executable.getD old)).on d
      | .ok (.entry _ _) => (.error .isDirectory, d) := by
  rw [put, Action.on_bind, Action.on_consult]
  rcases d.openForWriting path with _ | ⟨_ | ⟨_, _⟩, _ | _ | _⟩ | _ <;> rfl

theorem put_on (path : Text) (content : Bytes) (executable : Option Bool) (d : Disk) :
    (put path content executable).on d =
      match d.openForWriting path with
      | .error e => (.error e, d)
      | .ok (.vacant dir name) =>
        (.ok (), { d with tree := d.tree.set name dir (.file content (executable.getD false)) })
      | .ok (.entry (name :: dir) (.file _ old)) =>
        (.ok (), { d with tree := d.tree.set name dir (.file content (executable.getD old)) })
      | .ok (.entry _ _) => (.error .isDirectory, d) := by
  rw [put_on_spot]
  rcases d.openForWriting path with _ | ⟨_ | ⟨_, _⟩, _ | _ | _⟩ | ⟨dir, name⟩ <;> try rfl
  dsimp only
  rw [Action.on_bind_ok (add_on name dir _ d), fill_on]
  exact congrArg (fun t => (Except.ok (), { d with tree := t })) (Tree.set_file_set_file ..)

variable {content old : Bytes} {executable : Option Bool} {n : Text} {dir : Address}

theorem put_on_vacant (hdir : d.tree.get? dir = some .directory) (hn : isName n = true)
    (h : d.tree.get? (n :: dir) = none) :
    (put (Path.ofAddress (n :: dir)) content executable).on d =
      (.ok (), { d with tree := d.tree.set n dir (.file content (executable.getD false)) }) := by
  rw [put_on, openForWriting_ofAddress (.cons (isStep_of_isName hn) (Tree.isWay_of_get? hdir)),
    follow_of_vacant hdir hn h]

theorem put_on_file {mode : Bool} (h : d.tree.get? (n :: dir) = some (.file old mode)) :
    (put (Path.ofAddress (n :: dir)) content executable).on d =
      (.ok (), { d with tree := d.tree.set n dir (.file content (executable.getD mode)) }) := by
  rw [put_on, openForWriting_ofAddress (Tree.isWay_of_get? h), follow_of_get? h (by simp)]

theorem put_on_directory {a : Address} (h : d.tree.get? a = some .directory) :
    (put (Path.ofAddress a) content executable).on d = (.error .isDirectory, d) := by
  rw [put_on, openForWriting_ofAddress (Tree.isWay_of_get? h), follow_of_get? h (by simp)]

/-- Where no link stands in its place, a file is written there unless a directory does. -/
theorem put_on_unlinked (content : Bytes) (executable : Option Bool)
    (hdir : d.tree.get? dir = some .directory)
    (hn : isName n = true) (hlink : ∀ target, d.tree.get? (n :: dir) ≠ some (.link target)) :
    (∃ e, (put (Path.ofAddress (n :: dir)) content executable).on d = (.error e, d)) ∨
      d.tree.get? (n :: dir) ≠ some .directory ∧ ∃ mode,
        (put (Path.ofAddress (n :: dir)) content executable).on d =
          (.ok (), { d with tree := d.tree.set n dir (.file content mode) }) := by
  cases h : d.tree.get? (n :: dir) with
  | none => exact .inr ⟨by simp, _, put_on_vacant hdir hn h⟩
  | some node =>
    cases node with
    | directory => exact .inl ⟨_, put_on_directory h⟩
    | file old mode => exact .inr ⟨by simp, _, put_on_file h⟩
    | link target => exact absurd h (hlink target)

/-- Nothing is put under a name that is too long for a file. -/
theorem put_on_tooLong (hdir : d.tree.get? dir = some .directory) (hn : Path.isStep n = true)
    (hnul : '\x00' ∉ n) (hlen : maxNameLength < n.byteLength) :
    ∃ e, (put (Path.ofAddress (n :: dir)) content executable).on d = (.error e, d) := by
  have ha : Path.IsWay (n :: dir) := .cons hn (Tree.isWay_of_get? hdir)
  have hnone : d.tree.get? (n :: dir) = none := by
    cases h : d.tree.get? (n :: dir) with
    | none => rfl
    | some node => exact absurd hlen (Nat.not_lt.2 (isName_iff.1 (Tree.isName_of_get? h)).2.2)
  have hplain : d.tree.Plain (n :: dir) := fun b hb target ht => by
    rcases List.suffix_cons_iff.1 hb with rfl | hb
    · cases hnone.symm.trans ht
    · exact Tree.plain_of_get? hdir (by simp) b hb target ht
  obtain ⟨spot, hspot, hfollow⟩ := follow_of_missing true ha
    (List.forall_mem_cons.2 ⟨hnul, nul_not_mem_of_get? hdir⟩) hplain hnone
  rw [put_on, openForWriting_ofAddress ha, hfollow]
  cases hspot with
  | vacant he habove hshort =>
    cases he
    exact absurd hlen (Nat.not_lt.2 hshort)
  | notFound => exact ⟨_, rfl⟩
  | notDirectory => exact ⟨_, rfl⟩
  | nameTooLong => exact ⟨_, rfl⟩

/-- To copy a file is to put its content and its mode. -/
theorem copy_on_file {a : Address} {mode : Bool} (h : d.tree.get? a = some (.file content mode))
    (target : Text) :
    (copy (Path.ofAddress a) target).on d = (put target content (some mode)).on d := by
  rw [copy, Action.on_bind, Action.on_consult, find_of_get? h (by simp)]

/-! ### Moving and removing -/

theorem move_on (source target : Text) (d : Disk) :
    (move source target).on d =
      match d.place source with
      | .error e => (.error e, d)
      | .ok (.vacant _ _) => (.error .notFound, d)
      | .ok (.entry _ .directory) => (.error .isDirectory, d)
      | .ok (.entry old node) =>
        match d.place target with
        | .error e => (.error e, d)
        | .ok (.entry _ .directory) => (.error .isDirectory, d)
        | .ok (.entry [] _) => (.error .isDirectory, d)
        | .ok (.entry (name :: dir) _) =>
          (.ok (), if old = name :: dir then d
            else { d with tree := (d.tree.prune old).set name dir node })
        | .ok (.vacant dir name) =>
          (.ok (), { d with tree := (d.tree.prune old).set name dir node }) := by
  rw [move, Action.on_bind, Action.on_consult]
  rcases d.place source with _ | ⟨old, _ | _ | _⟩ | _ <;> try rfl
  · simp only
    rw [Action.on_bind, Action.on_consult]
    rcases d.place target with _ | ⟨_ | ⟨name, dir⟩, _ | _ | _⟩ | _ <;> try rfl
    · simp only
      split <;> rfl
    · simp only
      split <;> rfl
  · simp only
    rw [Action.on_bind, Action.on_consult]
    rcases d.place target with _ | ⟨_ | ⟨name, dir⟩, _ | _ | _⟩ | _ <;> try rfl
    · simp only
      split <;> rfl
    · simp only
      split <;> rfl

/-- A move that fails changes nothing. -/
theorem move_on_error {source target : Text} {e : OsError}
    (h : ((move source target).on d).1 = .error e) : ((move source target).on d).2 = d := by
  rw [move_on] at h ⊢
  split
  · rfl
  · rfl
  · rfl
  · next old node hnode hsource =>
    rw [hsource] at h
    split
    · rfl
    · rfl
    · rfl
    · next htarget => simp [htarget] at h
    · next htarget => simp [htarget] at h

/-- A file or link is moved to a place that no directory holds. -/
theorem move_on_place {a : Address} {node : Node} (h : d.tree.get? a = some node)
    (hnode : node ≠ .directory) (hdir : d.tree.get? dir = some .directory)
    (hn : isName n = true) (hplace : d.tree.get? (n :: dir) ≠ some .directory)
    (hne : a ≠ n :: dir) :
    (move (Path.ofAddress a) (Path.ofAddress (n :: dir))).on d =
      (.ok (), { d with tree := (d.tree.prune a).set n dir node }) := by
  rw [move_on, place_of_get? h]
  cases hold : d.tree.get? (n :: dir) with
  | none =>
    rw [place_of_vacant hdir hn hold]
    cases node <;> first | rfl | exact absurd rfl hnode
  | some old =>
    rw [place_of_get? hold]
    cases node with
    | directory => exact absurd rfl hnode
    | _ =>
      cases old with
      | directory => exact absurd hold hplace
      | _ => simp only [if_neg hne]

/-- Nothing is moved to where a directory is. -/
theorem move_on_directory {a b : Address} {node : Node} (h : d.tree.get? a = some node)
    (hb : d.tree.get? b = some .directory) :
    (move (Path.ofAddress a) (Path.ofAddress b)).on d = (.error .isDirectory, d) := by
  rw [move_on, place_of_get? h, place_of_get? hb]
  cases node <;> rfl

theorem removeFile_on (path : Text) (d : Disk) :
    (removeFile path).on d =
      match d.place path with
      | .error e => (.error e, d)
      | .ok (.vacant _ _) => (.error .notFound, d)
      | .ok (.entry _ .directory) => (.error .isDirectory, d)
      | .ok (.entry a _) => (.ok (), { d with tree := d.tree.prune a }) := by
  rw [removeFile, Action.on_bind, Action.on_consult]
  rcases d.place path with _ | ⟨_, _ | _ | _⟩ | _ <;> rfl

theorem removeAll_on (path : Text) (d : Disk) :
    (removeAll path).on d =
      match d.place path with
      | .error e => (.error e, d)
      | .ok (.vacant _ _) => (.error .notFound, d)
      | .ok (.entry a _) => (.ok (), { d with tree := d.tree.prune a }) := by
  rw [removeAll, Action.on_bind, Action.on_consult]
  rcases d.place path with _ | _ | _ <;> rfl

theorem makeExecutable_on (path : Text) (d : Disk) :
    (makeExecutable path).on d =
      match d.find path with
      | .error e => (.error e, d)
      | .ok (name :: dir, .file content _) =>
        (.ok (), { d with tree := d.tree.set name dir (.file content true) })
      | .ok _ => (.ok (), d) := by
  rw [makeExecutable, Action.on_bind, Action.on_consult]
  rcases d.find path with _ | ⟨_ | ⟨_, _⟩, _ | _ | _⟩ <;> rfl

/-- Touching a file, on any medium. -/
theorem touch_on_spot [Medium] (path : Text) (d : Disk) :
    (touch path).on d =
      match d.openForWriting path with
      | .error e => (.error e, d)
      | .ok (.vacant dir name) => (add name dir (.file [] false)).on d
      | .ok (.entry _ _) => (.ok (), d) := by
  rw [touch, Action.on_bind, Action.on_consult]
  rcases d.openForWriting path with _ | _ | _ <;> rfl

theorem touch_on (path : Text) (d : Disk) :
    (touch path).on d =
      match d.openForWriting path with
      | .error e => (.error e, d)
      | .ok (.vacant dir name) => (.ok (), { d with tree := d.tree.set name dir (.file [] false) })
      | .ok (.entry _ _) => (.ok (), d) := by
  rw [touch_on_spot]
  rcases d.openForWriting path with _ | _ | _ <;> rfl

end Disk

end ActionBundles
