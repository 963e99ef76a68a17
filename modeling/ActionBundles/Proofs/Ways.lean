import ActionBundles.Proofs.Addresses

/-!
# Ways through a tree

What following names through a tree comes to. `Tree.leg_append` cuts a way in two: what comes of the
whole is what comes of its second part, from where the first one leads. With it a way down to
something that is there is known from what is there alone, since whatever is there lies in a
directory; only a way that ends before its last name may depend on links.

At the end stands what `Disk.place`, `Disk.find` and `Disk.openForWriting` say of the path of an
address.
-/

namespace ActionBundles

namespace Tree

/-! ### What lies above -/

/-- What something lies in is a directory. -/
theorem get?_of_append {t : Tree} {a b : Address} {node : Node} (h : t.get? (b ++ a) = some node)
    (hb : b ≠ []) : t.get? a = some .directory := by
  induction b generalizing node with
  | nil => exact absurd rfl hb
  | cons n b ih =>
    have hdir := get?_dir h
    by_cases hb' : b = []
    · subst hb'
      exact hdir
    · exact ih hdir hb'

theorem get?_of_suffix {t : Tree} {a b : Address} {node : Node} (h : t.get? b = some node)
    (hs : a <:+ b) (hne : a ≠ b) : t.get? a = some .directory := by
  obtain ⟨c, rfl⟩ := hs
  exact get?_of_append h fun hc => hne (by rw [hc, List.nil_append])

theorem directory_of_suffix {t : Tree} {a b : Address} (h : t.get? b = some .directory)
    (hs : a <:+ b) : t.get? a = some .directory := by
  by_cases he : a = b
  · rw [he, h]
  · exact get?_of_suffix h hs he

/-- What would lie in something that is no directory is not there. -/
theorem get?_eq_none_of_append {t : Tree} {a b : Address} (h : t.get? a ≠ some .directory)
    (hb : b ≠ []) : t.get? (b ++ a) = none := by
  cases hc : t.get? (b ++ a) with
  | none => rfl
  | some node => exact absurd (get?_of_append hc hb) h

/-! ### Single steps -/

variable {t : Tree} {follow : Bool} {n : Text} {dir : Address} {rest : List Text}

/-- A step that leads down: it is made of no dots, and short enough for a name. -/
structure IsDown (n : Text) : Prop where
  notDot : n ≠ ['.']
  notDots : n ≠ ['.', '.']
  short : n.byteLength ≤ maxNameLength

theorem isDown_of_isStep (hn : Path.isStep n = true) (hlen : n.byteLength ≤ maxNameLength) :
    IsDown n := by
  obtain ⟨-, hdot, hdots, -⟩ := Path.isStep_iff.1 hn
  exact ⟨hdot, hdots, hlen⟩

theorem isDown_of_isName (hn : isName n = true) : IsDown n :=
  isDown_of_isStep (isStep_of_isName hn) (isName_iff.1 hn).2.2

/-- A step that leads down looks at the entry of its name. -/
theorem leg_cons (hn : IsDown n) :
    t.leg follow dir (n :: rest) =
      match t.get? (n :: dir) with
      | none => if rest = [] then .ok (.end_ (.vacant dir n)) else .error .notFound
      | some .directory => t.leg follow (n :: dir) rest
      | some (.file content executable) =>
        if rest = [] then .ok (.end_ (.entry (n :: dir) (.file content executable)))
        else .error .notDirectory
      | some (.link target) =>
        if rest = [] && !follow then .ok (.end_ (.entry (n :: dir) (.link target)))
        else .ok (.link dir target rest) := by
  rw [leg, if_neg hn.notDot, if_neg hn.notDots]
  exact if_neg (Nat.not_lt.2 hn.short)

theorem leg_cons_of_lt (hn : Path.isStep n = true) (hlen : maxNameLength < n.byteLength) :
    t.leg follow dir (n :: rest) = .error .nameTooLong := by
  obtain ⟨-, hdot, hdots, -⟩ := Path.isStep_iff.1 hn
  rw [leg, if_neg hdot, if_neg hdots, if_pos hlen]

/-! ### Ways in two parts -/

/-- What comes of a way whose first part came to `first`, with `rest` still to follow. -/
def resume (t : Tree) (follow : Bool) (rest : List Text) : Leg → Except OsError Leg
  | .end_ (.entry a .directory) => t.leg follow a rest
  | .end_ (.entry _ _) => .error .notDirectory
  | .end_ (.vacant _ _) => .error .notFound
  | .link above target more => .ok (.link above target (more ++ rest))

theorem leg_append (ms : List Text) (hrest : rest ≠ []) :
    t.leg follow dir (ms ++ rest) =
      match t.leg true dir ms with
      | .error e => .error e
      | .ok first => t.resume follow rest first := by
  induction ms generalizing dir with
  | nil => rfl
  | cons n ms ih =>
    have hmore : ms ++ rest ≠ [] := by simp [hrest]
    rw [List.cons_append, leg, leg]
    split
    · exact ih
    split
    · exact ih
    split
    · rfl
    cases t.get? (n :: dir) with
    | none =>
      by_cases hms : ms = []
      · subst hms
        simp [resume]
      · simp [hms]
    | some node =>
      cases node with
      | directory => exact ih
      | file content executable =>
        by_cases hms : ms = []
        · subst hms
          simp [resume]
        · simp [hms]
      | link target => simp [hmore, resume]

/-! ### Ways along addresses -/

/-- Whatever is there has names that files may have. -/
theorem isName_of_mem {a : Address} {node : Node} (h : t.get? a = some node) :
    ∀ n ∈ a, isName n = true := by
  induction a generalizing node with
  | nil => simp
  | cons n a ih =>
    exact List.forall_mem_cons.2 ⟨isName_of_get? h, ih (get?_dir h)⟩

theorem isWay_of_get? {a : Address} {node : Node} (h : t.get? a = some node) : Path.IsWay a :=
  fun n hn => isStep_of_isName (isName_of_mem h n hn)

/-- A way down to something that is there leads to it, unless it is a link that is followed. -/
theorem leg_of_get? {ms : List Text} {node : Node} (hdir : t.get? dir = some .directory)
    (h : t.get? (ms.reverse ++ dir) = some node)
    (hlink : follow = true → ∀ target, node ≠ .link target) :
    t.leg follow dir ms = .ok (.end_ (.entry (ms.reverse ++ dir) node)) := by
  induction ms generalizing dir with
  | nil =>
    cases hdir.symm.trans h
    rfl
  | cons n ms ih =>
    rw [List.reverse_cons, List.append_assoc, List.singleton_append] at h ⊢
    have hname : isName n = true := isName_of_mem h n (by simp)
    rw [leg_cons (isDown_of_isName hname)]
    by_cases hms : ms = []
    · subst hms
      rw [List.reverse_nil, List.nil_append] at h ⊢
      rw [h]
      cases node with
      | directory => rfl
      | file content executable => rfl
      | link target =>
        cases follow with
        | true => exact absurd rfl (hlink rfl target)
        | false => rfl
    · have hbelow := get?_of_append h (by simpa using hms)
      rw [hbelow]
      exact ih hbelow h

/-- A way to a name that is missing in a directory leads to the vacant place. -/
theorem leg_of_get?_eq_none {ms : List Text} (hdir : t.get? dir = some .directory)
    (h : t.get? (ms.reverse ++ dir) = some .directory) (hn : isName n = true)
    (hnone : t.get? (n :: (ms.reverse ++ dir)) = none) :
    t.leg follow dir (ms ++ [n]) = .ok (.end_ (.vacant (ms.reverse ++ dir) n)) := by
  have hfirst : t.leg true dir ms = .ok (.end_ (.entry (ms.reverse ++ dir) .directory)) :=
    leg_of_get? hdir h fun _ _ => by simp
  rw [leg_append ms (List.cons_ne_nil n []), hfirst]
  show t.leg follow (ms.reverse ++ dir) [n] = _
  rw [leg_cons (isDown_of_isName hn), hnone]
  rfl

/-- No link stands on the way to an address, nor at it. -/
def Plain (t : Tree) (a : Address) : Prop := ∀ b, b <:+ a → ∀ target, t.get? b ≠ some (.link target)

theorem Plain.of_suffix {a b : Address} (h : t.Plain b) (hs : a <:+ b) : t.Plain a :=
  fun c hc => h c (hc.trans hs)

theorem Plain.tail {a : Address} (h : t.Plain (n :: a)) : t.Plain a :=
  h.of_suffix (List.suffix_cons n a)

/-- Where something is there, no link stands on the way to it. -/
theorem plain_of_get? {a : Address} {node : Node} (h : t.get? a = some node)
    (hlink : ∀ target, node ≠ .link target) : t.Plain a := by
  intro b hb target hbt
  by_cases hba : b = a
  · subst hba
    cases h.symm.trans hbt
    exact hlink target rfl
  · cases (get?_of_suffix h hb hba).symm.trans hbt

/-- A file stands on the way to an address, or at it. -/
def Blocked (t : Tree) (a : Address) : Prop :=
  ∃ b, b <:+ a ∧ ∃ content executable, t.get? b = some (.file content executable)

theorem not_blocked_of_directory {a : Address} (h : t.get? a = some .directory) :
    ¬ t.Blocked a := by
  rintro ⟨b, hb, content, executable, hfile⟩
  by_cases he : b = a
  · subst he
    cases h.symm.trans hfile
  · cases (get?_of_suffix h hb he).symm.trans hfile

theorem Blocked.of_suffix {a b : Address} (h : t.Blocked a) (hs : a <:+ b) : t.Blocked b := by
  obtain ⟨c, hc, hfile⟩ := h
  exact ⟨c, hc.trans hs, hfile⟩

/-- What may come of a way without links to something that is missing. -/
inductive Missing (t : Tree) (a : Address) : Except OsError Spot → Prop where
  /-- Only the last name is missing. -/
  | vacant {n : Text} {above : Address} (ha : a = n :: above)
      (habove : t.get? above = some .directory) (hlen : n.byteLength ≤ maxNameLength) :
      Missing t a (.ok (.vacant above n))
  /-- The directory is missing as well. -/
  | notFound (hblocked : ¬ t.Blocked a) (habove : t.get? a.tail = none) :
      Missing t a (.error .notFound)
  /-- A file stands in the way. -/
  | notDirectory (hblocked : t.Blocked a) : Missing t a (.error .notDirectory)
  /-- A name is too long for a file. -/
  | nameTooLong {n : Text} (hn : n ∈ a) (hlen : maxNameLength < n.byteLength) :
      Missing t a (.error .nameTooLong)

theorem leg_of_missing {ms : List Text} (hdir : t.get? dir = some .directory)
    (hms : ∀ m ∈ ms, Path.isStep m = true) (hplain : t.Plain (ms.reverse ++ dir))
    (h : t.get? (ms.reverse ++ dir) = none) :
    ∃ spot, Missing t (ms.reverse ++ dir) spot ∧ t.leg follow dir ms = spot.map .end_ := by
  induction ms generalizing dir with
  | nil => exact absurd (hdir.symm.trans h) (by simp)
  | cons n ms ih =>
    rw [List.reverse_cons, List.append_assoc, List.singleton_append] at h hplain ⊢
    have hn := hms n (by simp)
    by_cases hlen : maxNameLength < n.byteLength
    · rw [leg_cons_of_lt hn hlen]
      exact ⟨_, .nameTooLong (by simp) hlen, rfl⟩
    have hlen := Nat.not_lt.1 hlen
    rw [leg_cons (isDown_of_isStep hn hlen)]
    cases hnode : t.get? (n :: dir) with
    | none =>
      by_cases hnil : ms = []
      · subst hnil
        exact ⟨_, .vacant rfl hdir hlen, rfl⟩
      simp only [hnil, ↓reduceIte]
      have hne : t.get? (n :: dir) ≠ some .directory := by simp [hnode]
      refine ⟨_, .notFound ?_ ?_, rfl⟩
      · rintro ⟨b, hb, content, executable, hfile⟩
        rcases List.suffix_or_suffix_of_suffix hb (List.suffix_append ms.reverse (n :: dir))
          with hs | hs
        · rcases List.suffix_cons_iff.1 hs with rfl | hs
          · cases hnode.symm.trans hfile
          · exact not_blocked_of_directory hdir ⟨b, hs, content, executable, hfile⟩
        · by_cases he : n :: dir = b
          · subst he
            cases hnode.symm.trans hfile
          · exact hne (get?_of_suffix hfile hs he)
      · obtain ⟨m, more, hmore⟩ := List.exists_cons_of_ne_nil (l := ms.reverse) (by simpa)
        rw [hmore, List.cons_append, List.tail_cons]
        by_cases he : more = []
        · subst he
          exact hnode
        · exact get?_eq_none_of_append hne he
    | some node =>
      cases node with
      | directory => exact ih hnode (fun m hm => hms m (by simp [hm])) hplain h
      | file content executable =>
        by_cases hnil : ms = []
        · subst hnil
          cases hnode.symm.trans h
        · simp only [hnil, ↓reduceIte]
          exact ⟨_, .notDirectory ⟨n :: dir, List.suffix_append .., content, executable, hnode⟩,
            rfl⟩
      | link target => exact absurd hnode (hplain _ (List.suffix_append ..) target)

end Tree

namespace Disk

variable {d : Disk} {a : Address}

/-! ### What paths lead to -/

theorem follow_of_leg {links : Bool} {spot : Except OsError Spot} (ha : Path.IsWay a)
    (hnul : ∀ n ∈ a, '\x00' ∉ n) (h : d.tree.leg links [] a.reverse = spot.map .end_) :
    d.follow links (Path.ofAddress a) (Path.steps (Path.ofAddress a)) = spot := by
  rw [follow, if_neg (Path.ofAddress_ne_nil a), if_neg (Path.nul_not_mem_ofAddress.2 hnul),
    Tree.startOf, if_pos (Path.isAbsolute_ofAddress a), Path.steps_ofAddress ha, Tree.walk, h]
  cases spot <;> rfl

theorem nul_not_mem_of_get? {node : Node} (h : d.tree.get? a = some node) :
    ∀ n ∈ a, '\x00' ∉ n := fun n hn => (isName_iff.1 (Tree.isName_of_mem h n hn)).2.1

theorem follow_of_get? {links : Bool} {node : Node} (h : d.tree.get? a = some node)
    (hlink : links = true → ∀ target, node ≠ .link target) :
    d.follow links (Path.ofAddress a) (Path.steps (Path.ofAddress a)) = .ok (.entry a node) := by
  refine follow_of_leg (Tree.isWay_of_get? h) (nul_not_mem_of_get? h) ?_
  have hleg : d.tree.leg links [] a.reverse = .ok (.end_ (.entry (a.reverse.reverse ++ []) node)) :=
    Tree.leg_of_get? rfl (by simpa using h) hlink
  simpa [Except.map] using hleg

theorem follow_of_missing (links : Bool) (ha : Path.IsWay a) (hnul : ∀ n ∈ a, '\x00' ∉ n)
    (hplain : d.tree.Plain a) (h : d.tree.get? a = none) :
    ∃ spot, Tree.Missing d.tree a spot ∧
      d.follow links (Path.ofAddress a) (Path.steps (Path.ofAddress a)) = spot := by
  have hleg : ∃ spot, Tree.Missing d.tree (a.reverse.reverse ++ []) spot ∧
      d.tree.leg links [] a.reverse = spot.map .end_ :=
    Tree.leg_of_missing rfl (fun m hm => ha m (List.mem_reverse.1 hm)) (by simpa using hplain)
      (by simpa using h)
  obtain ⟨spot, hspot, hleg⟩ := hleg
  exact ⟨spot, by simpa using hspot, follow_of_leg ha hnul hleg⟩

/-- The place of something that is there. -/
theorem place_of_get? {node : Node} (h : d.tree.get? a = some node) :
    d.place (Path.ofAddress a) = .ok (.entry a node) := follow_of_get? h (by simp)

theorem place_of_missing (ha : Path.IsWay a) (hnul : ∀ n ∈ a, '\x00' ∉ n)
    (hplain : d.tree.Plain a) (h : d.tree.get? a = none) :
    Tree.Missing d.tree a (d.place (Path.ofAddress a)) := by
  obtain ⟨spot, hspot, hfollow⟩ := follow_of_missing false ha hnul hplain h
  exact (show d.place (Path.ofAddress a) = spot from hfollow) ▸ hspot

/-- The vacant place of a name that is missing in a directory. -/
theorem follow_of_vacant {links : Bool} {n : Text} {dir : Address}
    (hdir : d.tree.get? dir = some .directory) (hn : isName n = true)
    (h : d.tree.get? (n :: dir) = none) :
    d.follow links (Path.ofAddress (n :: dir)) (Path.steps (Path.ofAddress (n :: dir))) =
      .ok (.vacant dir n) := by
  refine follow_of_leg (.cons (isStep_of_isName hn) (Tree.isWay_of_get? hdir))
    (List.forall_mem_cons.2 ⟨(isName_iff.1 hn).2.1, nul_not_mem_of_get? hdir⟩) ?_
  have hleg : d.tree.leg links [] (dir.reverse ++ [n]) =
      .ok (.end_ (.vacant (dir.reverse.reverse ++ []) n)) :=
    Tree.leg_of_get?_eq_none rfl (by simpa using hdir) hn (by simpa using h)
  simpa [Except.map] using hleg

theorem place_of_vacant {n : Text} {dir : Address} (hdir : d.tree.get? dir = some .directory)
    (hn : isName n = true) (h : d.tree.get? (n :: dir) = none) :
    d.place (Path.ofAddress (n :: dir)) = .ok (.vacant dir n) := follow_of_vacant hdir hn h

theorem stepsOf_ofAddress (ha : Path.IsWay a) :
    Tree.stepsOf (Path.ofAddress a) = Path.steps (Path.ofAddress a) := by
  rw [Tree.stepsOf, Path.wantsDirectory_ofAddress ha]
  rfl

theorem find_of_get? {node : Node} (h : d.tree.get? a = some node)
    (hlink : ∀ target, node ≠ .link target) : d.find (Path.ofAddress a) = .ok (a, node) := by
  rw [find, stepsOf_ofAddress (Tree.isWay_of_get? h), follow_of_get? h fun _ => hlink]

theorem find_of_missing (ha : Path.IsWay a) (hnul : ∀ n ∈ a, '\x00' ∉ n)
    (hplain : d.tree.Plain a) (h : d.tree.get? a = none) :
    ∃ e, d.find (Path.ofAddress a) = .error e := by
  obtain ⟨spot, hspot, hfollow⟩ := follow_of_missing true ha hnul hplain h
  rw [find, stepsOf_ofAddress ha, hfollow]
  cases hspot <;> exact ⟨_, rfl⟩

/-! ### Questions about addresses -/

theorem isFile_ofAddress (ha : Path.IsWay a) (hnul : ∀ n ∈ a, '\x00' ∉ n)
    (hplain : d.tree.Plain a) : d.isFile (Path.ofAddress a) = true ↔
      ∃ content executable, d.tree.get? a = some (.file content executable) := by
  cases h : d.tree.get? a with
  | none =>
    obtain ⟨e, he⟩ := find_of_missing ha hnul hplain h
    simp [isFile, he]
  | some node =>
    cases node with
    | link target => exact absurd h (hplain a (List.suffix_refl a) target)
    | directory => simp [isFile, find_of_get? h]
    | file content executable => simp [isFile, find_of_get? h]

theorem isDirectory_ofAddress (ha : Path.IsWay a) (hnul : ∀ n ∈ a, '\x00' ∉ n)
    (hplain : d.tree.Plain a) :
    d.isDirectory (Path.ofAddress a) = true ↔ d.tree.get? a = some .directory := by
  cases h : d.tree.get? a with
  | none =>
    obtain ⟨e, he⟩ := find_of_missing ha hnul hplain h
    simp [isDirectory, he]
  | some node =>
    cases node with
    | link target => exact absurd h (hplain a (List.suffix_refl a) target)
    | directory => simp [isDirectory, find_of_get? h]
    | file content executable => simp [isDirectory, find_of_get? h]

theorem isThere_ofAddress (ha : Path.IsWay a) (hnul : ∀ n ∈ a, '\x00' ∉ n)
    (hplain : d.tree.Plain a) :
    d.isThere (Path.ofAddress a) = true ↔ d.tree.get? a ≠ none := by
  cases h : d.tree.get? a with
  | none =>
    obtain ⟨e, he⟩ := find_of_missing ha hnul hplain h
    simp [isThere, he, Except.toOption]
  | some node =>
    have hlink : ∀ target, node ≠ .link target := fun target he =>
      hplain a (List.suffix_refl a) target (by rw [h, he])
    simp [isThere, find_of_get? h hlink, Except.toOption]

end Disk

end ActionBundles
