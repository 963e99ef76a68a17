import ActionBundles.Proofs.Guarded
import ActionBundles.Proofs.PublishingSteps
import ActionBundles.Proofs.Regions

/-!
# What changes at most

In a project without links the program changes nothing but the entries that its paths name. A
change is `Confined` to some addresses if all others hold what they held; each action of the file
system is confined to the address of its path, and so is whatever is made of such actions. To lock
the manifest, to start a transaction, to gather files and to close the transaction touches nothing
but `Scratch`, and to store the manifest touches the manifest and its draft (`save_on`).
-/

namespace ActionBundles

open ActionBundles.Action

variable {free : Address → Prop} {a dir : Address} {t₀ t : Tree} {d : Disk} {n : Text}

/-- `t` is `t₀` but for addresses that are free to change, in a project at `a` without links. -/
structure Tree.Confined (free : Address → Prop) (a : Address) (t₀ t : Tree) : Prop where
  same : ∀ x, ¬ free x → t.get? x = t₀.get? x
  root : t.get? a = some .directory
  noLinks : t.NoLinksIn a

namespace Tree.Confined

theorem refl (hroot : t.get? a = some .directory) (hno : t.NoLinksIn a) : t.Confined free a t :=
  ⟨fun _ _ => rfl, hroot, hno⟩

theorem not_suffix (hin : a <:+ dir) : ¬ n :: dir <:+ a := fun hs => by
  have := hs.length_le.trans hin.length_le
  rw [List.length_cons] at this
  omega

theorem set (h : t₀.Confined free a t) {node : Node} (hin : a <:+ dir) (hfree : free (n :: dir))
    (hnode : ∀ target, node ≠ .link target) : t₀.Confined free a (t.set n dir node) where
  same x hx := by
    rw [get?_set, if_neg, h.same x hx]
    rintro ⟨-, rfl⟩
    exact hx hfree
  root := by
    rw [get?_set, if_neg, h.root]
    rintro ⟨-, rfl⟩
    exact not_suffix hin (List.suffix_refl _)
  noLinks := h.noLinks.set hnode

theorem prune (h : t₀.Confined free a t) (hin : a <:+ dir) (hfree : ∀ b, free (b ++ n :: dir)) :
    t₀.Confined free a (t.prune (n :: dir)) where
  same x hx := by
    rw [get?_prune, if_neg, h.same x hx]
    rintro ⟨-, b, rfl⟩
    exact hx (hfree b)
  root := by
    rw [get?_prune, if_neg, h.root]
    exact fun hs => not_suffix hin hs.2
  noLinks := h.noLinks.prune _

theorem withDirectories (h : t₀.Confined free a t) {w : Address} (hw : w <:+ dir) (hin : a <:+ dir)
    (hnames : ∀ k ∈ w, isName k = true) (hfree : ∀ x, x <:+ dir → a <:+ x → x ≠ a → free x) :
    t₀.Confined free a (t.withDirectories w) := by
  have hget := get?_withDirectories (t := t) hnames
  refine ⟨fun x hx => ?_, ?_, fun b target hlink => ?_⟩
  · rw [hget]
    split
    · next hs =>
      have habove : x <:+ a := by
        rcases List.suffix_or_suffix_of_suffix (hs.trans hw) hin with hxa | hax
        · exact hxa
        · by_cases he : x = a
          · exact he ▸ List.suffix_refl a
          · exact absurd (hfree x (hs.trans hw) hax he) hx
      rw [← h.same x hx, directory_of_suffix h.root habove]
    · exact h.same x hx
  · rw [hget, h.root, ite_self]
  · rw [hget] at hlink
    split at hlink
    · cases hlink
    · exact h.noLinks b target hlink

theorem plain (h : t₀.Confined free a d.tree) (hin : a <:+ dir) : d.tree.Plain dir := by
  obtain ⟨c, rfl⟩ := hin
  exact Disk.plain_of_noLinksIn h.noLinks h.root

end Tree.Confined

/-! ### Single actions -/

namespace Disk

section Cases

variable (hway : Path.IsWay (n :: dir)) (hnul : ∀ k ∈ n :: dir, '\x00' ∉ k)
  (hplain : d.tree.Plain (n :: dir))

include hway hplain

theorem removeAll_cases :
    ((removeAll (Path.ofAddress (n :: dir))).on d).2 = d ∨
      ((removeAll (Path.ofAddress (n :: dir))).on d).2 =
        { d with tree := d.tree.prune (n :: dir) } := by
  rw [removeAll_on]
  cases hplace : d.place (Path.ofAddress (n :: dir)) with
  | error e => exact .inl rfl
  | ok spot =>
    cases spot with
    | vacant above m => exact .inl rfl
    | entry b node =>
      obtain rfl : b = n :: dir := address_of_place_plain hway hplain.tail hplace
      exact .inr rfl

include hnul

theorem put_cases (content : Bytes) (executable : Option Bool) :
    ((put (Path.ofAddress (n :: dir)) content executable).on d).2 = d ∨ ∃ mode,
      ((put (Path.ofAddress (n :: dir)) content executable).on d).2 =
        { d with tree := d.tree.set n dir (.file content mode) } := by
  rw [put_on]
  cases hopen : d.openForWriting (Path.ofAddress (n :: dir)) with
  | error e => exact .inl rfl
  | ok spot =>
    have haddress := address_of_openForWriting_plain hway hnul hplain hopen
    cases spot with
    | vacant above m =>
      cases haddress
      exact .inr ⟨_, rfl⟩
    | entry b node =>
      cases haddress
      cases node with
      | file old mode => exact .inr ⟨_, rfl⟩
      | directory => exact .inl rfl
      | link target => exact .inl rfl

theorem touch_cases :
    ((touch (Path.ofAddress (n :: dir))).on d).2 = d ∨
      ((touch (Path.ofAddress (n :: dir))).on d).2 =
        { d with tree := d.tree.set n dir (.file [] false) } := by
  rw [touch_on]
  cases hopen : d.openForWriting (Path.ofAddress (n :: dir)) with
  | error e => exact .inl rfl
  | ok spot =>
    have haddress := address_of_openForWriting_plain hway hnul hplain hopen
    cases spot with
    | vacant above m =>
      cases haddress
      exact .inr rfl
    | entry b node => exact .inl rfl

theorem makeExecutable_cases :
    ((makeExecutable (Path.ofAddress (n :: dir))).on d).2 = d ∨ ∃ content,
      ((makeExecutable (Path.ofAddress (n :: dir))).on d).2 =
        { d with tree := d.tree.set n dir (.file content true) } := by
  rw [makeExecutable_on]
  cases hget : d.tree.get? (n :: dir) with
  | none =>
    obtain ⟨e, he⟩ := find_of_missing hway hnul hplain hget
    rw [he]
    exact .inl rfl
  | some node =>
    rw [find_of_get? hget fun target he => hplain _ (List.suffix_refl _) target (he ▸ hget)]
    cases node with
    | file content mode => exact .inr ⟨content, rfl⟩
    | directory => exact .inl rfl
    | link target => exact .inl rfl

end Cases

section Confined

theorem confined_makeDirectories (hway : Path.IsWay dir) (hnul : ∀ k ∈ dir, '\x00' ∉ k)
    (hin : a <:+ dir) (hfree : ∀ x, x <:+ dir → a <:+ x → x ≠ a → free x) :
    Keeps (t₀.Confined free a) (makeDirectories (Path.ofAddress dir)) := by
  intro d h
  have hmade := made_makeDirectories hway hnul (h.plain hin)
  generalize (makeDirectories (Path.ofAddress dir)).on d = outcome at hmade
  cases hmade with
  | done _ hnames => exact h.withDirectories (List.suffix_refl _) hin hnames hfree
  | blocked e _ => exact h
  | stopped e _ _ hb _ hnames => exact h.withDirectories hb hin hnames hfree

variable (hway : Path.IsWay (n :: dir)) (hnul : ∀ k ∈ n :: dir, '\x00' ∉ k) (hin : a <:+ dir)

include hway hin

theorem confined_removeAll (hfree : ∀ b, free (b ++ n :: dir)) :
    Keeps (t₀.Confined free a) (removeAll (Path.ofAddress (n :: dir))) := by
  intro d h
  rcases removeAll_cases hway (h.plain (hin.trans (List.suffix_cons n dir))) with he | he
  · rwa [he]
  · rw [he]
    exact h.prune hin hfree

include hnul

variable (hfree : free (n :: dir))

include hfree

theorem confined_put (content : Bytes) (executable : Option Bool) :
    Keeps (t₀.Confined free a) (put (Path.ofAddress (n :: dir)) content executable) := by
  intro d h
  rcases put_cases hway hnul (h.plain (hin.trans (List.suffix_cons n dir))) content executable with
    he | ⟨mode, he⟩
  · rwa [he]
  · rw [he]
    exact h.set hin hfree (by simp)

theorem confined_touch : Keeps (t₀.Confined free a) (touch (Path.ofAddress (n :: dir))) := by
  intro d h
  rcases touch_cases hway hnul (h.plain (hin.trans (List.suffix_cons n dir))) with he | he
  · rwa [he]
  · rw [he]
    exact h.set hin hfree (by simp)

theorem confined_makeExecutable :
    Keeps (t₀.Confined free a) (makeExecutable (Path.ofAddress (n :: dir))) := by
  intro d h
  rcases makeExecutable_cases hway hnul (h.plain (hin.trans (List.suffix_cons n dir))) with
    he | ⟨content, he⟩
  · rwa [he]
  · rw [he]
    exact h.set hin hfree (by simp)

end Confined

end Disk

namespace Project

variable {l : Layout} {name : Text} {tx : Transaction}

/-! ### What transactions and locks change -/

/-- The file that is locked. -/
def lockAddress (a : Address) : Address := ("manifest.lock" : Text) :: bridgeAddress a

/-- What is changed by locking the manifest and by transactions before they publish. -/
def Scratch (a x : Address) : Prop :=
  x = bridgeAddress a ∨ x = lockAddress a ∨ transactionsAddress a <:+ x

theorem suffix_bridgeAddress (a : Address) : a <:+ bridgeAddress a := List.suffix_cons _ a

theorem suffix_transactionsAddress (a : Address) : a <:+ transactionsAddress a :=
  (suffix_bridgeAddress a).trans (List.suffix_cons _ _)

theorem eq_of_suffix_suffix {x : Address} (h : x <:+ a) (h' : a <:+ x) : x = a :=
  h.eq_of_length (Nat.le_antisymm h.length_le h'.length_le)

/-- All directories between a project and something in a transaction may be made. -/
theorem scratch_of_suffix {x y : Address} (hy : transactionsAddress a <:+ y) (hx : x <:+ y)
    (hin : a <:+ x) (hne : x ≠ a) : Scratch a x := by
  rcases List.suffix_or_suffix_of_suffix hx hy with hs | hs
  · rcases List.suffix_cons_iff.1 hs with rfl | hs
    · exact .inr (.inr (List.suffix_refl _))
    rcases List.suffix_cons_iff.1 hs with rfl | hs
    · exact .inl rfl
    · exact absurd (eq_of_suffix_suffix hs hin) hne
  · exact .inr (.inr hs)

theorem nul_not_mem_bridge (hnul : ∀ k ∈ a, '\x00' ∉ k) {n : Text} (hn : '\x00' ∉ n) :
    ∀ k ∈ n :: bridgeAddress a, '\x00' ∉ k :=
  List.forall_mem_cons.2 ⟨hn, List.forall_mem_cons.2 ⟨by decide, hnul⟩⟩

section Parts

variable (ha : Path.IsWay a) (hnul : ∀ k ∈ a, '\x00' ∉ k)

include ha hnul

theorem confined_makeBridge (hbridge : free (bridgeAddress a)) :
    Keeps (t₀.Confined free a) (Disk.makeDirectories (Path.ofAddress (bridgeAddress a))) :=
  Disk.confined_makeDirectories (isWay_bridgeAddress ha)
    (List.forall_mem_cons.2 ⟨by decide, hnul⟩) (suffix_bridgeAddress a) fun x hx hin hne => by
      rcases List.suffix_cons_iff.1 hx with rfl | hs
      · exact hbridge
      · exact absurd (eq_of_suffix_suffix hs hin) hne

theorem confined_lock (hl : l.root = Path.ofAddress a) :
    Keeps (t₀.Confined (Scratch a) a) (Manifest.lock l) := by
  rw [Manifest.lock, bridgeDir_eq ha hl, Layout.lockPath, join_bridgeDir ha hl (by decide)]
  exact ((confined_makeBridge ha hnul (.inl rfl)).within _).bind fun _ =>
    (Disk.confined_touch ((isWay_bridgeAddress ha).cons (by decide))
      (nul_not_mem_bridge hnul (by decide)) (suffix_bridgeAddress a) (.inr (.inl rfl))).within _

/-- A transaction starts with an empty directory of its own. -/
theorem start_confined (hname : isName name = true) (h : t₀.Confined (Scratch a) a d.tree) :
    t₀.Confined (Scratch a) a
        ((Transaction.start (Path.ofAddress (transactionsAddress a)) name).on d).2.tree ∧
      ∀ tx d', (Transaction.start (Path.ofAddress (transactionsAddress a)) name).on d =
          (.ok tx, d') →
        tx.dir = Path.ofAddress (name :: transactionsAddress a) ∧
        d'.tree.get? (name :: transactionsAddress a) = some .directory ∧
        ∀ b, b ≠ [] → d'.tree.get? (b ++ name :: transactionsAddress a) = none := by
  have hway : Path.IsWay (transactionsAddress a) := (isWay_bridgeAddress ha).cons (by decide)
  have hmake : t₀.Confined (Scratch a) a
      ((Disk.makeDirectories (Path.ofAddress (transactionsAddress a))).on d).2.tree :=
    Disk.confined_makeDirectories hway (nul_not_mem_bridge hnul (by decide))
      (suffix_transactionsAddress a)
      (fun x hx hin hne => scratch_of_suffix (List.suffix_refl _) hx hin hne) d h
  rw [Transaction.start, Path.join_ofAddress hway (isStep_of_isName hname), on_bind, on_within]
  generalize (Disk.makeDirectories (Path.ofAddress (transactionsAddress a))).on d = made at hmake
  obtain ⟨e | _, d₁⟩ := made
  · exact ⟨hmake, fun tx d' htx => by cases htx⟩
  · dsimp only [Except.mapError]
    rw [on_bind, on_within, Disk.makeDirectory_on]
    cases hplace : d₁.place (Path.ofAddress (name :: transactionsAddress a)) with
    | error e => exact ⟨hmake, fun tx d' htx => by cases htx⟩
    | ok spot =>
      cases spot with
      | entry b node => exact ⟨hmake, fun tx d' htx => by cases htx⟩
      | vacant dir n =>
        have haddress : n :: dir = name :: transactionsAddress a :=
          Disk.address_of_place_plain (hway.cons (isStep_of_isName hname))
            (hmake.plain (suffix_transactionsAddress a)) hplace
        obtain ⟨rfl, rfl⟩ := List.cons.inj haddress
        obtain ⟨hdir, hnone⟩ := Disk.place_holds (Path.isAbsolute_ofAddress _) hplace
        have hget := Tree.get?_set_of_directory hdir hname (.inl rfl)
        refine ⟨hmake.set (suffix_transactionsAddress a) (.inr (.inr (List.suffix_cons _ _)))
          (by simp), fun tx d' htx => ?_⟩
        cases htx
        refine ⟨rfl, (hget _).trans (if_pos rfl), fun b hb => (hget _).trans ?_⟩
        rw [if_neg fun he => hb (List.append_left_eq_self.1 he)]
        exact Tree.get?_eq_none_of_append (by simp [hnone]) hb

end Parts

section Gathering

variable {rel : Text} {content : Bytes} (hway : Path.IsWay (n :: dir))
  (hnul : ∀ k ∈ n :: dir, '\x00' ∉ k) (hin : transactionsAddress a <:+ dir)
  (hrel : Path.join tx.stagingDir rel = Path.ofAddress (n :: dir))

include hway hnul hin hrel

theorem confined_stage : Keeps (t₀.Confined (Scratch a) a) (tx.stage rel content) := by
  have hinside : a <:+ dir := (suffix_transactionsAddress a).trans hin
  rw [Transaction.stage, hrel, Transaction.makeParent_ofAddress hway]
  refine ((Disk.confined_makeDirectories hway.tail (fun k hk => hnul k (List.mem_cons_of_mem n hk))
    hinside fun x hx hax hne => scratch_of_suffix hin hx hax hne).within _).bind fun _ => ?_
  exact (Disk.confined_put hway hnul hinside (.inr (.inr (hin.trans (List.suffix_cons n dir))))
    content none).within _

theorem confined_stageExecutable :
    Keeps (t₀.Confined (Scratch a) a) (tx.stageExecutable rel content) := by
  refine (confined_stage hway hnul hin hrel).bind fun _ => ?_
  rw [hrel]
  exact (Disk.confined_makeExecutable hway hnul ((suffix_transactionsAddress a).trans hin)
    (.inr (.inr (hin.trans (List.suffix_cons n dir))))).within _

end Gathering

theorem confined_close (hway : Path.IsWay (name :: transactionsAddress a))
    (htx : tx.dir = Path.ofAddress (name :: transactionsAddress a)) :
    Keeps (t₀.Confined (Scratch a) a) tx.close := by
  rw [Transaction.close, htx]
  exact (Disk.confined_removeAll hway (suffix_transactionsAddress a) fun b =>
    .inr (.inr ((List.suffix_cons _ _).trans (List.suffix_append b _)))).attempt.bind
      fun _ => keeps_pure _

/-! ### Storing the manifest -/

/-- What may come of storing a manifest in a project without links. -/
inductive SaveOutcome (a : Address) (m : Manifest) (d : Disk) : Except Failure Unit × Disk → Prop
  /-- A file stands in the place of the directory, and nothing happens. -/
  | blocked (e : Failure) (hbridge : d.tree.get? (bridgeAddress a) ≠ some .directory) :
      SaveOutcome a m d (.error e, d)
  /-- A directory stands in the place of the draft. -/
  | refused (e : Failure) (d' : Disk) (hdraft : d.tree.get? (draftAddress a) = some .directory)
      (hget : ∀ x, d'.tree.get? x =
        if x = bridgeAddress a then some .directory else d.tree.get? x) :
      SaveOutcome a m d (.error e, d')
  /-- The manifest is stored, and is executable only if a draft that was left there is. -/
  | done (d' : Disk) (mode : Bool) (hdraft : d.tree.get? (draftAddress a) ≠ some .directory)
      (hget : ∀ x, d'.tree.get? x =
        if x = manifestAddress a then some (.file m.render.utf8 mode)
        else if x = draftAddress a then none
        else if x = bridgeAddress a then some .directory else d.tree.get? x)
      (hmode : mode = true → ∃ content, d.tree.get? (draftAddress a) = some (.file content true)) :
      SaveOutcome a m d (.ok (), d')

/-- What stands at every address after the directory of the program was made. -/
theorem get?_withBridge (hroot : t.get? a = some .directory)
    (hnames : ∀ k ∈ bridgeAddress a, isName k = true) (x : Address) :
    (t.withDirectories (bridgeAddress a)).get? x =
      if x = bridgeAddress a then some .directory else t.get? x := by
  rw [Tree.get?_withDirectories hnames]
  by_cases hx : x = bridgeAddress a
  · rw [if_pos hx, if_pos (hx ▸ List.suffix_refl _)]
  · rw [if_neg hx]
    split
    · next hs =>
      rw [Tree.directory_of_suffix hroot ((List.suffix_cons_iff.1 hs).resolve_left hx)]
    · rfl

theorem save_eq [Medium] (ha : Path.IsWay a) (hl : l.root = Path.ofAddress a) (m : Manifest) :
    m.save l =
      (do (Disk.makeDirectories (Path.ofAddress (bridgeAddress a))).within
            (.create (Path.ofAddress (bridgeAddress a)))
          (Disk.write (Path.ofAddress (draftAddress a)) m.render.utf8).within
            (.write (Path.ofAddress (draftAddress a)))
          (Disk.move (Path.ofAddress (draftAddress a)) (Path.ofAddress (manifestAddress a))).within
            (.writeManifest (Path.ofAddress (manifestAddress a)))) := by
  rw [Manifest.save, bridgeDir_eq ha hl, manifestPath_eq ha hl,
    Path.join_ofAddress (isWay_bridgeAddress ha) (by decide)]
  rfl

/-- A draft of the manifest is written where no directory stands in its place. -/
theorem writeDraft_on (content : Bytes)
    (hbridge : d.tree.get? (bridgeAddress a) = some .directory)
    (hdraft : d.tree.get? (draftAddress a) ≠ some .directory)
    (hlink : ∀ target, d.tree.get? (draftAddress a) ≠ some (.link target)) :
    ∃ d' mode, (Disk.write (Path.ofAddress (draftAddress a)) content).on d = (.ok (), d') ∧
      (∀ x, d'.tree.get? x =
        if x = draftAddress a then some (.file content mode) else d.tree.get? x) ∧
      (mode = true → ∃ old, d.tree.get? (draftAddress a) = some (.file old true)) := by
  have hname : isName (".manifest.json.tmp" : Text) = true := by decide
  have hget : ∀ mode x, (d.tree.set _ _ (.file content mode)).get? x = _ := fun mode =>
    Tree.get?_set_of_directory hbridge hname (.inr hdraft)
  rcases Transaction.none_or_hasFile hdraft hlink with hnone | ⟨old, mode, hfile⟩
  · exact ⟨_, _, Disk.put_on_vacant hbridge hname hnone, hget false, by simp⟩
  · exact ⟨_, _, Disk.put_on_file hfile, hget mode, fun he => ⟨old, he ▸ hfile⟩⟩

/-- **Storing a manifest** where no directory stands in its place, and no link under the name of its
directory or its draft. -/
theorem save_on_unlinked {m : Manifest} (hl : l.root = Path.ofAddress a)
    (hroot : d.tree.get? a = some .directory)
    (hbridgeLink : ∀ target, d.tree.get? (bridgeAddress a) ≠ some (.link target))
    (hdraftLink : ∀ target, d.tree.get? (draftAddress a) ≠ some (.link target))
    (hmanifest : d.tree.get? (manifestAddress a) ≠ some .directory) :
    SaveOutcome a m d ((m.save l).on d) := by
  have ha := Tree.isWay_of_get? hroot
  have hnames : ∀ k ∈ bridgeAddress a, isName k = true :=
    List.forall_mem_cons.2 ⟨by decide, Tree.isName_of_mem hroot⟩
  have hplain : d.tree.Plain (bridgeAddress a) := fun x hx target ht => by
    rcases List.suffix_cons_iff.1 hx with rfl | hx
    · exact hbridgeLink target ht
    · cases (Tree.directory_of_suffix hroot hx).symm.trans ht
  rw [save_eq ha hl, on_bind, on_within]
  have hmade := Disk.made_makeDirectories (d := d) (isWay_bridgeAddress ha)
    (Transaction.nul_not_mem_of_names hnames) hplain
  generalize (Disk.makeDirectories (Path.ofAddress (bridgeAddress a))).on d = made at hmade
  cases hmade with
  | blocked e hblocked =>
    exact .blocked _ fun hdir => Tree.not_blocked_of_directory hdir hblocked
  | stopped e hn hlen => exact absurd hlen (Nat.not_lt.2 (isName_iff.1 (hnames _ hn)).2.2)
  | done _ _ =>
    have hget := get?_withBridge hroot hnames
    generalize hd₁ : ({ d with tree := d.tree.withDirectories (bridgeAddress a) } : Disk) = d₁
    have hget : ∀ x, d₁.tree.get? x =
        if x = bridgeAddress a then some .directory else d.tree.get? x := hd₁ ▸ hget
    have hother : ∀ n, d₁.tree.get? (n :: bridgeAddress a) = d.tree.get? (n :: bridgeAddress a) :=
      fun n => (hget _).trans (if_neg (List.cons_ne_self n _))
    have hdraft₁ : d₁.tree.get? (draftAddress a) = d.tree.get? (draftAddress a) := hother _
    have hbridge : d₁.tree.get? (bridgeAddress a) = some .directory := (hget _).trans (if_pos rfl)
    dsimp only [Except.mapError]
    rw [on_bind, on_within]
    by_cases hdraft : d.tree.get? (draftAddress a) = some .directory
    · rw [Disk.write, Disk.put_on_directory (hdraft₁.trans hdraft)]
      exact .refused _ d₁ hdraft hget
    obtain ⟨d₂, mode, hwrite, hwritten, hmode⟩ := writeDraft_on m.render.utf8 hbridge
      (fun he => hdraft (hdraft₁.symm.trans he)) fun target he =>
        hdraftLink target (hdraft₁.symm.trans he)
    have hne : manifestAddress a ≠ draftAddress a := fun he =>
      absurd (List.cons.inj he).1 (by decide)
    have hbridge₂ : d₂.tree.get? (bridgeAddress a) = some .directory :=
      (hwritten _).trans ((if_neg fun he => List.cons_ne_self _ _ he.symm).trans hbridge)
    have hplace : d₂.tree.get? (manifestAddress a) ≠ some .directory := by
      rw [hwritten, if_neg hne]
      exact fun he => hmanifest ((hother _).symm.trans he)
    have hdraft₂ : d₂.tree.get? (draftAddress a) = some (.file m.render.utf8 mode) :=
      (hwritten _).trans (if_pos rfl)
    have hname : isName ("manifest.json" : Text) = true := by decide
    have hmove := Disk.move_on_place hdraft₂ (by simp) hbridge₂ hname hplace hne.symm
    rw [hwrite]
    dsimp only [Except.mapError]
    rw [on_within]
    show SaveOutcome a m d (((Disk.move (Path.ofAddress (draftAddress a))
      (Path.ofAddress (manifestAddress a))).on d₂).1.mapError _, _)
    rw [show (Disk.move (Path.ofAddress (draftAddress a)) (Path.ofAddress (manifestAddress a))).on
      d₂ = _ from hmove]
    refine .done _ mode hdraft (fun x => ?_) fun he => ?_
    · refine (Tree.get?_moved (by simp [hdraft₂]) hbridge₂ hname hplace x).trans ?_
      show (if x = manifestAddress a then _ else if x = draftAddress a then none else _) = _
      rw [hwritten, hget]
      by_cases hx : x = draftAddress a
      · simp [hx]
      · simp [hx]
    · rw [← hdraft₁]
      exact hmode he

/-- Storing a manifest in a project without links, where no directory stands in its place. -/
theorem save_on {m : Manifest} (hl : l.root = Path.ofAddress a)
    (hroot : d.tree.get? a = some .directory) (hno : d.tree.NoLinksIn a)
    (hmanifest : d.tree.get? (manifestAddress a) ≠ some .directory) :
    SaveOutcome a m d ((m.save l).on d) :=
  save_on_unlinked hl hroot (hno [".bridge".toList])
    (hno [".manifest.json.tmp".toList, ".bridge".toList]) hmanifest

end Project

end ActionBundles
