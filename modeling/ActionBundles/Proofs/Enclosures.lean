import ActionBundles.Proofs.GenerationAlike

/-!
# What happens in a directory

What an action does at paths that lead into a directory without links, and never out of it, depends
on nothing but what is in that directory. So on two disks that agree in it (`Disk.AgreeIn`) the
action ends alike, and they agree in it afterwards. In particular a bundle that can be gathered in
the new directory of a transaction can be gathered there whatever is elsewhere on the disk
(`Project.Plan.CanGather.gather`).
-/

namespace ActionBundles

open ActionBundles.Action

/-- Two disks that hold the same in the directory `r`, where no link is. -/
structure Disk.AgreeIn (r : Address) (d d' : Disk) : Prop where
  directory : d.tree.get? r = some .directory
  noLinks : d.tree.NoLinksIn r
  same : ∀ b, d'.tree.get? (b ++ r) = d.tree.get? (b ++ r)

/-- Steps that stay in a directory lead to the same in trees that hold the same there. -/
theorem Tree.leg_congr {t t' : Tree} {r c : Address} {steps : List Text} {follow : Bool}
    (h : ∀ b, t'.get? (b ++ r) = t.get? (b ++ r)) (hs : Path.staysBelow c.length steps = true) :
    t'.leg follow (c ++ r) steps = t.leg follow (c ++ r) steps := by
  have hstays := Path.staysIn_of_staysBelow hs
  clear hs
  induction hstays with
  | nil c => rfl
  | dot _ ih =>
    rw [leg, leg, if_pos rfl, if_pos rfl]
    exact ih
  | up _ ih =>
    rw [leg, leg, if_neg (by decide), if_pos rfl, if_neg (by decide), if_pos rfl]
    exact ih
  | @down n c rest hdot hdots _ ih =>
    have hhere : t'.get? (n :: (c ++ r)) = t.get? (n :: (c ++ r)) := h (n :: c)
    have hbelow : t'.leg follow (n :: (c ++ r)) rest = t.leg follow (n :: (c ++ r)) rest := ih
    rw [leg, leg, if_neg hdot, if_neg hdots, if_neg hdot, if_neg hdots, hhere, hbelow]

namespace Disk

variable {r : Address} {d d' : Disk} {p : Text}

section Inside

variable (hp : Path.Twin id r r p p)

/-- A disk is side by side with itself. -/
theorem AgreeIn.alongside (h : d.AgreeIn r d') : d.Alongside id r r d :=
  ⟨Tree.alike_refl d.tree, h.directory, h.directory, h.noLinks⟩

include hp

/-- Whether or not a path asks for a directory, its steps lead down to a directory in `r` and stay
there. -/
theorem AgreeIn.leads (h : d.AgreeIn r d') : p ≠ [] ∧ Path.isAbsolute p = true ∧
    ∃ c, d.tree.get? (c ++ r) = some .directory ∧ ∀ steps, steps = Path.steps p ∨
      steps = Tree.stepsOf p → ∃ ms, steps = (c ++ r).reverse ++ ms ∧
        Path.staysBelow 0 ms = true := by
  obtain ⟨hne, -, -, habs, -, -, z, ms, hz, ⟨c, rfl⟩, hsteps, -, hs, -⟩ :=
    h.alongside.leads renaming_id rfl (List.suffix_refl r) hp
  refine ⟨hne, habs, c, hz, ?_⟩
  rintro steps (rfl | rfl)
  · exact ⟨ms, hsteps, hs⟩
  · rw [Tree.stepsOf, hsteps]
    split
    · exact ⟨ms ++ [['.']], List.append_assoc _ _ _, (Path.staysBelow_dot 0 ms).trans hs⟩
    · exact ⟨ms, rfl, hs⟩

theorem AgreeIn.follow (h : d.AgreeIn r d') (links : Bool) {steps : List Text}
    (hsteps : steps = Path.steps p ∨ steps = Tree.stepsOf p) :
    d'.follow links p steps = d.follow links p steps := by
  obtain ⟨-, habs, c, hdir, hleads⟩ := h.leads hp
  obtain ⟨ms, rfl, hs⟩ := hleads steps hsteps
  have hdir' : d'.tree.get? (c ++ r) = some .directory := (h.same c).trans hdir
  have hsame : ∀ b, d'.tree.get? (b ++ (c ++ r)) = d.tree.get? (b ++ (c ++ r)) := fun b => by
    rw [← List.append_assoc]
    exact h.same (b ++ c)
  have hleg : d'.tree.leg links [] ((c ++ r).reverse ++ ms) =
      d.tree.leg links [] ((c ++ r).reverse ++ ms) := by
    rw [Tree.leg_down hdir, Tree.leg_down hdir']
    exact Tree.leg_congr (c := []) hsame hs
  -- the leg ends, so no link leads elsewhere
  have hwalk : d'.tree.walk links maxLinks [] ((c ++ r).reverse ++ ms) =
      d.tree.walk links maxLinks [] ((c ++ r).reverse ++ ms) := by
    cases hfirst : d.tree.leg links [] ((c ++ r).reverse ++ ms) with
    | error e => rw [Tree.walk_of_error hfirst, Tree.walk_of_error (hleg.trans hfirst)]
    | ok first =>
      obtain ⟨spot, -, rfl, -⟩ := Tree.leg_stays (c := [])
        (h.noLinks.below (List.suffix_append c r)) hs ((Tree.leg_down hdir ms).symm.trans hfirst)
      rw [Tree.walk_of_end hfirst, Tree.walk_of_end (hleg.trans hfirst)]
  rw [Disk.follow, Disk.follow, Tree.startOf, Tree.startOf, if_pos habs, if_pos habs, hwalk]

theorem AgreeIn.place (h : d.AgreeIn r d') : d'.place p = d.place p := h.follow hp false (.inl rfl)

theorem AgreeIn.find (h : d.AgreeIn r d') : d'.find p = d.find p := by
  rw [Disk.find, Disk.find, h.follow hp true (.inr rfl)]

theorem AgreeIn.openForWriting (h : d.AgreeIn r d') : d'.openForWriting p = d.openForWriting p := by
  rw [Disk.openForWriting, Disk.openForWriting, h.place hp, h.follow hp true (.inl rfl)]

theorem AgreeIn.isDirectory (h : d.AgreeIn r d') : d'.isDirectory p = d.isDirectory p := by
  rw [Disk.isDirectory, Disk.isDirectory, h.find hp]

/-- A path that stays in the directory leads into it. -/
theorem AgreeIn.address (h : d.AgreeIn r d') {links : Bool} {steps : List Text} {spot : Spot}
    (hsteps : steps = Path.steps p ∨ steps = Tree.stepsOf p)
    (hfollow : d.follow links p steps = .ok spot) : r <:+ spot.address := by
  obtain ⟨-, habs, c, hdir, hleads⟩ := h.leads hp
  obtain ⟨ms, rfl, hs⟩ := hleads steps hsteps
  rw [address_of_follow habs hdir (h.noLinks.below (List.suffix_append c r)) hs hfollow]
  exact (List.suffix_append c r).trans (List.suffix_append _ _)

end Inside

/-! ### The actions of the disk -/

variable {n : Text} {dir : Address} {node : Node}

/-- An entry that is written in the directory is written there on both disks. -/
theorem AgreeIn.set (h : d.AgreeIn r d') (hin : r <:+ n :: dir)
    (hplace : d.tree.get? (n :: dir) ≠ some .directory) (hplain : ∀ target, node ≠ .link target) :
    Disk.AgreeIn r { d with tree := d.tree.set n dir node }
      { d' with tree := d'.tree.set n dir node } where
  directory := Tree.gains_set.directory r h.directory
  noLinks := h.noLinks.set hplain
  same b := by
    have hsame : ∀ x, r <:+ x → d'.tree.get? x = d.tree.get? x := by
      rintro _ ⟨b, rfl⟩
      exact h.same b
    have hdir : r <:+ dir := (List.suffix_cons_iff.1 hin).resolve_left fun he =>
      hplace (he ▸ h.directory)
    have hallows : d'.tree.allows n dir node = d.tree.allows n dir node := by
      rw [Tree.allows, Tree.allows, Tree.isDirectory, Tree.isDirectory, hsame dir hdir,
        hsame (n :: dir) hin]
    rw [Tree.get?_set, Tree.get?_set, hallows, h.same]

section Actions

variable (hp : Path.Twin id r r p p)

include hp

theorem agree_makeDirectory : Abreast (AgreeIn r) Eq Eq (makeDirectory p) (makeDirectory p) :=
  fun d d' h => by
    rw [makeDirectory_on, makeDirectory_on, h.place hp]
    cases hplace : d.place p with
    | error e => exact ⟨.error rfl, h⟩
    | ok spot =>
      cases spot with
      | entry x node => exact ⟨.error rfl, h⟩
      | vacant dir n =>
        have hnone := (place_holds (h.leads hp).2.1 hplace).2
        exact ⟨.ok rfl, h.set (h.address hp (.inl rfl) hplace) (by simp [hnone]) (by simp)⟩

omit hp in
theorem agree_makeDirectoriesWithin (bound : Nat) {p : Text} (hp : Path.Twin id r r p p) :
    Abreast (AgreeIn r) Eq Eq (makeDirectoriesWithin bound p) (makeDirectoriesWithin bound p) := by
  induction bound generalizing p with
  | zero => exact abreast_throw rfl
  | succ bound ih =>
    refine abreast_makeDirectoriesWithin_succ (fun d d' h => ⟨(h.leads hp).1, (h.leads hp).1⟩)
      (agree_makeDirectory hp) (fun d d' h => h.isDirectory hp) fun d d' h hmissing => ?_
    obtain ⟨above, above', hparent, hparent', htwin, -⟩ :=
      h.alongside.parent renaming_id hp hmissing
    obtain rfl : above = above' := Option.some.inj (hparent.symm.trans hparent')
    exact ⟨above, above, hparent, hparent, ih htwin⟩

theorem agree_makeDirectories :
    Abreast (AgreeIn r) Eq Eq (makeDirectories p) (makeDirectories p) :=
  agree_makeDirectoriesWithin _ hp

theorem agree_put (content : Bytes) (executable : Option Bool) :
    Abreast (AgreeIn r) Eq Eq (put p content executable) (put p content executable) :=
  fun d d' h => by
    rw [put_on, put_on, h.openForWriting hp]
    cases hopen : d.openForWriting p with
    | error e => exact ⟨.error rfl, h⟩
    | ok spot =>
      have hholds := openForWriting_holds (h.leads hp).2.1 hopen
      have hin := h.address hp (.inl rfl) (openForWriting_eq_ok hopen).1
      cases spot with
      | vacant dir n => exact ⟨.ok rfl, h.set hin (by simp [hholds.2]) (by simp)⟩
      | entry x node =>
        have hget : d.tree.get? x = some node := hholds
        cases x with
        | nil => cases node <;> exact ⟨.error rfl, h⟩
        | cons n dir =>
          cases node with
          | directory => exact ⟨.error rfl, h⟩
          | link target => exact ⟨.error rfl, h⟩
          | file old mode => exact ⟨.ok rfl, h.set hin (by simp [hget]) (by simp)⟩

theorem agree_makeExecutable :
    Abreast (AgreeIn r) Eq Eq (makeExecutable p) (makeExecutable p) := fun d d' h => by
  rw [makeExecutable_on, makeExecutable_on, h.find hp]
  cases hfind : d.find p with
  | error e => exact ⟨.error rfl, h⟩
  | ok found =>
    obtain ⟨x, node⟩ := found
    have hget : d.tree.get? x = some node := find_holds (h.leads hp).2.1 hfind
    cases x with
    | nil => exact ⟨.ok rfl, h⟩
    | cons n dir =>
      cases node with
      | directory => exact ⟨.ok rfl, h⟩
      | link target => exact ⟨.ok rfl, h⟩
      | file old mode =>
        have hin : r <:+ n :: dir := by
          rw [Disk.find] at hfind
          split at hfind
          · cases hfind
          · cases hfind
          · next hfollow =>
            cases hfind
            exact h.address hp (.inr rfl) hfollow
        exact ⟨.ok rfl, h.set hin (by simp [hget]) (by simp)⟩

end Actions

/-- Two disks agree in a directory that is empty on both. -/
theorem agreeIn_of_empty (hdir : d.tree.get? r = some .directory)
    (hempty : ∀ b, b ≠ [] → d.tree.get? (b ++ r) = none)
    (hdir' : d'.tree.get? r = some .directory)
    (hempty' : ∀ b, b ≠ [] → d'.tree.get? (b ++ r) = none) : d.AgreeIn r d' where
  directory := hdir
  noLinks b target hlink := by
    by_cases hb : b = []
    · subst hb
      cases hdir.symm.trans hlink
    · cases (hempty b hb).symm.trans hlink
  same b := by
    by_cases hb : b = []
    · subst hb
      exact hdir'.trans hdir.symm
    · rw [hempty b hb, hempty' b hb]

end Disk

/-! ### Gathering -/

namespace Transaction

variable {r : Address} {p rel : Text} {tx : Transaction}

theorem agree_makeParent (hp : Path.Nested id r r p p) :
    Abreast (Disk.AgreeIn r) AnyTwo Eq (makeParent p) (makeParent p) := by
  obtain ⟨-, above, above', hparent, hparent', htwin⟩ := hp
  obtain rfl : above = above' := Option.some.inj (hparent.symm.trans hparent')
  rw [makeParent, hparent]
  exact (Disk.agree_makeDirectories htwin).within _ _

section Stage

variable (hp : Path.Nested id r r (Path.join tx.stagingDir rel) (Path.join tx.stagingDir rel))
  (content : Bytes)

include hp

theorem agree_stage :
    Abreast (Disk.AgreeIn r) AnyTwo Eq (tx.stage rel content) (tx.stage rel content) :=
  (agree_makeParent hp).bind fun _ _ _ => (Disk.agree_put hp.1 content none).within _ _

theorem agree_stageExecutable :
    Abreast (Disk.AgreeIn r) AnyTwo Eq (tx.stageExecutable rel content)
      (tx.stageExecutable rel content) :=
  (agree_stage hp content).bind fun _ _ _ => (Disk.agree_makeExecutable hp.1).within _ _

end Stage

end Transaction

namespace Project

variable {p : Project} {plan : Plan} {r : Address} {tx : Transaction} {d : Disk}

theorem agree_gather (hp : p.Usable) (hplan : plan.Sound p) (hne : r ≠ []) (hr : Path.IsWay r)
    (htx : tx.dir = Path.ofAddress r) :
    Abreast (Disk.AgreeIn r) AnyTwo Eq (plan.gather tx) (plan.gather tx) := by
  have hpaired : Transaction.Paired id r r tx tx :=
    ⟨renaming_id, rfl, List.suffix_refl r, hne, fun ms _ => Path.passes_id r ms, htx, htx⟩
  have hnested : ∀ n ∈ Transaction.bundleNames, Path.Nested id r r
      (Path.join tx.stagingDir (plan.artifact ++ '/' :: n))
      (Path.join tx.stagingDir (plan.artifact ++ '/' :: n)) := fun n =>
    nested_gathering hp hplan hpaired hr hr
  exact (Transaction.agree_stage (hnested _ (by decide)) _).bind fun _ _ _ =>
    (Transaction.agree_stage (hnested _ (by decide)) _).bind fun _ _ _ =>
      (Transaction.agree_stageExecutable (hnested _ (by decide)) _).bind fun _ _ _ =>
        Transaction.agree_stage (hnested _ (by decide)) _

/-- Whether the bundle of a plan can be gathered in the transaction at `r` as long as nothing is
there. -/
def Plan.CanGather (plan : Plan) (r : Address) : Prop :=
  ∃ d d' : Disk, d.tree.get? r = some .directory ∧ (∀ b, b ≠ [] → d.tree.get? (b ++ r) = none) ∧
    (plan.gather ⟨Path.ofAddress r⟩).on d = (.ok (), d')

/-- A bundle that can be gathered in an empty directory is gathered there, whatever else is on the
disk. -/
theorem Plan.CanGather.gather (h : plan.CanGather r) (hp : p.Usable) (hplan : plan.Sound p)
    (hne : r ≠ []) (htx : tx.dir = Path.ofAddress r) (hdir : d.tree.get? r = some .directory)
    (hempty : ∀ b, b ≠ [] → d.tree.get? (b ++ r) = none) :
    ∃ d', (plan.gather tx).on d = (.ok (), d') := by
  obtain ⟨e, e', hdir', hempty', hgather⟩ := h
  have hagree := agree_gather hp hplan hne (Tree.isWay_of_get? hdir) htx e d
    (Disk.agreeIn_of_empty hdir' hempty' hdir hempty)
  obtain rfl : tx = ⟨Path.ofAddress r⟩ := by
    cases tx
    exact congrArg Transaction.mk htx
  rw [hgather] at hagree
  generalize (plan.gather ⟨Path.ofAddress r⟩).on d = gathered at hagree ⊢
  obtain ⟨outcome, d'⟩ := gathered
  cases hagree.1
  exact ⟨d', rfl⟩

end Project

end ActionBundles
