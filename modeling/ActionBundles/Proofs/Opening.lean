import ActionBundles.Proofs.Recording

/-!
# Opening a project again

A project is opened by taking the lock on its manifest and reading it. The lock is a file that is
left behind, so a project without links that has been opened, or could not be, is found the same
when it is opened again (`Command.openProject_again`), and as long as the lock is there nothing but
the manifest decides what comes of it (`Project.Located.openProject_on`).
-/

namespace ActionBundles

open ActionBundles.Action

variable {a x dir : Address} {d d' : Disk} {l : Layout} {n : Text} {content : Bytes} {mode : Bool}

/-! ### Files that are touched -/

namespace Disk

theorem touch_on_vacant (hdir : d.tree.get? dir = some .directory) (hn : isName n = true)
    (h : d.tree.get? (n :: dir) = none) :
    (touch (Path.ofAddress (n :: dir))).on d =
      (.ok (), { d with tree := d.tree.set n dir (.file [] false) }) := by
  rw [touch_on, openForWriting_ofAddress (.cons (isStep_of_isName hn) (Tree.isWay_of_get? hdir)),
    follow_of_vacant hdir hn h]

theorem touch_on_file (h : d.tree.get? x = some (.file content mode)) :
    (touch (Path.ofAddress x)).on d = (.ok (), d) := by
  rw [touch_on, openForWriting_ofAddress (Tree.isWay_of_get? h), follow_of_get? h (by simp)]

theorem touch_on_directory (h : d.tree.get? x = some .directory) :
    (touch (Path.ofAddress x)).on d = (.error .isDirectory, d) := by
  rw [touch_on, openForWriting_ofAddress (Tree.isWay_of_get? h), follow_of_get? h (by simp)]

end Disk

namespace Project

/-! ### The lock -/

/-- Whether the file of the lock is there. -/
def Locked (a : Address) (t : Tree) : Prop :=
  ∃ content mode, t.get? (lockAddress a) = some (.file content mode)

/-- When the directory of the program has been made, the file of the lock is touched. -/
theorem lock_on_made (hl : l.root = Path.ofAddress a) (ha : Path.IsWay a)
    (h : (Disk.makeDirectories (Path.ofAddress (bridgeAddress a))).on d = (.ok (), d')) :
    (Manifest.lock l).on d =
      ((Disk.touch (Path.ofAddress (lockAddress a))).within (.openLock l.lockPath)).on d' := by
  have hlock : l.lockPath = Path.ofAddress (lockAddress a) := join_bridgeDir ha hl (by decide)
  rw [Manifest.lock, on_bind, on_within, bridgeDir_eq ha hl, h]
  simp only [Except.mapError, hlock]

theorem lock_on_bridge (hl : l.root = Path.ofAddress a)
    (hbridge : d.tree.get? (bridgeAddress a) = some .directory) :
    (Manifest.lock l).on d =
      ((Disk.touch (Path.ofAddress (lockAddress a))).within (.openLock l.lockPath)).on d := by
  have hmake := Disk.makeDirectories_on_clear (Tree.clear_of_directory hbridge)
    (Tree.isName_of_mem hbridge)
  rw [Tree.withDirectories_of_directory hbridge] at hmake
  exact lock_on_made hl (Tree.isWay_of_get? hbridge).tail hmake

/-- A lock that is there is taken without a change. -/
theorem lock_on_locked (hl : l.root = Path.ofAddress a) (h : Locked a d.tree) :
    (Manifest.lock l).on d = (.ok (), d) := by
  obtain ⟨content, mode, hfile⟩ := h
  rw [lock_on_bridge hl (Tree.get?_dir hfile), on_within, Disk.touch_on_file hfile]
  rfl

/-- What may come of taking the lock: it is refused, and is refused again, or it is there. -/
inductive LockOutcome (a : Address) (l : Layout) : Except Failure Unit × Disk → Prop
  | refused (e : Failure) (d' : Disk) (hagain : (Manifest.lock l).on d' = (.error e, d')) :
      LockOutcome a l (.error e, d')
  | done (d' : Disk) (hlocked : Locked a d'.tree) : LockOutcome a l (.ok (), d')

theorem lock_outcome (hl : l.root = Path.ofAddress a) (hroot : d.tree.get? a = some .directory)
    (hno : d.tree.NoLinksIn a) : LockOutcome a l ((Manifest.lock l).on d) := by
  have ha := Tree.isWay_of_get? hroot
  have hnames : ∀ k ∈ bridgeAddress a, isName k = true :=
    List.forall_mem_cons.2 ⟨by decide, Tree.isName_of_mem hroot⟩
  have hmade := Disk.made_makeDirectories (d := d) (isWay_bridgeAddress ha)
    (Transaction.nul_not_mem_of_names hnames)
    (Disk.plain_of_noLinksIn (c := [".bridge".toList]) hno hroot)
  generalize hmake : (Disk.makeDirectories (Path.ofAddress (bridgeAddress a))).on d = made at hmade
  cases hmade with
  | blocked e _ =>
    have hlock : (Manifest.lock l).on d =
        (.error (.refused (.create (Path.ofAddress (bridgeAddress a))) e), d) := by
      rw [Manifest.lock, on_bind, on_within, bridgeDir_eq ha hl, hmake]
      rfl
    rw [hlock]
    exact .refused _ d hlock
  | stopped e hn hlen => exact absurd hlen (Nat.not_lt.2 (isName_iff.1 (hnames _ hn)).2.2)
  | done _ _ =>
    rw [lock_on_made hl ha hmake]
    have hbridge : (d.tree.withDirectories (bridgeAddress a)).get? (bridgeAddress a) =
        some .directory := (get?_withBridge hroot hnames _).trans (if_pos rfl)
    have hsame : (d.tree.withDirectories (bridgeAddress a)).get? (lockAddress a) =
        d.tree.get? (lockAddress a) :=
      (get?_withBridge hroot hnames _).trans (if_neg (List.cons_ne_self _ _))
    cases hget : d.tree.get? (lockAddress a) with
    | none =>
      rw [on_within, lockAddress,
        Disk.touch_on_vacant hbridge (by decide) (hsame.trans hget)]
      exact .done _ ⟨[], false, (Tree.get?_set_of_directory hbridge (by decide)
        (.inr (by rw [← lockAddress, hsame, hget]; simp)) _).trans (if_pos rfl)⟩
    | some node =>
      cases node with
      | file content mode =>
        rw [on_within, Disk.touch_on_file (hsame.trans hget)]
        exact .done _ ⟨content, mode, hsame.trans hget⟩
      | directory =>
        rw [on_within, Disk.touch_on_directory (hsame.trans hget)]
        refine .refused _ _ ?_
        rw [lock_on_bridge hl hbridge, on_within, Disk.touch_on_directory (hsame.trans hget)]
        rfl
      | link target => exact absurd hget (hno ["manifest.lock".toList, ".bridge".toList] target)

/-! ### Projects that are found -/

/-- Where the project at `a` is found that has been loaded as `p`. -/
structure Located (root : Text) (a : Address) (p : Project) (d : Disk) : Prop where
  loaded : load root d = .ok p
  root : p.layout.root = Path.ofAddress a
  directory : d.tree.get? a = some .directory
  noLinks : d.tree.NoLinksIn a

variable {root : Text} {strict : Bool} {p : Project}

/-- As long as the lock is there, nothing but the manifest decides what comes of opening. -/
theorem Located.openProject_on (h : Located root a p d) (hlocked : Locked a d.tree) :
    (Command.openProject root strict).on d =
      ((Manifest.load p.layout d).map fun m => (Command.withMode p strict, m), d) := by
  rw [Command.openProject_on, h.loaded]
  dsimp only
  rw [layout_withMode, lock_on_locked h.root hlocked]
  dsimp only
  cases Manifest.load p.layout d <;> rfl

/-- When a project has been opened, the lock is there. -/
theorem Opened.isLocked {m : Manifest} (h : Opened a root d p m d')
    (hroot : d.tree.get? a = some .directory) (hno : d.tree.NoLinksIn a) : Locked a d'.tree := by
  have houtcome := lock_outcome h.root hroot hno
  rw [h.locked] at houtcome
  cases houtcome with
  | done _ hlocked => exact hlocked

end Project

namespace Command

variable {root : Text} {strict : Bool}

/-- Opening a project changes nothing but the file of the lock, and makes its directory. -/
theorem changed_openProject [Medium] (hfind : d.find root = .ok (a, .directory))
    (hroot : d.tree.get? a = some .directory) (hno : d.tree.NoLinksIn a) :
    d.tree.Changed (· = Project.lockAddress a) (· <:+ Project.bridgeAddress a) a
      ((openProject root strict).on d).2.tree := by
  rcases disk_openProject root strict d with hsame | ⟨p, hload, hlocked⟩
  · rw [hsame]
    exact .refl hroot hno
  · rw [hlocked]
    exact Project.changed_lock (Project.root_of_load hfind hload) (Tree.isWay_of_get? hroot) (by rfl)
      (fun _ hy => hy) d (.refl hroot hno)

/-- **A project that is opened again** is found as it was left, and so is one that cannot be
opened. -/
theorem openProject_again (hfind : d.find root = .ok (a, .directory))
    (hroot : d.tree.get? a = some .directory) (hno : d.tree.NoLinksIn a) :
    (openProject root strict).on ((openProject root strict).on d).2 =
      (openProject root strict).on d := by
  have hlocated : ∀ p, Project.load root d = .ok p →
      Project.Located root a p ((Manifest.lock p.layout).on d).2 := fun p hload => by
    have hl := Project.root_of_load hfind hload
    have hsteady := Project.steady_lock hl hroot hno
    have hagain := Project.load_steady hfind hroot hno (Manifest.stays_lock p.layout d) hsteady
    exact ⟨hagain.trans hload, hl, hsteady.root, hsteady.noLinks⟩
  have houtcome : ∀ p, Project.load root d = .ok p →
      Project.LockOutcome a p.layout ((Manifest.lock p.layout).on d) := fun p hload =>
    Project.lock_outcome (Project.root_of_load hfind hload) hroot hno
  have hopening := opening root strict d
  generalize hopen : (openProject root strict).on d = opened at hopening ⊢
  cases hopening with
  | notLoaded e hload => exact hopen
  | notLocked p e d₁ hload hlock =>
    have hlocated := hlocated p hload
    have houtcome := houtcome p hload
    rw [hlock] at hlocated houtcome
    cases houtcome with
    | refused _ _ hrefused =>
      rw [openProject_on, hlocated.loaded]
      dsimp only
      rw [Project.layout_withMode, hrefused]
  | notRead p e d₁ hload hlock hm | opened p m d₁ hload hlock hm =>
    have hlocated := hlocated p hload
    have houtcome := houtcome p hload
    rw [hlock] at hlocated houtcome
    cases houtcome with
    | done _ hlocked =>
      rw [hlocated.openProject_on hlocked, hm]
      rfl

end Command

end ActionBundles
