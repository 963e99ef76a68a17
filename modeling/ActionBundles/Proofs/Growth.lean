import ActionBundles.Proofs.Keeping
import ActionBundles.Proofs.Texts

/-!
# Trees that grow

A tree grows when entries are added to it and files are written again: its directories and links
stay as they are, its files stay files, and no link is new. Where a path led somewhere before, it
leads to the same place afterwards (`Disk.follow_of_grows`). So whoever has written a file through a
path, whatever links stand on the way, finds the file by this path (`Disk.find_of_put`).
-/

namespace ActionBundles

namespace Tree

/-- `t'` has the entries of `t`, the files perhaps with other contents, and no link besides. -/
structure Grows (t t' : Tree) : Prop where
  directory : ∀ a, t.get? a = some .directory → t'.get? a = some .directory
  file : ∀ a content mode, t.get? a = some (.file content mode) →
    ∃ content' mode', t'.get? a = some (.file content' mode')
  link : ∀ a target, t'.get? a = some (.link target) ↔ t.get? a = some (.link target)

/-- The spot at an address, as the tree has it. -/
def spotAt (t : Tree) : Address → Spot
  | [] => .entry [] .directory
  | n :: dir =>
    match t.get? (n :: dir) with
    | some node => .entry (n :: dir) node
    | none => .vacant dir n

variable {t t' : Tree} {follow : Bool} {dir a : Address} {steps : List Text}

theorem spotAt_of_get? {node : Node} (h : t.get? a = some node) : t.spotAt a = .entry a node := by
  cases a with
  | nil =>
    cases h
    rfl
  | cons n dir => rw [spotAt, h]

theorem spotAt_of_none {n : Text} (h : t.get? (n :: dir) = none) :
    t.spotAt (n :: dir) = .vacant dir n := by rw [spotAt, h]

/-- A leg that ends, ends at what is now in its place. -/
def settled (t : Tree) : Leg → Leg
  | .end_ spot => .end_ (t.spotAt spot.address)
  | leg => leg

theorem leg_of_grows {first : Leg} (h : t.Grows t') (hdir : t.get? dir = some .directory)
    (hleg : t.leg follow dir steps = .ok first) :
    t'.leg follow dir steps = .ok (t'.settled first) := by
  rw [leg_eq_ok_iff] at hleg ⊢
  induction hleg with
  | nil dir =>
    rw [settled, Spot.address, spotAt_of_get? (h.directory dir hdir)]
    exact .nil dir
  | dot _ ih => exact .dot (ih hdir)
  | up _ ih => exact .up (ih (get?_tail hdir))
  | down hn hnode _ ih => exact .down hn (h.directory _ hnode) (ih hnode)
  | @vacant dir n hn hnode =>
    rw [settled, Spot.address]
    -- a vacant place may be taken now, but not by a link
    cases hnode' : t'.get? (n :: dir) with
    | none =>
      rw [spotAt_of_none hnode']
      exact .vacant hn hnode'
    | some node =>
      rw [spotAt_of_get? hnode']
      cases node with
      | directory => exact .down hn hnode' (.nil _)
      | file content mode => exact .file hn hnode'
      | link target => cases hnode.symm.trans ((h.link _ target).1 hnode')
  | file hn hnode =>
    obtain ⟨content', mode', hnode'⟩ := h.file _ _ _ hnode
    rw [settled, Spot.address, spotAt_of_get? hnode']
    exact .file hn hnode'
  | unfollowed hn hfollow hnode =>
    have hnode' := (h.link _ _).2 hnode
    rw [settled, Spot.address, spotAt_of_get? hnode']
    exact .unfollowed hn hfollow hnode'
  | link hn hmore hnode => exact .link hn hmore ((h.link _ _).2 hnode)

/-- A way that led somewhere leads to the same place in a tree that has grown. -/
theorem walk_of_grows {budget : Nat} {spot : Spot} (h : t.Grows t')
    (hdir : t.get? dir = some .directory) (hwalk : t.walk follow budget dir steps = .ok spot) :
    t'.walk follow budget dir steps = .ok (t'.spotAt spot.address) := by
  rw [walk_eq_ok_iff] at hwalk ⊢
  induction hwalk with
  | end_ hleg => exact .end_ (leg_of_grows h hdir hleg)
  | link hleg htarget _ ih =>
    exact .link (leg_of_grows h hdir hleg) htarget (ih (startOf_directory (leg_holds hdir hleg)))

/-! ### What makes a tree grow -/

/-- Writing a file in a vacant place or in the place of a file makes a tree grow. -/
theorem grows_set {n : Text} {content : Bytes} {mode : Bool}
    (h : ∀ target, t.get? (n :: dir) ≠ some (.link target)) :
    t.Grows (t.set n dir (.file content mode)) where
  directory := gains_set.directory
  file a content' mode' ha := by
    rw [get?_set]
    split
    · exact ⟨content, mode, rfl⟩
    · exact ⟨content', mode', ha⟩
  link a target := by
    rw [get?_set]
    split
    · next hset =>
      exact ⟨nofun, fun ha => absurd (hset.2 ▸ ha) (h target)⟩
    · exact Iff.rfl

/-! ### Names that can be given -/

/-- Every link holds a path that can be followed: no character of code zero is in it. -/
def LinksArePaths (t : Tree) : Prop := ∀ a target, t.get? a = some (.link target) → '\x00' ∉ target

theorem linksArePaths_iff : t.LinksArePaths ↔ ∀ e ∈ t.entries.toList,
    (match e.2 with | .link target => decide ('\x00' ∉ target) | _ => true) = true := by
  constructor
  · rintro h ⟨a, node⟩ he
    have hget : t.entries.get? a = some node := Dict.mem_toList_iff.1 he
    cases node with
    | directory => rfl
    | file content mode => rfl
    | link target =>
      cases a with
      | nil => cases t.rootless.symm.trans hget
      | cons n dir => exact decide_eq_true (h (n :: dir) target hget)
  · intro h a target ha
    cases a with
    | nil => cases ha
    | cons n dir => exact of_decide_eq_true (h (n :: dir, .link target) (Dict.mem_toList_iff.2 ha))

instance : Decidable t.LinksArePaths := decidable_of_iff _ linksArePaths_iff.symm

/-- What was gained is no link, so the links hold paths still. -/
theorem LinksArePaths.gains {new : List (Address × Node)} (h : t.LinksArePaths)
    (hgains : t.Gains t' new) (hnew : ∀ a target, (a, Node.link target) ∉ new) :
    t'.LinksArePaths := fun a target ha =>
  (hgains.entry a _ ha).elim (h a target) fun hmem => absurd hmem (hnew a target)

/-- The pieces of a path without the character of code zero. -/
def ArePieces (steps : List Text) : Prop := ∀ s ∈ steps, s ≠ [] ∧ '/' ∉ s ∧ '\x00' ∉ s

theorem arePieces_steps {path : Text} (h : '\x00' ∉ path) : ArePieces (Path.steps path) := by
  intro s hs
  obtain ⟨hmem, hne⟩ := List.mem_filter.1 hs
  exact ⟨by simpa using hne, Text.not_mem_of_mem_splitOn hmem, fun hnul =>
    h (Text.mem_of_mem_splitOn hmem hnul)⟩

theorem arePieces_stepsOf {path : Text} (h : '\x00' ∉ path) : ArePieces (stepsOf path) := by
  rw [stepsOf]
  split
  · exact List.forall_mem_append.2 ⟨arePieces_steps h, by simp⟩
  · exact arePieces_steps h

/-- What is left to follow after a leg are pieces, and where it ends at a vacant place, a file can be
given the name. -/
def LegIsNamed (t : Tree) : Leg → Prop
  | .end_ (.vacant _ n) => isName n = true
  | .end_ _ => True
  | .link _ target more => (∃ x, t.get? x = some (.link target)) ∧ ArePieces more

theorem legIsNamed_of_leg {first : Leg} (hpieces : ArePieces steps)
    (h : t.leg follow dir steps = .ok first) : t.LegIsNamed first := by
  rw [leg_eq_ok_iff] at h
  induction h with
  | nil => trivial
  | dot _ ih => exact ih (List.forall_mem_cons.1 hpieces).2
  | up _ ih => exact ih (List.forall_mem_cons.1 hpieces).2
  | down _ _ _ ih => exact ih (List.forall_mem_cons.1 hpieces).2
  | vacant hn =>
    obtain ⟨hne, hslash, hnul⟩ := (List.forall_mem_cons.1 hpieces).1
    exact isName_iff.2 ⟨Path.isStep_iff.2 ⟨hne, hn.notDot, hn.notDots, hslash⟩, hnul, hn.short⟩
  | file => trivial
  | unfollowed => trivial
  | link _ _ hnode => exact ⟨⟨_, hnode⟩, (List.forall_mem_cons.1 hpieces).2⟩

/-- A way that ends at a vacant place ends with a name that can be given. -/
theorem isName_of_walk {budget : Nat} {above : Address} {n : Text} (hlinks : t.LinksArePaths)
    (hpieces : ArePieces steps) (h : t.walk follow budget dir steps = .ok (.vacant above n)) :
    isName n = true := by
  rw [walk_eq_ok_iff] at h
  generalize hspot : Spot.vacant above n = spot at h
  induction h with
  | end_ hleg =>
    subst hspot
    exact legIsNamed_of_leg hpieces hleg
  | link hleg _ _ ih =>
    obtain ⟨⟨x, hx⟩, hmore⟩ := legIsNamed_of_leg hpieces hleg
    exact ih (List.forall_mem_append.2 ⟨arePieces_stepsOf (hlinks x _ hx), hmore⟩) hspot

end Tree

/-! ### Writing and finding -/

namespace Disk

variable {d d' : Disk} {path : Text} {content : Bytes} {executable : Option Bool}

theorem follow_of_grows {t' : Tree} {links : Bool} {steps : List Text} {spot : Spot}
    (hgrows : d.tree.Grows t') (hp : Path.isAbsolute path = true)
    (h : d.follow links path steps = .ok spot) :
    ({ d with tree := t' } : Disk).follow links path steps = .ok (t'.spotAt spot.address) := by
  have hwalk := walk_of_follow hp h
  rw [follow] at h ⊢
  split
  · next hnil => rw [if_pos hnil] at h; cases h
  next hnil =>
  rw [if_neg hnil] at h
  split
  · next hnul => rw [if_pos hnul] at h; cases h
  · rw [Tree.startOf, if_pos hp]
    exact Tree.walk_of_grows hgrows rfl hwalk

/-- What writing a file does: the file is set where the path leads, in a place that was vacant or a
file's. -/
theorem exists_set_of_put (hp : Path.isAbsolute path = true) (hlinks : d.tree.LinksArePaths)
    (h : (put path content executable).on d = (.ok (), d')) :
    ∃ spot n dir mode, d.openForWriting path = .ok spot ∧ spot.address = n :: dir ∧
      d.tree.get? dir = some .directory ∧ isName n = true ∧
      (d.tree.get? (n :: dir) = none ∨ ∃ old oldMode,
        d.tree.get? (n :: dir) = some (.file old oldMode)) ∧
      d' = { d with tree := d.tree.set n dir (.file content mode) } := by
  rw [put_on] at h
  cases hopen : d.openForWriting path with
  | error e =>
    rw [hopen] at h
    cases h
  | ok spot =>
    have hfollow := (openForWriting_eq_ok hopen).1
    have hholds := openForWriting_holds hp hopen
    rw [hopen] at h
    cases spot with
    | vacant dir n =>
      cases h
      have hnul : '\x00' ∉ path := fun hmem => by
        rw [follow, if_pos hmem] at hfollow
        split at hfollow <;> cases hfollow
      exact ⟨_, n, dir, _, rfl, rfl, hholds.1,
        Tree.isName_of_walk hlinks (Tree.arePieces_steps hnul) (walk_of_follow hp hfollow),
        .inl hholds.2, rfl⟩
    | entry a node =>
      cases a with
      | nil => cases h
      | cons n dir =>
        cases node with
        | directory => cases h
        | link target => cases h
        | file old oldMode =>
          cases h
          exact ⟨_, n, dir, _, rfl, rfl, Tree.get?_dir hholds, Tree.isName_of_get? hholds,
            .inr ⟨old, oldMode, hholds⟩, rfl⟩

/-- **Who has written a file through a path finds it by this path**, whatever links stand on it. -/
theorem find_of_put (hp : Path.isAbsolute path = true) (hlinks : d.tree.LinksArePaths)
    (h : (put path content executable).on d = (.ok (), d')) :
    ∃ a mode, d'.find path = .ok (a, .file content mode) := by
  obtain ⟨spot, n, dir, mode, hopen, hspot, hdir, hn, hplace, rfl⟩ := exists_set_of_put hp hlinks h
  have hplain : Path.wantsDirectory path = false := by
    cases hwants : Path.wantsDirectory path with
    | false => rfl
    | true =>
      rw [openForWriting, if_pos hwants] at hopen
      split at hopen <;> cases hopen
  have hget : (d.tree.set n dir (.file content mode)).get? (n :: dir) =
      some (.file content mode) := by
    rw [Tree.get?_set_of_directory hdir hn (.inr ?_), if_pos rfl]
    rcases hplace with hnone | ⟨old, oldMode, hfile⟩
    · simp [hnone]
    · simp [hfile]
  have hgrows : d.tree.Grows (d.tree.set n dir (.file content mode)) :=
    Tree.grows_set fun target => by
      rcases hplace with hnone | ⟨old, oldMode, hfile⟩
      · simp [hnone]
      · simp [hfile]
  have hfound := follow_of_grows hgrows hp (openForWriting_eq_ok hopen).1
  rw [hspot, Tree.spotAt_of_get? hget] at hfound
  refine ⟨n :: dir, mode, ?_⟩
  rw [find, Tree.stepsOf, hplain, if_neg Bool.false_ne_true, hfound]

/-- Making directories makes no link. -/
theorem keeps_linksArePaths_makeDirectories (path : Text) :
    Action.Keeps Tree.LinksArePaths (makeDirectories path) :=
  keeps_makeDirectories path fun _ _ _ h hgains => h.gains hgains (by simp)

/-- A directory stays where directories are made. -/
theorem keeps_directory_makeDirectories (a : Address) (path : Text) :
    Action.Keeps (fun t => t.get? a = some .directory) (makeDirectories path) :=
  keeps_makeDirectories path fun _ _ _ h hgains => hgains.directory a h

/-- A directory stays where files are written. -/
theorem keeps_directory_write (a : Address) (path : Text) (content : Bytes) :
    Action.Keeps (fun t => t.get? a = some .directory) (write path content) :=
  keeps_put fun _ _ _ _ _ h _ _ hgains => hgains.directory a h

end Disk

end ActionBundles
