import ActionBundles.Disk.Walk

/-!
# Files with other contents

Where a path leads, and which files and directories there are, does not depend on what files hold.
After the file at `x` was written again every path leads where it led before (`Disk.find_rewritten`),
so only who reads the file at `x` can tell.
-/

namespace ActionBundles

namespace Dict

variable {κ υ : Type} [Ord κ] [Std.TransOrd κ] [Std.LawfulEqOrd κ] {k : κ} {old : υ}

theorem keys_insertEntry {l : List (κ × υ)} (hsorted : l.Pairwise fun a b => compare a.1 b.1 = .lt)
    (h : lookup k l = some old) (v : υ) : (insertEntry k v l).map (·.1) = l.map (·.1) := by
  induction l with
  | nil => cases h
  | cons head rest ih =>
    obtain ⟨k₀, v₀⟩ := head
    obtain ⟨hlt, hsorted⟩ := List.pairwise_cons.1 hsorted
    rw [lookup] at h
    rw [insertEntry]
    split
    · next hbefore =>
      -- the key would stand before all keys that are there
      rw [if_neg (by simp [hbefore]), lookup_eq_none_of_lt fun e he =>
        Std.TransCmp.lt_trans hbefore (hlt e he)] at h
      cases h
    · next heq => rw [List.map_cons, List.map_cons, Std.LawfulEqOrd.eq_of_compare heq]
    · next hafter =>
      rw [if_neg (by simp [hafter])] at h
      rw [List.map_cons, List.map_cons, ih hsorted h]

/-- A key that is there already is not added. -/
theorem keys_insert {d : Dict κ υ} (h : d.get? k = some old) (v : υ) :
    (d.insert k v).keys = d.keys :=
  keys_insertEntry d.sorted h v

end Dict

/-! ### Trees -/

/-- What is at a place once the file at `x` holds something else. -/
def Spot.rewritten (x : Address) (content : Bytes) (mode : Bool) : Spot → Spot
  | .entry a (.file old oldMode) =>
    .entry a (if a = x then .file content mode else .file old oldMode)
  | spot => spot

/-- The same for a leg of a way. -/
def Leg.rewritten (x : Address) (content : Bytes) (mode : Bool) : Leg → Leg
  | .end_ spot => .end_ (spot.rewritten x content mode)
  | leg => leg

namespace Tree

/-- The tree once the file `n` in a directory holds something else. -/
def rewritten (t : Tree) (n : Text) (dir : Address) (content : Bytes) (mode : Bool) : Tree :=
  t.set n dir (.file content mode)

variable {t : Tree} {n : Text} {dir : Address} {old content : Bytes} {oldMode mode follow : Bool}

theorem allows_rewritten (h : t.get? (n :: dir) = some (.file old oldMode)) :
    t.allows n dir (.file content mode) = true := by
  rw [allows, isName_of_get? h, isDirectory, get?_dir h, h]
  simp

theorem get?_rewritten (h : t.get? (n :: dir) = some (.file old oldMode)) (a : Address) :
    (t.rewritten n dir content mode).get? a =
      if a = n :: dir then some (.file content mode) else t.get? a := by
  rw [rewritten, get?_set, allows_rewritten h]
  simp

/-- No name comes or goes. -/
theorem keys_rewritten (h : t.get? (n :: dir) = some (.file old oldMode)) :
    (t.rewritten n dir content mode).entries.keys = t.entries.keys := by
  rw [rewritten, set, dif_pos (allows_rewritten h)]
  exact Dict.keys_insert h _

theorem names_rewritten (h : t.get? (n :: dir) = some (.file old oldMode)) (a : Address) :
    (t.rewritten n dir content mode).names a = t.names a := by
  rw [names, keys_rewritten h, names]

theorem size_rewritten (h : t.get? (n :: dir) = some (.file old oldMode)) :
    (t.rewritten n dir content mode).size = t.size := by
  have hkeys : (t.rewritten n dir content mode).entries.keys.length = t.entries.keys.length :=
    congrArg List.length (keys_rewritten h)
  rwa [Dict.keys, Dict.keys, List.length_map, List.length_map] at hkeys

/-- Steps lead where they led before. -/
theorem leg_rewritten (h : t.get? (n :: dir) = some (.file old oldMode)) (start : Address)
    (steps : List Text) : (t.rewritten n dir content mode).leg follow start steps =
      (t.leg follow start steps).map (Leg.rewritten (n :: dir) content mode) := by
  induction steps generalizing start with
  | nil => rfl
  | cons step rest ih =>
    rw [leg, leg]
    split
    · exact ih start
    split
    · exact ih start.tail
    split
    · rfl
    rw [get?_rewritten h]
    by_cases hstep : step :: start = n :: dir
    · rw [if_pos hstep, hstep, h]
      dsimp only
      split
      · simp [Except.map, Leg.rewritten, Spot.rewritten]
      · rfl
    · rw [if_neg hstep]
      cases t.get? (step :: start) with
      | none => dsimp only; split <;> rfl
      | some node =>
        cases node with
        | directory => exact ih (step :: start)
        | file held heldMode =>
          dsimp only
          split
          · simp [Except.map, Leg.rewritten, Spot.rewritten, hstep]
          · rfl
        | link target => dsimp only; split <;> rfl

theorem walk_rewritten (h : t.get? (n :: dir) = some (.file old oldMode)) (budget : Nat)
    (start : Address) (steps : List Text) :
    (t.rewritten n dir content mode).walk follow budget start steps =
      (t.walk follow budget start steps).map (Spot.rewritten (n :: dir) content mode) := by
  induction budget using Nat.strongRecOn generalizing start steps with
  | _ budget ih =>
    rw [walk, walk, leg_rewritten h]
    cases t.leg follow start steps with
    | error e => rfl
    | ok first =>
      cases first with
      | end_ spot => rfl
      | link above target rest =>
        cases budget with
        | zero => rfl
        | succ left =>
          show (if target = [] then _ else _) = Except.map _ (if target = [] then _ else _)
          split
          · rfl
          · exact ih left (Nat.lt_succ_self left) _ _

end Tree

/-! ### Disks -/

namespace Disk

/-- The disk once the file `n` in a directory holds something else. -/
def rewritten (d : Disk) (n : Text) (dir : Address) (content : Bytes) (mode : Bool) : Disk :=
  { d with tree := d.tree.rewritten n dir content mode }

/-- Whether a path leads to the entry at an address. -/
def LeadsTo (d : Disk) (path : Text) (a : Address) : Prop := ∃ node, d.find path = .ok (a, node)

variable {d : Disk} {n : Text} {dir : Address} {old content : Bytes} {oldMode mode : Bool}

section

variable (h : d.tree.get? (n :: dir) = some (.file old oldMode)) (path : Text)

include h

/-- **A path leads where it led before.** -/
theorem find_rewritten : (d.rewritten n dir content mode).find path =
    (d.find path).map fun found => (found.1,
      match found.2 with
      | .file held heldMode =>
        if found.1 = n :: dir then .file content mode else .file held heldMode
      | node => node) := by
  have hfollow : (d.rewritten n dir content mode).follow true path (Tree.stepsOf path) =
      (d.follow true path (Tree.stepsOf path)).map (Spot.rewritten (n :: dir) content mode) := by
    rw [follow, follow]
    split
    · rfl
    split
    · rfl
    · exact Tree.walk_rewritten h _ _ _
  rw [find, find, hfollow]
  cases d.follow true path (Tree.stepsOf path) with
  | error e => rfl
  | ok spot =>
    cases spot with
    | vacant above name => rfl
    | entry a node => cases node <;> rfl

theorem isThere_rewritten : (d.rewritten n dir content mode).isThere path = d.isThere path := by
  rw [isThere, isThere, find_rewritten h]
  cases d.find path <;> rfl

theorem isDirectory_rewritten :
    (d.rewritten n dir content mode).isDirectory path = d.isDirectory path := by
  rw [isDirectory, isDirectory, find_rewritten h]
  cases d.find path with
  | error e => rfl
  | ok found =>
    obtain ⟨a, node⟩ := found
    cases node with
    | directory => rfl
    | link target => rfl
    | file held heldMode => by_cases ha : a = n :: dir <;> simp [Except.map, ha]

theorem isFile_rewritten : (d.rewritten n dir content mode).isFile path = d.isFile path := by
  rw [isFile, isFile, find_rewritten h]
  cases d.find path with
  | error e => rfl
  | ok found =>
    obtain ⟨a, node⟩ := found
    cases node with
    | directory => rfl
    | link target => rfl
    | file held heldMode => by_cases ha : a = n :: dir <;> simp [Except.map, ha]

theorem names_rewritten : (d.rewritten n dir content mode).names path = d.names path := by
  rw [names, names, find_rewritten h]
  cases d.find path with
  | error e => rfl
  | ok found =>
    obtain ⟨a, node⟩ := found
    cases node with
    | directory => exact congrArg Except.ok (Tree.names_rewritten h a)
    | link target => rfl
    | file held heldMode => by_cases ha : a = n :: dir <;> simp [Except.map, ha]

theorem canonical_rewritten :
    (d.rewritten n dir content mode).canonical path = d.canonical path := by
  rw [canonical, canonical, find_rewritten h]
  cases d.find path <;> rfl

variable {path} in
/-- Who reads the file itself reads what it holds now. -/
theorem read_rewritten {held : Bytes} {heldMode : Bool}
    (hpath : d.find path = .ok (n :: dir, .file held heldMode)) :
    (d.rewritten n dir content mode).read path = .ok content := by
  rw [read, find_rewritten h, hpath]
  simp [Except.map]

variable {path} in
/-- Nobody else can tell. -/
theorem read_rewritten_of_not_leadsTo (hpath : ¬ d.LeadsTo path (n :: dir)) :
    (d.rewritten n dir content mode).read path = d.read path := by
  rw [read, read, find_rewritten h]
  cases hfind : d.find path with
  | error e => rfl
  | ok found =>
    obtain ⟨a, node⟩ := found
    have ha : a ≠ n :: dir := fun ha => hpath ⟨node, ha ▸ hfind⟩
    cases node with
    | directory => rfl
    | link target => rfl
    | file held heldMode => simp [Except.map, ha]

theorem filesWithin_rewritten (depth : Nat) :
    (d.rewritten n dir content mode).filesWithin depth path = d.filesWithin depth path := by
  induction depth generalizing path with
  | zero => rfl
  | succ depth ih =>
    simp only [filesWithin, names_rewritten h, isDirectory_rewritten h, isFile_rewritten h, ih]

theorem filesBelow_rewritten :
    (d.rewritten n dir content mode).filesBelow path = d.filesBelow path := by
  have hbound : (d.rewritten n dir content mode).depthBound = d.depthBound := by
    rw [depthBound, depthBound, rewritten, Tree.size_rewritten h]
  rw [filesBelow, filesBelow, isThere_rewritten h, names_rewritten h, hbound,
    filesWithin_rewritten h]

theorem subdirectories_rewritten :
    (d.rewritten n dir content mode).subdirectories path = d.subdirectories path := by
  rw [subdirectories, subdirectories, names_rewritten h]
  exact List.filter_congr fun below _ => isDirectory_rewritten h below

end

end Disk

end ActionBundles
