import ActionBundles.Proofs.BundlePlaces
import ActionBundles.Proofs.SideBySide
import ActionBundles.Proofs.StoredRecords
import Mathlib.Data.Option.Basic

/-!
# Trees that differ in times and in a name

Two runs of the program at different times write the same documents but for the times in them, and
they work in directories of different names. Two trees are alike (`Tree.Alike`) under a renaming of
addresses if the same stands in both at corresponding addresses, up to times. What a path finds in
one of them, the corresponding path finds in the other (`Tree.leg_alike`, `Tree.walk_alike`).
-/

namespace ActionBundles

/-! ### Documents that differ in times -/

/-- The record without its time. -/
def SyncRecord.untimed (s : SyncRecord) : SyncRecord := { s with generated := [] }

/-- The record without its time. -/
def GeneratedRecord.untimed (r : GeneratedRecord) : GeneratedRecord := { r with generatedAt := [] }

/-- Whether two manifests differ at most in times. -/
structure Manifest.Alike (m m' : Manifest) : Prop where
  artifactOf? : ∀ source, m'.artifactOf? source = m.artifactOf? source
  recordOf? : ∀ artifact, (m'.recordOf? artifact).map GeneratedRecord.untimed =
    (m.recordOf? artifact).map GeneratedRecord.untimed

/-- Whether two files differ at most in times: they are the same, or the documents of sync records
or of manifests that do. -/
inductive ContentAlike : Bytes → Bytes → Prop where
  | same (content : Bytes) : ContentAlike content content
  | sync {s s' : SyncRecord} (h : s'.untimed = s.untimed) :
      ContentAlike s.document.utf8 s'.document.utf8
  | manifest {m m' : Manifest} (h : m.Alike m') : ContentAlike m.render.utf8 m'.render.utf8

/-- Whether the same stands at two addresses, up to times. -/
inductive Node.Alike : Node → Node → Prop where
  | directory : Node.Alike .directory .directory
  | file {content content' : Bytes} (h : ContentAlike content content') (mode : Bool) :
      Node.Alike (.file content mode) (.file content' mode)
  | link (target : Text) : Node.Alike (.link target) (.link target)

theorem Manifest.Alike.refl (m : Manifest) : m.Alike m := ⟨fun _ => rfl, fun _ => rfl⟩

theorem Node.Alike.refl (node : Node) : node.Alike node := by
  cases node with
  | directory => exact .directory
  | file content mode => exact .file (.same content) mode
  | link target => exact .link target

theorem Node.Alike.directory_iff {node node' : Node} (h : node.Alike node') :
    node' = .directory ↔ node = .directory := by
  cases h <;> simp

/-! ### Renamings -/

/-- A renaming of the entries of a tree that leaves each entry in the directory that it is in, and
that undoes itself. -/
structure Renaming (f : Address → Address) : Prop where
  tail : ∀ x, f x.tail = (f x).tail
  self : ∀ x, f (f x) = x
  isName : ∀ n dir n' dir', f (n :: dir) = n' :: dir' → isName n = true → isName n' = true

theorem renaming_id : Renaming id where
  tail _ := rfl
  self _ := rfl
  isName _ _ _ _ h hn := (List.cons.inj h).1 ▸ hn

namespace Renaming

variable {f : Address → Address} (hf : Renaming f) {x y dir : Address} {n : Text}

include hf

theorem injective : Function.Injective f := fun x y h => by rw [← hf.self x, h, hf.self]

theorem nil : f [] = [] := by
  have h := congrArg List.length (hf.tail [])
  rw [List.tail_nil, List.length_tail] at h
  exact List.length_eq_zero_iff.1 (by omega)

theorem exists_cons (n : Text) (dir : Address) : ∃ n', f (n :: dir) = n' :: f dir := by
  have htail := hf.tail (n :: dir)
  rw [List.tail_cons] at htail
  cases h : f (n :: dir) with
  | nil => cases hf.injective (h.trans hf.nil.symm)
  | cons n' dir' =>
    rw [h, List.tail_cons] at htail
    exact ⟨n', by rw [htail]⟩

theorem eq_nil_iff : f x = [] ↔ x = [] :=
  ⟨fun h => hf.injective (h.trans hf.nil.symm), fun h => h ▸ hf.nil⟩

theorem suffix (h : x <:+ y) : f x <:+ f y := by
  induction y with
  | nil => exact List.suffix_nil.1 h ▸ List.suffix_refl _
  | cons n y ih =>
    rcases List.suffix_cons_iff.1 h with rfl | h
    · exact List.suffix_refl _
    · obtain ⟨n', hn'⟩ := hf.exists_cons n y
      rw [hn']
      exact (ih h).trans (List.suffix_cons n' _)

theorem suffix_iff : f x <:+ f y ↔ x <:+ y :=
  ⟨fun h => by simpa only [hf.self] using hf.suffix h, hf.suffix⟩

/-- What lies above an address that keeps its name keeps it as well. -/
theorem eq_of_suffix (hy : f y = y) (h : x <:+ y) : f x = x := by
  induction y with
  | nil => rw [List.suffix_nil.1 h, hf.nil]
  | cons n y ih =>
    rcases List.suffix_cons_iff.1 h with rfl | h
    · exact hy
    · have htail := hf.tail (n :: y)
      rw [hy, List.tail_cons] at htail
      exact ih htail h

theorem isName_iff {n' : Text} {dir' : Address} (h : f (n :: dir) = n' :: dir') :
    ActionBundles.isName n' = true ↔ ActionBundles.isName n = true :=
  ⟨hf.isName n' dir' n dir (by rw [← h, hf.self]), hf.isName n dir n' dir' h⟩

end Renaming

/-- Whether steps from a directory lead through entries that keep their names. -/
def Path.Passes (f : Address → Address) : Address → List Text → Prop
  | _, [] => True
  | dir, step :: rest =>
    if step = ['.'] then Passes f dir rest
    else if step = ['.', '.'] then Passes f dir.tail rest
    else f (step :: dir) = step :: f dir ∧ Passes f (step :: dir) rest

theorem Path.passes_id (dir : Address) (steps : List Text) : Path.Passes id dir steps := by
  induction steps generalizing dir with
  | nil => trivial
  | cons step rest ih =>
    rw [Path.Passes]
    split
    · exact ih dir
    split
    · exact ih dir.tail
    · exact ⟨rfl, ih (step :: dir)⟩

/-! ### Trees -/

/-- Whether two trees are alike under a renaming. -/
def Tree.Alike (f : Address → Address) (t t' : Tree) : Prop :=
  ∀ x, Option.Rel Node.Alike (t.get? x) (t'.get? (f x))

/-- Whether two spots correspond. -/
inductive Spot.Alike (f : Address → Address) : Spot → Spot → Prop where
  | entry (x : Address) {node node' : Node} (h : node.Alike node') :
      Spot.Alike f (.entry x node) (.entry (f x) node')
  | vacant {dir dir' : Address} {n n' : Text} (h : f (n :: dir) = n' :: dir') :
      Spot.Alike f (.vacant dir n) (.vacant dir' n')

/-- Whether two legs correspond. -/
inductive Leg.Alike (f : Address → Address) : Leg → Leg → Prop where
  | end_ {spot spot' : Spot} (h : spot.Alike f spot') : Leg.Alike f (.end_ spot) (.end_ spot')
  | link (dir : Address) (target : Text) (rest : List Text) :
      Leg.Alike f (.link dir target rest) (.link (f dir) target rest)

namespace Tree

variable {f : Address → Address} {t t' : Tree} {x dir dir' : Address} {n n' : Text}
  {node node' : Node}

theorem alike_refl (t : Tree) : t.Alike id t := fun x => by
  rw [id_eq]
  cases t.get? x with
  | none => exact .none
  | some node => exact .some (.refl node)

namespace Alike

variable (h : t.Alike f t')

include h

theorem none_iff (x : Address) : t'.get? (f x) = none ↔ t.get? x = none := by
  have hx := h x
  revert hx
  cases t.get? x <;> cases t'.get? (f x) <;> intro hx <;> cases hx <;> simp

theorem directory_iff (x : Address) :
    t'.get? (f x) = some .directory ↔ t.get? x = some .directory := by
  have hx := h x
  revert hx
  cases t.get? x <;> cases t'.get? (f x) <;> intro hx
  · simp
  · cases hx
  · cases hx
  · cases hx with
    | some hx => simpa using hx.directory_iff

theorem allows (hf : Renaming f) (hx : f (n :: dir) = n' :: dir') (hnode : node.Alike node') :
    t'.allows n' dir' node' = t.allows n dir node := by
  have hdir : dir' = f dir := by
    obtain ⟨k, hk⟩ := hf.exists_cons n dir
    exact (List.cons.inj (hx.symm.trans hk)).2
  have hplace := h.directory_iff (n :: dir)
  rw [hx] at hplace
  rw [Bool.eq_iff_iff]
  simp only [Tree.allows, isDirectory, Bool.and_eq_true, Bool.or_eq_true, decide_eq_true_eq, hdir,
    hf.isName_iff hx, h.directory_iff dir, hnode.directory_iff, ne_eq]
  rw [← hdir, hplace]

theorem set (hf : Renaming f) (hx : f (n :: dir) = n' :: dir') (hnode : node.Alike node') :
    (t.set n dir node).Alike f (t'.set n' dir' node') := fun x => by
  rw [get?_set, get?_set, h.allows hf hx hnode, ← hx]
  by_cases he : t.allows n dir node = true ∧ x = n :: dir
  · rw [if_pos he, if_pos ⟨he.1, congrArg f he.2⟩]
    exact .some hnode
  · rw [if_neg he, if_neg fun he' => he ⟨he'.1, hf.injective he'.2⟩]
    exact h x

theorem prune (hf : Renaming f) (x : Address) : (t.prune x).Alike f (t'.prune (f x)) := fun y => by
  simp only [get?_prune, ne_eq, hf.eq_nil_iff, hf.suffix_iff]
  split
  · exact .none
  · exact h y

end Alike

/-- Steps through entries that keep their names lead to corresponding spots. -/
theorem leg_alike {follow : Bool} (hf : Renaming f) (h : t.Alike f t') {steps : List Text}
    (hpass : Path.Passes f dir steps) :
    EndAlike Eq (Leg.Alike f) (t.leg follow dir steps) (t'.leg follow (f dir) steps) := by
  induction steps generalizing dir with
  | nil => exact .ok (.end_ (.entry dir .directory))
  | cons step rest ih =>
    rw [Path.Passes] at hpass
    rw [leg, leg]
    split
    · next hdot =>
      rw [if_pos hdot] at hpass
      exact ih hpass
    next hdot =>
    rw [if_neg hdot] at hpass
    split
    · next hdots =>
      rw [if_pos hdots] at hpass
      rw [← hf.tail]
      exact ih hpass
    next hdots =>
    rw [if_neg hdots] at hpass
    obtain ⟨hname, hpass⟩ := hpass
    split
    · exact .error rfl
    rw [← hname]
    have hx := h (step :: dir)
    generalize t.get? (step :: dir) = here at hx
    generalize t'.get? (f (step :: dir)) = there at hx
    cases hx with
    | none =>
      dsimp only
      split
      · exact .ok (.end_ (.vacant hname))
      · exact .error rfl
    | some hnode =>
      cases hnode with
      | directory => exact ih hpass
      | file hcontent mode =>
        dsimp only
        split
        · exact .ok (.end_ (.entry (step :: dir) (.file hcontent mode)))
        · exact .error rfl
      | link target =>
        dsimp only
        split
        · exact .ok (.end_ (.entry (step :: dir) (.link target)))
        · exact .ok (.link dir target rest)

/-- In trees that are alike without a renaming, a walk leads to the same spot, whatever links are
passed. -/
theorem walk_alike {follow : Bool} (h : t.Alike id t') (budget : Nat) (dir : Address)
    (steps : List Text) :
    EndAlike Eq (Spot.Alike id) (t.walk follow budget dir steps)
      (t'.walk follow budget dir steps) := by
  induction budget using Nat.strongRecOn generalizing dir steps with
  | _ budget ih =>
    have hleg : EndAlike Eq (Leg.Alike id) (t.leg follow dir steps) (t'.leg follow (id dir) steps) :=
      leg_alike renaming_id h (Path.passes_id dir steps)
    rw [walk, walk]
    rw [id_eq] at hleg
    generalize t.leg follow dir steps = first at hleg
    generalize t'.leg follow dir steps = first' at hleg
    cases hleg with
    | error he => exact .error he
    | ok hfirst =>
      cases hfirst with
      | end_ hspot => exact .ok hspot
      | link above target rest =>
        cases budget with
        | zero => exact .error rfl
        | succ left =>
          dsimp only [id_eq]
          split
          · exact .error rfl
          · exact ih left (Nat.lt_succ_self left) _ _

end Tree

end ActionBundles
