import ActionBundles.Dict
import ActionBundles.Text.Utf8

/-!
# File trees

A tree holds directories, files and symbolic links, each at its address. An address lists names
from the entry up to the root, so that the address of a directory is the tail of the addresses in
it. Every entry lies in a directory (`Tree.closed`); the root is always one. The names are names that
a file may have (`Tree.named`).

Of a file the content is kept and whether it can be executed, of a link its target; owners, other
permissions, times, and further names of the same file (hard links) are left out, and so is every
kind of entry but these three.

All changes are made of two: `Tree.set` puts an entry into a directory, `Tree.prune` takes an entry
away with everything below it. `get?_set` and `get?_prune` say what is found afterwards.
-/

namespace ActionBundles

/-- The names that lead to an entry, from the entry up to the root. -/
abbrev Address := List Text

/-- What stands at an address. -/
inductive Node where
  | directory
  | file (content : Bytes) (executable : Bool)
  /-- A symbolic link to a path. -/
  | link (target : Text)
  deriving DecidableEq

/-- The most bytes that a name may have. -/
def maxNameLength : Nat := 255

/-- Whether a text may be the name of an entry: it is not empty, no dots that mean a directory, and
holds neither a slash nor the character of code zero. -/
def isName (n : Text) : Bool :=
  n ≠ [] && n ≠ ['.'] && n ≠ ['.', '.'] && '/' ∉ n && '\x00' ∉ n && n.byteLength ≤ maxNameLength

/-- Directories, files and links, each in a directory. -/
structure Tree where
  /-- What stands at each address but the root. -/
  entries : Dict Address Node
  /-- An entry has a name that a file may have. -/
  named : ∀ name dir, entries.contains (name :: dir) = true → isName name = true
  /-- An entry lies in the root or in a directory. -/
  closed : ∀ name dir, entries.contains (name :: dir) = true →
    dir = [] ∨ entries.get? dir = some .directory
  /-- The root is no entry. -/
  rootless : entries.get? [] = none

namespace Tree

instance : DecidableEq Tree := fun a b =>
  if h : a.entries = b.entries then .isTrue (by cases a; cases b; cases h; rfl)
  else .isFalse fun e => h (e ▸ rfl)

/-- The tree that holds nothing but its root. -/
def empty : Tree where
  entries := .empty
  named := fun _ _ h => by simp [Dict.contains] at h
  closed := fun _ _ h => by simp [Dict.contains] at h
  rootless := rfl

instance : Inhabited Tree := ⟨empty⟩

/-- What stands at an address. -/
def get? (t : Tree) : Address → Option Node
  | [] => some .directory
  | name :: dir => t.entries.get? (name :: dir)

/-- Whether a directory stands at the address. -/
def isDirectory (t : Tree) (a : Address) : Bool := t.get? a = some .directory

/-- The names in a directory, in increasing order. -/
def names (t : Tree) (dir : Address) : List Text :=
  t.entries.keys.filterMap fun
    | [] => none
    | name :: above => if above = dir then some name else none

/-- The number of entries. -/
def size (t : Tree) : Nat := t.entries.size

/-- Whether an entry may be put at a place: the directory is there, and a directory gives way to
nothing. -/
def allows (t : Tree) (name : Text) (dir : Address) (node : Node) : Bool :=
  isName name && t.isDirectory dir &&
    (node = .directory || t.get? (name :: dir) ≠ some .directory)

private theorem eq_of_compare_eq {a b : Address} (h : compare a b = .eq) : a = b :=
  Std.LawfulEqOrd.eq_of_compare h

theorem compare_ne_of_ne {a b : Address} (h : a ≠ b) : compare a b ≠ .eq :=
  fun e => h (eq_of_compare_eq e)

/-- Puts an entry into a directory, in place of the file or link that was there. Where the place
does not allow it, nothing changes. -/
def set (t : Tree) (name : Text) (dir : Address) (node : Node) : Tree :=
  if h : t.allows name dir node = true then
    { entries := t.entries.insert (name :: dir) node
      named := by
        simp only [allows, Bool.and_eq_true] at h
        intro name' dir' hc
        rw [Dict.contains, Dict.get?_insert] at hc
        split at hc
        · next heq =>
          obtain ⟨rfl, -⟩ := List.cons.inj (eq_of_compare_eq heq)
          exact h.1.1
        · exact t.named name' dir' hc
      closed := by
        simp only [allows, isDirectory, Bool.and_eq_true, Bool.or_eq_true, decide_eq_true_eq] at h
        intro name' dir' hc
        have below : dir' = [] ∨ t.entries.get? dir' = some .directory := by
          rw [Dict.contains, Dict.get?_insert] at hc
          split at hc
          · next heq =>
            obtain ⟨-, rfl⟩ := List.cons.inj (eq_of_compare_eq heq)
            cases dir' with
            | nil => exact .inl rfl
            | cons n d => exact .inr h.1.2
          · exact t.closed name' dir' hc
        rcases below with rfl | hdir
        · exact .inl rfl
        · by_cases e : dir' = name :: dir
          · subst e
            rcases h.2 with rfl | hne
            · exact .inr (by simp [Dict.get?_insert, Std.ReflOrd.compare_self])
            · exact absurd hdir hne
          · exact .inr (by rw [Dict.get?_insert, if_neg (compare_ne_of_ne e)]; exact hdir)
      rootless := by
        rw [Dict.get?_insert, if_neg (compare_ne_of_ne (List.cons_ne_nil _ _).symm)]
        exact t.rootless }
  else t

/-- Takes an entry away with everything below it. -/
def prune (t : Tree) (a : Address) : Tree :=
  { entries := t.entries.filterKeys fun k => !a.isSuffixOf k
    named := by
      intro name dir hc
      rw [Dict.contains, Dict.get?_filterKeys] at hc
      split at hc
      · exact t.named name dir hc
      · simp at hc
    closed := by
      intro name dir hc
      rw [Dict.contains, Dict.get?_filterKeys] at hc
      split at hc
      · next hk =>
        rcases t.closed name dir hc with rfl | hdir
        · exact .inl rfl
        · refine .inr ?_
          have hk' : a.isSuffixOf dir = false := by
            rw [Bool.eq_false_iff]
            intro hs
            have : a <:+ name :: dir :=
              (List.isSuffixOf_iff_suffix.1 hs).trans (List.suffix_cons _ _)
            simp [List.isSuffixOf_iff_suffix.2 this] at hk
          rw [Dict.get?_filterKeys, hk']
          simpa using hdir
      · simp at hc
    rootless := by rw [Dict.get?_filterKeys, t.rootless, ite_self] }

/-! ### What is found afterwards -/

/-- An entry's directory is a directory. -/
theorem get?_dir {t : Tree} {name : Text} {dir : Address} {node : Node}
    (h : t.get? (name :: dir) = some node) : t.get? dir = some .directory := by
  rcases t.closed name dir (by simp [Dict.contains, show t.entries.get? (name :: dir) = _ from h])
    with rfl | hdir
  · rfl
  · cases dir with
    | nil => rfl
    | cons n d => exact hdir

/-- An entry has a name that a file may have. -/
theorem isName_of_get? {t : Tree} {name : Text} {dir : Address} {node : Node}
    (h : t.get? (name :: dir) = some node) : isName name = true :=
  t.named name dir (by simp [Dict.contains, show t.entries.get? (name :: dir) = _ from h])

@[grind =] theorem get?_set {t : Tree} {name : Text} {dir : Address} {node : Node} (a : Address) :
    (t.set name dir node).get? a =
      if t.allows name dir node = true ∧ a = name :: dir then some node else t.get? a := by
  unfold set
  split
  · next h =>
    cases a with
    | nil => simp [get?]
    | cons n d =>
      simp only [get?, Dict.get?_insert, h, true_and]
      by_cases e : (n :: d : Address) = name :: dir
      · rw [if_pos e, e, Std.ReflOrd.compare_self, if_pos rfl]
      · rw [if_neg e, if_neg (compare_ne_of_ne e)]
  · next h => simp [h]

@[grind =] theorem get?_prune {t : Tree} {a : Address} (b : Address) :
    (t.prune a).get? b = if b ≠ [] ∧ a <:+ b then none else t.get? b := by
  cases b with
  | nil => simp [get?]
  | cons n d =>
    simp only [get?, prune, Dict.get?_filterKeys]
    by_cases h : a <:+ n :: d
    · simp [h, List.isSuffixOf_iff_suffix.2 h]
    · have : a.isSuffixOf (n :: d) = false := by
        rw [Bool.eq_false_iff]
        exact fun hs => h (List.isSuffixOf_iff_suffix.1 hs)
      simp [h, this]

theorem get?_prune_of_not_suffix {t : Tree} {a b : Address} (h : ¬ a <:+ b) :
    (t.prune a).get? b = t.get? b :=
  (get?_prune b).trans (if_neg fun hs => h hs.2)

/-- Trees that hold the same at every address are equal. -/
theorem ext_get? {t₁ t₂ : Tree} (h : ∀ a, t₁.get? a = t₂.get? a) : t₁ = t₂ := by
  have : t₁.entries = t₂.entries := Dict.ext_get? fun k => by
    cases k with
    | nil => rw [t₁.rootless, t₂.rootless]
    | cons n d => exact h (n :: d)
  cases t₁; cases t₂; cases this; rfl

end Tree

end ActionBundles
