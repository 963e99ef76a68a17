import Mathlib.Data.List.Forall2
import Mathlib.Data.List.ReduceOption

/-!
# Attempts

Much of the program tries something with each of several things, or one thing after another, and
stops at the first failure. Here is what success says of two attempts in a row
(`exists_of_bind_eq_ok`) and of one with each element of a list: it comes down to success with each
of them (`exists_mapM_iff`), and what is made of the list is what is made of its elements
(`eq_map_of_mapM`, `mapM_eq_map`, `forall₂_of_mapM`).
-/

namespace ActionBundles

universe u v

variable {ε : Type u} {α β : Type v}

/-! ### One after another -/

theorem exists_of_bind_eq_ok {x : Except ε α} {f : α → Except ε β} {b : β}
    (h : (x >>= f) = .ok b) : ∃ a, x = .ok a ∧ f a = .ok b := by
  cases x with
  | error e => cases h
  | ok a => exact ⟨a, rfl, h⟩

theorem eq_ok_of_toOption {x : Except ε α} {a : α} (h : x.toOption = some a) : x = .ok a := by
  cases x with
  | error e => cases h
  | ok b => rw [Option.some.inj h]

theorem exists_map_iff {f : α → β} {x : Except ε α} :
    (∃ b, x.map f = .ok b) ↔ ∃ a, x = .ok a := by
  cases x <;> simp [Except.map]

/-! ### With each element of a list -/

variable {f g : α → Except ε β} {as : List α} {bs : List β}

/-- What is made of the elements of a list is something exactly if it is of each element. -/
theorem exists_mapM_iff : (∃ bs, as.mapM f = .ok bs) ↔ ∀ a ∈ as, ∃ b, f a = .ok b := by
  induction as with
  | nil => exact iff_of_true ⟨[], rfl⟩ (List.forall_mem_nil _)
  | cons a as ih =>
    rw [List.forall_mem_cons, ← ih, List.mapM_cons]
    cases f a with
    | error e => simp [bind, Except.bind]
    | ok b => cases as.mapM f <;> simp [bind, Except.bind, pure, Except.pure]

theorem mapM_congr (h : ∀ a ∈ as, f a = g a) : as.mapM f = as.mapM g := by
  induction as with
  | nil => rfl
  | cons a as ih =>
    rw [List.mapM_cons, List.mapM_cons, h a List.mem_cons_self,
      ih fun a' ha' => h a' (List.mem_cons_of_mem a ha')]

/-- What is made of the elements of a list, if it is a function of them. -/
theorem mapM_eq_map {g : α → β} (h : ∀ a ∈ as, f a = .ok (g a)) : as.mapM f = .ok (as.map g) := by
  induction as with
  | nil => rfl
  | cons a as ih =>
    rw [List.mapM_cons, h a List.mem_cons_self, ih fun a' ha' => h a' (List.mem_cons_of_mem a ha')]
    rfl

/-- What is made of the elements of a list, if it is a function of them without a failure. -/
theorem eq_map_of_mapM {g : α → β} (hg : ∀ a ∈ as, ∀ b, f a = .ok b → b = g a)
    (h : as.mapM f = .ok bs) : bs = as.map g := by
  have heach := exists_mapM_iff.1 ⟨bs, h⟩
  have hmap : as.mapM f = .ok (as.map g) := mapM_eq_map fun a ha => by
    obtain ⟨b, hb⟩ := heach a ha
    rw [hb, hg a ha b hb]
  exact Except.ok.inj (h.symm.trans hmap)

/-- What all elements are made into is what each is made into. -/
theorem forall_of_mapM {b : β} (h : as.mapM f = .ok bs) (hb : ∀ b' ∈ bs, b' = b) :
    ∀ a ∈ as, f a = .ok b := by
  intro a ha
  obtain ⟨b', hb'⟩ := exists_mapM_iff.1 ⟨bs, h⟩ a ha
  have hbs : bs = as.map fun a => (f a).toOption.getD b := eq_map_of_mapM (fun a _ b hfa => by
    rw [hfa]
    rfl) h
  have hmade := hb _ (hbs ▸ List.mem_map_of_mem ha)
  rw [hb'] at hmade
  rw [hb', ← hmade]
  rfl

/-- If no element is made into nothing, each is made into one of the things that are made. -/
theorem forall₂_of_mapM {f : α → Except ε (Option β)} (hf : ∀ a, f a ≠ .ok none)
    {made : List (Option β)} (h : as.mapM f = .ok made) :
    List.Forall₂ (fun a b => f a = .ok (some b)) as made.reduceOption := by
  induction as generalizing made with
  | nil =>
    cases h
    exact .nil
  | cons a as ih =>
    rw [List.mapM_cons] at h
    obtain ⟨b, hb, h⟩ := exists_of_bind_eq_ok h
    obtain ⟨rest, hrest, h⟩ := exists_of_bind_eq_ok h
    cases h
    cases b with
    | none => exact absurd hb (hf a)
    | some b => exact .cons hb (ih hrest)

end ActionBundles
