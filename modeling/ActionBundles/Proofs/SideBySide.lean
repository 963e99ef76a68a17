import ActionBundles.Proofs.Effects

/-!
# Two runs side by side

Two actions are `Abreast` if, begun on disks that are in a relation, they end alike and leave disks
that are in the same relation again: both fail or both are done, with results that correspond. What
is made up of actions that are abreast is abreast itself, so a program has to be compared with
another only in its smallest steps.
-/

namespace ActionBundles

/-- Whether two attempts end alike: both fail, or both have results that correspond. -/
inductive EndAlike {ε ε' α α' : Type} (E : ε → ε' → Prop) (Q : α → α' → Prop) :
    Except ε α → Except ε' α' → Prop where
  | error {e : ε} {e' : ε'} (h : E e e') : EndAlike E Q (.error e) (.error e')
  | ok {x : α} {x' : α'} (h : Q x x') : EndAlike E Q (.ok x) (.ok x')

theorem EndAlike.mono {ε ε' α α' : Type} {E F : ε → ε' → Prop} {P Q : α → α' → Prop}
    {x : Except ε α} {y : Except ε' α'} (h : EndAlike E P x y) (hE : ∀ e e', E e e' → F e e')
    (hP : ∀ a a', P a a' → Q a a') : EndAlike F Q x y := by
  cases h with
  | error h => exact .error (hE _ _ h)
  | ok h => exact .ok (hP _ _ h)

/-- Two failures, whatever they are. -/
def AnyTwo {ε ε' : Type} (_ : ε) (_ : ε') : Prop := True

namespace Action

variable {ε ε' ε₁ ε₂ α α' β β' : Type} {R : Disk → Disk → Prop} {E : ε → ε' → Prop}
  {P : α → α' → Prop} {Q : β → β' → Prop}

/-- Whether two actions that begin on disks in the relation `R` end alike, and on disks in the
relation `R`. -/
def Abreast (R : Disk → Disk → Prop) (E : ε → ε' → Prop) (P : α → α' → Prop) (x : Action ε α)
    (y : Action ε' α') : Prop :=
  ∀ d d', R d d' → EndAlike E P (x.on d).1 (y.on d').1 ∧ R (x.on d).2 (y.on d').2

theorem abreast_pure {a : α} {a' : α'} (h : P a a') : Abreast R E P (pure a) (pure a') :=
  fun _ _ hR => ⟨.ok h, hR⟩

theorem abreast_throw {e : ε} {e' : ε'} (h : E e e') :
    Abreast R E P (throw e : Action ε α) (throw e') := fun _ _ hR => ⟨.error h, hR⟩

theorem abreast_ask {question : Disk → α} {question' : Disk → α'}
    (h : ∀ d d', R d d' → P (question d) (question' d')) :
    Abreast R E P (ask question) (ask question') := fun d d' hR => ⟨.ok (h d d' hR), hR⟩

theorem abreast_consult {question : Disk → Except ε α} {question' : Disk → Except ε' α'}
    (h : ∀ d d', R d d' → EndAlike E P (question d) (question' d')) :
    Abreast R E P (consult question) (consult question') := fun d d' hR => by
  rw [on_consult, on_consult]
  exact ⟨h d d' hR, hR⟩

theorem Abreast.bind {x : Action ε α} {y : Action ε' α'} {f : α → Action ε β}
    {g : α' → Action ε' β'} (hx : Abreast R E P x y)
    (hf : ∀ a a', P a a' → Abreast R E Q (f a) (g a')) :
    Abreast R E Q (x >>= f) (y >>= g) := fun d d' hR => by
  obtain ⟨hends, hR'⟩ := hx d d' hR
  rw [on_bind, on_bind]
  generalize x.on d = o at hends hR'
  generalize y.on d' = o' at hends hR'
  obtain ⟨o, d₁⟩ := o
  obtain ⟨o', d₁'⟩ := o'
  cases hends with
  | error h => exact ⟨.error h, hR'⟩
  | ok h => exact hf _ _ h d₁ d₁' hR'

theorem Abreast.attempt {F : ε₁ → ε₂ → Prop} {x : Action ε α} {y : Action ε' α'}
    (hx : Abreast R E P x y) : Abreast R F (EndAlike E P) x.attempt y.attempt :=
  fun d d' hR => ⟨.ok (hx d d' hR).1, (hx d d' hR).2⟩

theorem Abreast.within {E : OsError → OsError → Prop} {x : Action OsError α} {y : Action OsError α'}
    (hx : Abreast R E P x y) (work work' : Work) :
    Abreast R AnyTwo P (x.within work) (y.within work') := fun d d' hR => by
  obtain ⟨hends, hR'⟩ := hx d d' hR
  rw [on_within, on_within]
  refine ⟨?_, hR'⟩
  generalize (x.on d).1 = o at hends
  generalize (y.on d').1 = o' at hends
  cases hends with
  | error _ => exact .error trivial
  | ok h => exact .ok h

theorem Abreast.ite {c : Prop} [Decidable c] {x x' : Action ε α} {y y' : Action ε' α'}
    (h : Abreast R E P x y) (h' : Abreast R E P x' y') :
    Abreast R E P (if c then x else x') (if c then y else y') := by
  split
  · exact h
  · exact h'

theorem abreast_forM {γ γ' : Type} {S : γ → γ' → Prop} {l : List γ} {l' : List γ'}
    {f : γ → Action ε Unit} {g : γ' → Action ε' Unit} (hl : List.Forall₂ S l l')
    (hf : ∀ c c', S c c' → Abreast R E Eq (f c) (g c')) :
    Abreast R E Eq (l.forM f) (l'.forM g) := by
  induction hl with
  | nil => exact abreast_pure rfl
  | cons h _ ih => exact (hf _ _ h).bind fun _ _ _ => ih

end Action

namespace Disk

open ActionBundles.Action

variable {R : Disk → Disk → Prop} {p p' : Text}

theorem place_of_makeDirectory_notFound {d d₁ : Disk}
    (h : (makeDirectory p).on d = (.error .notFound, d₁)) : d.place p = .error .notFound := by
  rw [makeDirectory_on] at h
  split at h
  · next hplace =>
    cases h
    exact hplace
  · cases h
  · cases h

theorem settle_alike (hask : ∀ d d', R d d' → d'.isDirectory p' = d.isDirectory p) {d d' : Disk}
    (h : R d d') (e : OsError) :
    EndAlike Eq Eq (settle p e d).1 (settle p' e d').1 ∧ R (settle p e d).2 (settle p' e d').2 := by
  rw [settle, settle, hask d d' h]
  refine ⟨?_, h⟩
  split
  · exact .ok rfl
  · exact .error rfl

/-- Two directories are made abreast, if each attempt at making them is, and the ones that they lie
in are. -/
theorem abreast_makeDirectoriesWithin_succ {bound bound' : Nat}
    (hne : ∀ d d', R d d' → p ≠ [] ∧ p' ≠ [])
    (hmake : Abreast R Eq Eq (makeDirectory p) (makeDirectory p'))
    (hask : ∀ d d', R d d' → d'.isDirectory p' = d.isDirectory p)
    (habove : ∀ d d', R d d' → d.place p = .error .notFound →
      ∃ above above', Path.parent? p = some above ∧ Path.parent? p' = some above' ∧
        Abreast R Eq Eq (makeDirectoriesWithin bound above)
          (makeDirectoriesWithin bound' above')) :
    Abreast R Eq Eq (makeDirectoriesWithin (bound + 1) p)
      (makeDirectoriesWithin (bound' + 1) p') := fun d d' h => by
  have hmade := hmake d d' h
  have hmissing : ∀ d₁, (makeDirectory p).on d = (.error .notFound, d₁) →
      d.place p = .error .notFound := fun _ => place_of_makeDirectory_notFound
  rw [makeDirectoriesWithin_on bound (hne d d' h).1, makeDirectoriesWithin_on bound' (hne d d' h).2]
  generalize (makeDirectory p).on d = o at hmade hmissing
  generalize (makeDirectory p').on d' = o' at hmade
  obtain ⟨o, d₁⟩ := o
  obtain ⟨o', d₁'⟩ := o'
  obtain ⟨hends, h₁⟩ := hmade
  dsimp only at hends h₁ hmissing
  cases hends with
  | ok _ => exact ⟨.ok rfl, h₁⟩
  | @error e e' he =>
    obtain rfl : e = e' := he
    by_cases hnotFound : e = .notFound
    · -- the directories above are made first, and then there is another attempt
      subst hnotFound
      obtain ⟨above, above', hparent, hparent', hothers⟩ := habove d d' h (hmissing d₁ rfl)
      have hothers := hothers d₁ d₁' h₁
      rw [hparent, hparent']
      dsimp only
      generalize (makeDirectoriesWithin bound above).on d₁ = o at hothers
      generalize (makeDirectoriesWithin bound' above').on d₁' = o' at hothers
      obtain ⟨o, d₂⟩ := o
      obtain ⟨o', d₂'⟩ := o'
      obtain ⟨hends, h₂⟩ := hothers
      cases hends with
      | error he => exact ⟨.error he, h₂⟩
      | ok _ =>
        have hagain := hmake d₂ d₂' h₂
        dsimp only
        generalize (makeDirectory p).on d₂ = o at hagain
        generalize (makeDirectory p').on d₂' = o' at hagain
        obtain ⟨o, d₃⟩ := o
        obtain ⟨o', d₃'⟩ := o'
        obtain ⟨hends, h₃⟩ := hagain
        cases hends with
        | ok _ => exact ⟨.ok rfl, h₃⟩
        | @error e e' he =>
          obtain rfl : e = e' := he
          exact settle_alike hask h₃ e
    · have hsettle := settle_alike hask h₁ e
      cases e with
      | notFound => exact absurd rfl hnotFound
      | _ => exact hsettle

end Disk

end ActionBundles
