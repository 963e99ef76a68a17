/-!
# Dictionaries in key order

A dictionary lists its entries in strictly increasing key order. The list is all there is, so two
dictionaries with the same entries are equal, and going through one always follows the keys.

Each operation has one lemma on what `get?` finds afterwards (`get?_insert`, `get?_erase`,
`get?_modify`, `get?_filterKeys`), and `ext_get?` says that `get?` determines the dictionary.
-/

namespace ActionBundles

universe u v

/-- Entries in strictly increasing key order. -/
structure Dict (κ : Type u) (υ : Type v) [Ord κ] where
  /-- The entries, smallest key first. -/
  toList : List (κ × υ)
  /-- The keys strictly increase. -/
  sorted : toList.Pairwise fun a b => compare a.1 b.1 = .lt

namespace Dict

variable {κ : Type u} {υ : Type v} [Ord κ]

instance [DecidableEq κ] [DecidableEq υ] : DecidableEq (Dict κ υ) := fun a b =>
  if h : a.toList = b.toList then .isTrue (by cases a; cases b; cases h; rfl)
  else .isFalse fun e => h (e ▸ rfl)

/-- The dictionary without entries. -/
def empty : Dict κ υ := ⟨[], .nil⟩

instance : Inhabited (Dict κ υ) := ⟨empty⟩

/-! ### Looking up -/

/-- The value under a key in a list of entries. -/
def lookup (k : κ) : List (κ × υ) → Option υ
  | [] => none
  | (k', v) :: rest => if compare k k' = .eq then some v else lookup k rest

/-- The value under a key. -/
def get? (d : Dict κ υ) (k : κ) : Option υ := lookup k d.toList

/-- Whether the key has a value. -/
def contains (d : Dict κ υ) (k : κ) : Bool := (d.get? k).isSome

/-- The keys, in order. -/
def keys (d : Dict κ υ) : List κ := d.toList.map (·.1)

/-- The values, in the order of their keys. -/
def values (d : Dict κ υ) : List υ := d.toList.map (·.2)

/-- The number of entries. -/
def size (d : Dict κ υ) : Nat := d.toList.length

/-! ### Changing -/

/-- Puts a value under a key, in place of the value that was there. -/
def insertEntry (k : κ) (v : υ) : List (κ × υ) → List (κ × υ)
  | [] => [(k, v)]
  | (k', v') :: rest =>
    match compare k k' with
    | .lt => (k, v) :: (k', v') :: rest
    | .eq => (k, v) :: rest
    | .gt => (k', v') :: insertEntry k v rest

theorem mem_insertEntry {k : κ} {v : υ} {e : κ × υ} {l : List (κ × υ)}
    (h : e ∈ insertEntry k v l) : e = (k, v) ∨ e ∈ l := by
  induction l with
  | nil => simpa [insertEntry] using h
  | cons head rest ih =>
    obtain ⟨k', v'⟩ := head
    rw [insertEntry] at h
    split at h <;> grind

theorem pairwise_insertEntry [Std.TransOrd κ] {l : List (κ × υ)} (k : κ) (v : υ)
    (h : l.Pairwise fun a b => compare a.1 b.1 = .lt) :
    (insertEntry k v l).Pairwise fun a b => compare a.1 b.1 = .lt := by
  induction l with
  | nil => simp [insertEntry]
  | cons head rest ih =>
    obtain ⟨k', v'⟩ := head
    have hrest := List.pairwise_cons.1 h
    rw [insertEntry]
    split
    · next hlt =>
      refine List.pairwise_cons.2 ⟨fun e he => ?_, h⟩
      rcases List.mem_cons.1 he with rfl | he
      · exact hlt
      · exact Std.TransCmp.lt_trans hlt (hrest.1 e he)
    · next heq =>
      exact List.pairwise_cons.2
        ⟨fun e he => Std.TransCmp.lt_of_eq_of_lt heq (hrest.1 e he), hrest.2⟩
    · next hgt =>
      refine List.pairwise_cons.2 ⟨fun e he => ?_, ih hrest.2⟩
      rcases mem_insertEntry he with rfl | he
      · exact Std.OrientedCmp.gt_iff_lt.1 hgt
      · exact hrest.1 e he

/-- Puts a value under a key, in place of the value that was there. -/
def insert [Std.TransOrd κ] (d : Dict κ υ) (k : κ) (v : υ) : Dict κ υ :=
  ⟨insertEntry k v d.toList, pairwise_insertEntry k v d.sorted⟩

/-- Keeps the entries whose key satisfies `p`. -/
def filterKeys (d : Dict κ υ) (p : κ → Bool) : Dict κ υ :=
  ⟨d.toList.filter fun e => p e.1, d.sorted.filter _⟩

/-- Takes a key and its value out. -/
def erase (d : Dict κ υ) (k : κ) : Dict κ υ := d.filterKeys fun k' => compare k k' != .eq

/-- The dictionary of a list of entries; of two values under one key the later counts. -/
def ofList [Std.TransOrd κ] (entries : List (κ × υ)) : Dict κ υ :=
  entries.foldl (fun d e => d.insert e.1 e.2) empty

/-- Changes the value under a key, if there is one. -/
def modify (d : Dict κ υ) (k : κ) (f : υ → υ) : Dict κ υ :=
  ⟨d.toList.map fun e => if compare k e.1 = .eq then (e.1, f e.2) else e,
    List.pairwise_map.2 (d.sorted.imp fun {a b} h => by split <;> split <;> exact h)⟩

/-! ### What is found afterwards -/

@[simp] theorem get?_empty (k : κ) : (empty : Dict κ υ).get? k = none := rfl

theorem lookup_eq_none_of_lt {k : κ} {l : List (κ × υ)} (h : ∀ e ∈ l, compare k e.1 = .lt) :
    lookup k l = none := by
  induction l with
  | nil => rfl
  | cons head rest ih =>
    have hhead := h head (by simp)
    simp only [lookup, hhead, reduceCtorEq, ↓reduceIte]
    exact ih fun e he => h e (by simp [he])

theorem mem_toList_iff [Std.LawfulEqOrd κ] {d : Dict κ υ} {k : κ} {v : υ} :
    (k, v) ∈ d.toList ↔ d.get? k = some v := by
  obtain ⟨l, sorted⟩ := d
  simp only [get?]
  induction l with
  | nil => simp [lookup]
  | cons head rest ih =>
    obtain ⟨k₀, v₀⟩ := head
    have hs := List.pairwise_cons.1 sorted
    have ih := ih hs.2
    simp only [List.mem_cons, Prod.mk.injEq, lookup]
    split
    · next heq =>
      obtain rfl := Std.LawfulEqOrd.eq_of_compare heq
      have hnone : lookup k rest = none := lookup_eq_none_of_lt hs.1
      rw [hnone] at ih
      simp only [reduceCtorEq, iff_false] at ih
      simp [ih, eq_comm]
    · next hne =>
      have : k ≠ k₀ := fun e => hne (e ▸ Std.ReflOrd.compare_self)
      simp [this, ih]

/-- The entry of a key among those of the other keys. -/
theorem exists_toList_eq [Std.LawfulEqOrd κ] {d : Dict κ υ} {k : κ} {v : υ}
    (h : d.get? k = some v) : ∃ before after,
      d.toList = before ++ (k, v) :: after ∧ ∀ e ∈ before ++ after, e.1 ≠ k := by
  obtain ⟨before, after, heq⟩ := List.append_of_mem (mem_toList_iff.2 h)
  refine ⟨before, after, heq, fun e he hk => ?_⟩
  have hirreflexive : ∀ a b : κ, compare a b = .lt → a ≠ b := fun a b hlt hab => by
    rw [hab, Std.ReflOrd.compare_self] at hlt
    cases hlt
  have hsorted := d.sorted
  rw [heq, List.pairwise_append, List.pairwise_cons] at hsorted
  rcases List.mem_append.1 he with he | he
  · exact hirreflexive _ _ (hsorted.2.2 e he _ List.mem_cons_self) hk
  · exact hirreflexive _ _ (hsorted.2.1.1 e he) hk.symm

@[grind =] theorem get?_filterKeys [Std.LawfulEqOrd κ] (d : Dict κ υ) (p : κ → Bool) (k : κ) :
    (d.filterKeys p).get? k = if p k then d.get? k else none := by
  refine Option.ext fun v => ?_
  rw [← mem_toList_iff]
  show (k, v) ∈ d.toList.filter (fun e => p e.1) ↔ _
  rw [List.mem_filter, mem_toList_iff]
  split <;> simp_all

/-- After changing the value under `k`, a key equal to `k` finds it changed. -/
@[grind =] theorem get?_modify [Std.LawfulEqOrd κ] (d : Dict κ υ) (k k' : κ) (f : υ → υ) :
    (d.modify k f).get? k' =
      if compare k k' = .eq then (d.get? k').map f else d.get? k' := by
  obtain ⟨l, sorted⟩ := d
  simp only [modify, get?]
  clear sorted
  induction l with
  | nil => simp [lookup]
  | cons head rest ih =>
    obtain ⟨k₀, v₀⟩ := head
    simp only [List.map_cons, lookup]
    by_cases h : compare k k₀ = .eq
    · obtain rfl := Std.LawfulEqOrd.eq_of_compare h
      by_cases h' : compare k' k = .eq
      · obtain rfl := Std.LawfulEqOrd.eq_of_compare h'
        simp
      · simp [h', ih]
    · by_cases h' : compare k' k₀ = .eq
      · obtain rfl := Std.LawfulEqOrd.eq_of_compare h'
        simp [h]
      · simp [h, h', ih]

section Lemmas

variable [Std.TransOrd κ]

theorem lookup_insertEntry (k k' : κ) (v : υ) (l : List (κ × υ)) :
    lookup k' (insertEntry k v l) = if compare k' k = .eq then some v else lookup k' l := by
  induction l with
  | nil => simp [insertEntry, lookup]
  | cons head rest ih =>
    obtain ⟨k₀, v₀⟩ := head
    rw [insertEntry]
    split
    · rfl
    · next heq =>
      have : compare k' k = compare k' k₀ := Std.TransCmp.congr_right heq
      grind [lookup]
    · next hgt =>
      simp only [lookup, ih]
      split
      · next h =>
        have : compare k' k = compare k₀ k := Std.TransCmp.congr_left h
        rw [this, Std.OrientedCmp.gt_iff_lt.1 hgt]
        simp
      · rfl

/-- After putting a value under `k`, a key equal to `k` finds it and the others find what they
found before. -/
@[grind =] theorem get?_insert (d : Dict κ υ) (k k' : κ) (v : υ) :
    (d.insert k v).get? k' = if compare k' k = .eq then some v else d.get? k' :=
  lookup_insertEntry k k' v d.toList

@[grind =] theorem get?_erase [Std.LawfulEqOrd κ] (d : Dict κ υ) (k k' : κ) :
    (d.erase k).get? k' = if compare k' k = .eq then none else d.get? k' := by
  have : compare k' k = .eq ↔ compare k k' = .eq := Std.OrientedCmp.eq_comm
  rw [erase, get?_filterKeys]
  by_cases h : compare k k' = .eq <;> simp [h, this]

/-- Two dictionaries that find the same values are equal. -/
theorem ext_get? [Std.LawfulEqOrd κ] {d₁ d₂ : Dict κ υ} (h : ∀ k, d₁.get? k = d₂.get? k) :
    d₁ = d₂ := by
  have hmem : ∀ e, e ∈ d₁.toList ↔ e ∈ d₂.toList := fun e => by
    rw [mem_toList_iff (d := d₁), mem_toList_iff (d := d₂), h]
  obtain ⟨l₁, s₁⟩ := d₁
  obtain ⟨l₂, s₂⟩ := d₂
  have irreflexive : ∀ l : List (κ × υ), l.Pairwise (fun a b => compare a.1 b.1 = .lt) →
      l.Nodup := fun l s => s.imp fun {a b} hab e => by
    subst e
    rw [Std.ReflOrd.compare_self] at hab
    cases hab
  have hperm : l₁.Perm l₂ :=
    (List.perm_ext_iff_of_nodup (irreflexive _ s₁) (irreflexive _ s₂)).2 hmem
  have : l₁ = l₂ := hperm.eq_of_pairwise
    (fun a b _ _ hab hba => by
      have := Std.TransCmp.lt_trans hab hba
      rw [Std.ReflOrd.compare_self] at this
      cases this) s₁ s₂
  subst this
  rfl

end Lemmas

end Dict

end ActionBundles
