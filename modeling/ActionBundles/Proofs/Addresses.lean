import ActionBundles.Disk.Tree
import ActionBundles.Disk.Locate
import ActionBundles.Transaction
import Mathlib.Data.List.Basic

/-!
# Paths of addresses

Every path that the program makes up for its own files is the root of the project with names put
after it. Such a path is `Path.ofAddress a`, the absolute path of an address `a`, and what is asked
of paths (their steps, their parent, their last name, what comes after another path) is read off
the address.
-/

namespace ActionBundles

namespace Path

/-! ### Steps -/

/-- Whether a text is a single step of a path that leads down. -/
def isStep (n : Text) : Bool := n ≠ [] && n ≠ ['.'] && n ≠ ['.', '.'] && '/' ∉ n

theorem isStep_iff {n : Text} :
    isStep n = true ↔ n ≠ [] ∧ n ≠ ['.'] ∧ n ≠ ['.', '.'] ∧ '/' ∉ n := by
  simp [isStep, and_assoc]

theorem steps_append_slash (a b : Text) : steps (a ++ '/' :: b) = steps a ++ steps b := by
  rw [steps, List.splitOn_append_cons_self, List.filter_append]
  rfl

theorem steps_of_slash_not_mem {n : Text} (hne : n ≠ []) (hslash : '/' ∉ n) : steps n = [n] := by
  rw [steps, List.splitOn_eq_singleton hslash]
  simp [hne]

theorem steps_of_isStep {n : Text} (h : isStep n = true) : steps n = [n] :=
  steps_of_slash_not_mem (isStep_iff.1 h).1 (isStep_iff.1 h).2.2.2

theorem steps_join {ns : List Text} (h : ∀ n ∈ ns, isStep n = true) :
    steps (Text.join ['/'] ns) = ns := by
  cases ns with
  | nil => rfl
  | cons n ns =>
    rw [steps, Text.join, List.splitOn_intercalate _ (fun m hm => (isStep_iff.1 (h m hm)).2.2.2)
      (List.cons_ne_nil n ns), List.filter_eq_self]
    exact fun m hm => by simpa using (isStep_iff.1 (h m hm)).1

/-! ### Joining names -/

theorem join_slash_concat {ns : List Text} (n : Text) (h : ns ≠ []) :
    Text.join ['/'] (ns ++ [n]) = Text.join ['/'] ns ++ '/' :: n := by
  induction ns with
  | nil => exact absurd rfl h
  | cons m ns ih =>
    cases ns with
    | nil => simp [Text.join]
    | cons k ns =>
      have ih := ih (List.cons_ne_nil k ns)
      simp only [Text.join, List.cons_append] at ih ⊢
      rw [List.intercalate_cons_cons, List.intercalate_cons_cons, ih]
      simp

/-! ### The path of an address -/

/-- The absolute path of an address. -/
def ofAddress (a : Address) : Text := ofNames a.reverse

/-- Whether all names of an address are single steps. -/
def IsWay (a : Address) : Prop := ∀ n ∈ a, isStep n = true

theorem IsWay.tail {n : Text} {a : Address} (h : IsWay (n :: a)) : IsWay a :=
  fun m hm => h m (List.mem_cons_of_mem n hm)

theorem IsWay.cons {n : Text} {a : Address} (hn : isStep n = true) (h : IsWay a) :
    IsWay (n :: a) := List.forall_mem_cons.2 ⟨hn, h⟩

theorem IsWay.append {a b : Address} (ha : IsWay a) (hb : IsWay b) : IsWay (a ++ b) :=
  fun n hn => (List.mem_append.1 hn).elim (ha n) (hb n)

theorem IsWay.of_suffix {a b : Address} (h : IsWay b) (hs : a <:+ b) : IsWay a :=
  fun n hn => h n (hs.subset hn)

theorem ofAddress_cons {n : Text} {a : Address} (h : a ≠ []) :
    ofAddress (n :: a) = ofAddress a ++ '/' :: n := by
  rw [ofAddress, List.reverse_cons, ofNames, join_slash_concat n (by simpa using h)]
  rfl

theorem isAbsolute_ofAddress (a : Address) : isAbsolute (ofAddress a) = true := rfl

theorem ofAddress_ne_nil (a : Address) : ofAddress a ≠ [] := List.cons_ne_nil _ _

theorem steps_ofAddress {a : Address} (h : IsWay a) : steps (ofAddress a) = a.reverse := by
  rw [ofAddress, ofNames, ← List.nil_append ('/' :: _), steps_append_slash,
    steps_join fun n hn => h n (List.mem_reverse.1 hn)]
  rfl

/-- The path of an address ends with its first name, and so not with a slash. -/
theorem getLast?_ofAddress {n : Text} {a : Address} (h : isStep n = true) :
    (ofAddress (n :: a)).getLast? ≠ some '/' := by
  obtain ⟨hne, -, -, hslash⟩ := isStep_iff.1 h
  have hlast : ∀ before : Text, (before ++ '/' :: n).getLast? ≠ some '/' := fun before he => by
    obtain ⟨c, m, rfl⟩ := List.exists_cons_of_ne_nil hne
    rw [List.getLast?_append, List.getLast?_cons_cons, List.getLast?_eq_some_getLast hne,
      Option.some_or, Option.some.injEq] at he
    exact hslash (he ▸ List.getLast_mem hne)
  by_cases ha : a = []
  · subst ha
    have := hlast []
    simpa [ofAddress, ofNames, Text.join] using this
  · rw [ofAddress_cons ha]
    exact hlast _

theorem wantsDirectory_ofAddress {a : Address} (h : IsWay a) :
    wantsDirectory (ofAddress a) = false := by
  cases a with
  | nil => rfl
  | cons n a => simp [wantsDirectory, getLast?_ofAddress (h n (by simp))]

theorem nul_not_mem_ofAddress {a : Address} :
    '\x00' ∉ ofAddress a ↔ ∀ n ∈ a, '\x00' ∉ n := by
  induction a with
  | nil => simp [ofAddress, ofNames, Text.join]
  | cons n a ih =>
    by_cases ha : a = []
    · subst ha
      simp [ofAddress, ofNames, Text.join]
    · rw [ofAddress_cons ha]
      simp only [List.mem_append, List.mem_cons, not_or, forall_eq_or_imp, ih]
      constructor
      · rintro ⟨h, -, hn⟩
        exact ⟨hn, h⟩
      · rintro ⟨hn, h⟩
        exact ⟨h, by decide, hn⟩

theorem isAbsolute_of_isStep {n : Text} (h : isStep n = true) : isAbsolute n = false := by
  obtain ⟨hne, -, -, hslash⟩ := isStep_iff.1 h
  obtain ⟨c, m, rfl⟩ := List.exists_cons_of_ne_nil hne
  simp only [isAbsolute, List.head?_cons, decide_eq_false_iff_not, Option.some.injEq]
  rintro rfl
  exact hslash (by simp)

/-- A relative path put after the path of an address. -/
theorem join_relative {m rel : Text} {a : Address} (hm : isStep m = true)
    (hrel : isAbsolute rel = false) :
    join (ofAddress (m :: a)) rel = ofAddress (m :: a) ++ '/' :: rel := by
  have hlast := getLast?_ofAddress (a := a) hm
  rw [join, hrel]
  simp [hlast, ofAddress_ne_nil]

/-- A name put after the path of an address. -/
theorem join_ofAddress {n : Text} {a : Address} (ha : IsWay a) (hn : isStep n = true) :
    join (ofAddress a) n = ofAddress (n :: a) := by
  cases a with
  | nil => simp [join, isAbsolute_of_isStep hn, ofAddress, ofNames, Text.join]
  | cons m a =>
    have hlast := getLast?_ofAddress (a := a) (ha m (by simp))
    rw [join, isAbsolute_of_isStep hn, ofAddress_cons (List.cons_ne_nil m a)]
    simp [hlast, ofAddress_ne_nil]

/-- What is joined to a path is joined from its front. -/
theorem join_append {base rel more : Text} (h : rel ≠ []) :
    join base (rel ++ more) = join base rel ++ more := by
  obtain ⟨c, rel, rfl⟩ := List.exists_cons_of_ne_nil h
  have habs : isAbsolute (c :: rel ++ more) = isAbsolute (c :: rel) := rfl
  rw [join, join, habs]
  split
  · rfl
  · split <;> simp

/-- The path of an address as it is seen from a directory that it lies in. -/
def ofRelative (b : Address) : Text := Text.join ['/'] b.reverse

theorem ofRelative_cons {n : Text} {b : Address} (h : b ≠ []) :
    ofRelative (n :: b) = ofRelative b ++ '/' :: n := by
  rw [ofRelative, List.reverse_cons, join_slash_concat n (by simpa using h)]
  rfl

theorem ofRelative_singleton (n : Text) : ofRelative [n] = n := by simp [ofRelative, Text.join]

theorem ofRelative_ne_nil {b : Address} (hb : IsWay b) (hne : b ≠ []) : ofRelative b ≠ [] := by
  obtain ⟨n, b, rfl⟩ := List.exists_cons_of_ne_nil hne
  by_cases h : b = []
  · subst h
    rw [ofRelative_singleton]
    exact (isStep_iff.1 (hb n (by simp))).1
  · rw [ofRelative_cons h]
    simp

/-- Names put after the path of an address. -/
theorem join_ofRelative {a b : Address} (ha : IsWay a) (hb : IsWay b) (hne : b ≠ []) :
    join (ofAddress a) (ofRelative b) = ofAddress (b ++ a) := by
  induction b with
  | nil => exact absurd rfl hne
  | cons n b ih =>
    by_cases h : b = []
    · subst h
      rw [ofRelative_singleton]
      exact join_ofAddress ha (hb n (by simp))
    · rw [ofRelative_cons h, join_append (ofRelative_ne_nil hb.tail h), ih hb.tail h,
        List.cons_append, ofAddress_cons (by simp [h])]

/-! ### Components, parents and last names -/

theorem splitOn_ofAddress {a : Address} (h : IsWay a) (hne : a ≠ []) :
    (ofAddress a).splitOn '/' = [] :: a.reverse := by
  rw [ofAddress, ofNames, ← List.nil_append ('/' :: _), List.splitOn_append_cons_self, Text.join,
    List.splitOn_intercalate _ (fun n hn => (isStep_iff.1 (h n (List.mem_reverse.1 hn))).2.2.2)
      (by simpa using hne)]
  rfl

theorem ofPiece?_of_isStep {n : Text} (h : isStep n = true) : ofPiece? n = some (.name n) := by
  obtain ⟨h1, h2, h3, -⟩ := isStep_iff.1 h
  simp [ofPiece?, h1, h2, h3]

theorem components_ofAddress {a : Address} (h : IsWay a) :
    components (ofAddress a) = .root :: a.reverse.map .name := by
  have hpieces : ∀ ns : List Text, (∀ n ∈ ns, isStep n = true) →
      ns.filterMap ofPiece? = ns.map .name := fun ns hns => by
    induction ns with
    | nil => rfl
    | cons n ns ih =>
      rw [List.filterMap_cons, ofPiece?_of_isStep (hns n (by simp)),
        ih fun m hm => hns m (by simp [hm]), List.map_cons]
  by_cases hne : a = []
  · subst hne
    rfl
  · rw [components, splitOn_ofAddress h hne, isAbsolute_ofAddress]
    simp only [↓reduceIte, List.cons.injEq, true_and]
    rw [List.filterMap_cons_none rfl]
    exact hpieces _ fun n hn => h n (List.mem_reverse.1 hn)

theorem getLast?_components_ofAddress {n : Text} {a : Address} (h : IsWay (n :: a)) :
    (components (ofAddress (n :: a))).getLast? = some (.name n) := by
  rw [components_ofAddress h, List.reverse_cons, List.map_append, List.map_singleton,
    ← List.cons_append, List.getLast?_concat]

theorem fileName?_ofAddress {n : Text} {a : Address} (h : IsWay (n :: a)) :
    fileName? (ofAddress (n :: a)) = some n := by
  rw [fileName?, getLast?_components_ofAddress h]

theorem parent?_ofAddress {n : Text} {a : Address} (h : IsWay (n :: a)) :
    parent? (ofAddress (n :: a)) = some (ofAddress a) := by
  have hsome : ∀ {m : Text}, isStep m = true → (ofPiece? m).isSome = true := fun hm => by
    rw [ofPiece?_of_isStep hm]
    rfl
  rw [parent?, getLast?_components_ofAddress h, splitOn_ofAddress h (List.cons_ne_nil n a)]
  simp only [List.reverse_cons, List.reverse_append, List.reverse_reverse, List.reverse_nil,
    List.nil_append, List.cons_append]
  rw [dropMeaningless, if_pos (hsome (h n (by simp))), List.tail_cons]
  cases a with
  | nil => rfl
  | cons m a =>
    rw [List.cons_append, dropMeaningless, if_pos (hsome (h m (by simp)))]
    have hjoin : Text.join ['/'] (m :: (a ++ [[]])).reverse = ofAddress (m :: a) := by
      rw [show (m :: (a ++ [[]])).reverse = [] :: (m :: a).reverse by simp, ofAddress, ofNames,
        Text.join, List.intercalate_cons_of_ne_nil (by simp)]
      rfl
    exact congrArg some hjoin

theorem after?_ofAddress {a b : Address} (ha : IsWay a) (hb : IsWay b) :
    after? (ofAddress a) (ofAddress (b ++ a)) = some (b.reverse.map .name) := by
  rw [after?, components_ofAddress ha, components_ofAddress (hb.append ha), List.reverse_append,
    List.map_append, ← List.cons_append, List.isPrefixOf?_eq_some_iff_append_eq]

end Path

theorem isName_iff {n : Text} :
    isName n = true ↔ Path.isStep n = true ∧ '\x00' ∉ n ∧ n.byteLength ≤ maxNameLength := by
  simp [isName, Path.isStep, and_assoc]

theorem isStep_of_isName {n : Text} (h : isName n = true) : Path.isStep n = true :=
  (isName_iff.1 h).1

theorem Transaction.below_ofAddress {a b : Address} (ha : Path.IsWay a) (hb : Path.IsWay b) :
    Transaction.below (Path.ofAddress a) (Path.ofAddress (b ++ a)) = Path.ofRelative b := by
  rw [Transaction.below, Path.after?_ofAddress ha hb, Option.getD_some]
  refine congrArg (Text.join ['/']) ?_
  induction b.reverse with
  | nil => rfl
  | cons n ns ih => exact congrArg (n :: ·) ih

end ActionBundles
