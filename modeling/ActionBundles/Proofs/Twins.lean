import ActionBundles.Proofs.Alike
import ActionBundles.Proofs.Changes
import Mathlib.Logic.Equiv.Basic

/-!
# Paths that correspond

Two transactions of a project differ in the names of their directories. `Address.exchange` is the
renaming that takes the one for the other, and two paths are twins (`Path.Twin`) if they lead alike
through entries that it takes to each other: paths elsewhere, and paths that go on in the same way
from the two directories. The directories of twin paths are twins again (`Path.parent?_within`).
-/

namespace ActionBundles

/-! ### Two names exchanged -/

/-- Exchanges the names of two entries of a directory. -/
def Address.exchange (above : Address) (n n' : Text) : Address → Address
  | [] => []
  | name :: dir =>
    (if dir = above then Equiv.swap n n' name else name) :: Address.exchange above n n' dir

namespace Address

variable {above x dir : Address} {n n' : Text}

theorem length_exchange (x : Address) : (exchange above n n' x).length = x.length := by
  induction x with
  | nil => rfl
  | cons name dir ih => rw [exchange, List.length_cons, List.length_cons, ih]

theorem exchange_of_length (h : x.length ≤ above.length) : exchange above n n' x = x := by
  induction x with
  | nil => rfl
  | cons name dir ih =>
    rw [List.length_cons] at h
    have hne : dir ≠ above := fun he => by
      rw [he] at h
      omega
    rw [exchange, if_neg hne, ih (by omega)]

theorem exchange_above : exchange above n n' above = above := exchange_of_length (le_refl _)

theorem exchange_eq_above_iff : exchange above n n' dir = above ↔ dir = above := by
  refine ⟨fun h => ?_, fun h => h ▸ exchange_above⟩
  have hlength := congrArg List.length h
  rw [length_exchange] at hlength
  rwa [exchange_of_length hlength.le] at h

theorem exchange_own (b : Address) : exchange above n n' (b ++ n :: above) = b ++ n' :: above := by
  induction b with
  | nil => rw [List.nil_append, exchange, if_pos rfl, Equiv.swap_apply_left, exchange_above]; rfl
  | cons m b ih =>
    have hne : b ++ n :: above ≠ above := fun he => by
      have hlength := congrArg List.length he
      simp only [List.length_append, List.length_cons] at hlength
      omega
    rw [List.cons_append, exchange, if_neg hne, ih]
    rfl

theorem exchange_of_not_suffix (h : ¬ n :: above <:+ x) (h' : ¬ n' :: above <:+ x) :
    exchange above n n' x = x := by
  induction x with
  | nil => rfl
  | cons name dir ih =>
    have hdir := ih (fun hs => h (hs.trans (List.suffix_cons _ _))) fun hs =>
      h' (hs.trans (List.suffix_cons _ _))
    rw [exchange, hdir]
    split
    · next he =>
      have hne : name ≠ n ∧ name ≠ n' := by
        constructor <;> rintro rfl
        · exact h (he ▸ List.suffix_refl _)
        · exact h' (he ▸ List.suffix_refl _)
      rw [Equiv.swap_apply_of_ne_of_ne hne.1 hne.2]
    · rfl

theorem renaming_exchange (hn : isName n = true) (hn' : isName n' = true) :
    Renaming (exchange above n n') where
  tail x := by
    cases x with
    | nil => rfl
    | cons name dir => rfl
  self x := by
    induction x with
    | nil => rfl
    | cons name dir ih =>
      rw [exchange, exchange, ih]
      simp only [exchange_eq_above_iff]
      split
      · rw [Equiv.swap_apply_self]
      · rfl
  isName k dir k' dir' h hk := by
    rw [exchange] at h
    obtain ⟨rfl, -⟩ := List.cons.inj h
    split
    · by_cases he : k = n
      · rw [he, Equiv.swap_apply_left]
        exact hn'
      by_cases he' : k = n'
      · rw [he', Equiv.swap_apply_right]
        exact hn
      · rw [Equiv.swap_apply_of_ne_of_ne he he']
        exact hk
    · exact hk

/-- Steps that stay in an entry lead to the same names after an exchange of its own name. -/
theorem passes_own {b : Address} {steps : List Text}
    (h : Path.staysBelow b.length steps = true) :
    Path.Passes (exchange above n n') (b ++ n :: above) steps := by
  have hstays := Path.staysIn_of_staysBelow h
  clear h
  induction hstays with
  | nil => trivial
  | dot _ ih =>
    rw [Path.Passes, if_pos rfl]
    exact ih
  | up _ ih =>
    rw [Path.Passes, if_neg (by decide), if_pos rfl]
    exact ih
  | @down m b rest hdot hdots _ ih =>
    rw [Path.Passes, if_neg hdot, if_neg hdots]
    refine ⟨?_, ih⟩
    rw [exchange_own, ← List.cons_append, exchange_own]
    rfl

end Address

/-- To exchange two names that are free makes no difference to which trees are alike. -/
theorem Tree.alike_exchange_iff {t t' : Tree} {above : Address} {n n' : Text}
    (hn : isName n = true) (hn' : isName n' = true) (hnone : t.get? (n :: above) = none)
    (hnone' : t.get? (n' :: above) = none) :
    t.Alike (Address.exchange above n n') t' ↔ t.Alike id t' := by
  have hf : Renaming (Address.exchange above n n') := Address.renaming_exchange hn hn'
  have hfree : ∀ {k : Text}, t.get? (k :: above) = none → ∀ b, t.get? (b ++ k :: above) = none :=
    fun {k} hk b => by
      cases b with
      | nil => exact hk
      | cons m b => exact Tree.get?_eq_none_of_append (by simp [hk]) (List.cons_ne_nil m b)
  have hcases : ∀ x, Address.exchange above n n' x = x ∨
      t.get? x = none ∧ t.get? (Address.exchange above n n' x) = none := fun x => by
    by_cases hx : n :: above <:+ x
    · obtain ⟨b, rfl⟩ := hx
      rw [Address.exchange_own]
      exact .inr ⟨hfree hnone b, hfree hnone' b⟩
    by_cases hx' : n' :: above <:+ x
    · obtain ⟨b, rfl⟩ := hx'
      have hback := hf.self (b ++ n :: above)
      rw [Address.exchange_own] at hback
      rw [hback]
      exact .inr ⟨hfree hnone' b, hfree hnone b⟩
    · exact .inl (Address.exchange_of_not_suffix hx hx')
  refine ⟨fun h x => ?_, fun h x => ?_⟩
  · rcases hcases x with hx | ⟨hx, hfx⟩
    · have hrel := h x
      rwa [hx] at hrel
    · have hthere := (h.none_iff (Address.exchange above n n' x)).2 hfx
      rw [hf.self] at hthere
      rw [id_eq, hx, hthere]
      exact .none
  · rcases hcases x with hx | ⟨hx, hfx⟩
    · rw [hx]
      exact h x
    · have hthere : t'.get? (Address.exchange above n n' x) = none := (h.none_iff _).2 hfx
      rw [hx, hthere]
      exact .none

/-! ### Twin paths -/

namespace Path

variable {f : Address → Address} {a base y : Address} {p p' rest : Text}

/-- Whether two paths lead alike through entries that correspond: both are the path of an entry
that keeps its name, or both go on in the same way from the entry at `base`. -/
inductive Twin (f : Address → Address) (a base : Address) : Text → Text → Prop where
  | fixed {y : Address} (hway : IsWay y) (hin : a <:+ y) (hy : f y = y) :
      Twin f a base (ofAddress y) (ofAddress y)
  | within {rest : Text} (hne : base ≠ []) (hrest : rest = [] ∨ rest.head? = some '/')
      (hstays : staysBelow 0 (steps rest) = true) (hpass : Passes f base (steps rest)) :
      Twin f a base (ofAddress base ++ rest) (ofAddress (f base) ++ rest)

/-- Steps one after another lead through entries that keep their names if both parts do. -/
theorem passes_append {dir : Address} {ms more : List Text} :
    Passes f dir (ms ++ more) ↔ Passes f dir ms ∧ Passes f (landing dir ms) more := by
  induction ms generalizing dir with
  | nil => exact ⟨fun h => ⟨trivial, h⟩, fun h => h.2⟩
  | cons step ms ih =>
    rw [List.cons_append, Passes, Passes, landing]
    split
    · exact ih
    split
    · exact ih
    · rw [ih, and_assoc]

theorem passes_dot {dir : Address} {ms : List Text} (h : Passes f dir ms) :
    Passes f dir (ms ++ [['.']]) := passes_append.2 ⟨h, trivial⟩

theorem passes_of_append {dir : Address} {ms more : List Text} (h : Passes f dir (ms ++ more)) :
    Passes f dir ms := (passes_append.1 h).1

/-- A name after steps that lead through entries that keep their names is such an entry. -/
theorem passes_concat {dir : Address} {ms : List Text} {n : Text} (h : Passes f dir (ms ++ [n]))
    (hn : isStep n = true) : f (n :: landing dir ms) = n :: f (landing dir ms) := by
  obtain ⟨-, hdot, hdots, -⟩ := isStep_iff.1 hn
  have hlast := (passes_append.1 h).2
  rw [Passes, if_neg hdot, if_neg hdots] at hlast
  exact hlast.1

/-- The names of an entry that keeps its name lead through such entries. -/
theorem passes_of_fixed (hf : Renaming f) {ms : List Text} {dir : Address}
    (hms : ∀ m ∈ ms, isStep m = true) (hy : f (ms.reverse ++ dir) = ms.reverse ++ dir) :
    Passes f dir ms := by
  induction ms generalizing dir with
  | nil => trivial
  | cons m ms ih =>
    obtain ⟨-, hdot, hdots, -⟩ := isStep_iff.1 (hms m (by simp))
    rw [List.reverse_cons, List.append_assoc] at hy
    have hdir : f dir = dir := hf.eq_of_suffix hy
      ((List.suffix_cons m dir).trans (List.suffix_append _ _))
    have hm : f (m :: dir) = m :: dir := hf.eq_of_suffix hy (List.suffix_append _ _)
    rw [Passes, if_neg hdot, if_neg hdots, hm, hdir]
    exact ⟨rfl, ih (fun k hk => hms k (List.mem_cons_of_mem m hk)) hy⟩

theorem steps_within (hway : IsWay base) (hrest : rest = [] ∨ rest.head? = some '/') :
    steps (ofAddress base ++ rest) = base.reverse ++ steps rest := by
  rcases hrest with rfl | hrest
  · rw [List.append_nil, steps_ofAddress hway]
    simp [steps]
  · cases rest with
    | nil => cases hrest
    | cons c rest =>
      obtain rfl : c = '/' := by simpa using hrest
      have hslash : steps ('/' :: rest) = steps rest := steps_append_slash [] rest
      rw [steps_append_slash, steps_ofAddress hway, hslash]

theorem wantsDirectory_within (hway : IsWay base) (hne : base ≠ [])
    (hrest : rest = [] ∨ rest.head? = some '/') :
    wantsDirectory (ofAddress base ++ rest) = decide (rest.getLast? = some '/') := by
  by_cases hnil : rest = []
  · rw [hnil, List.append_nil, wantsDirectory_ofAddress hway]
    rfl
  · have hlast : (ofAddress base ++ rest).getLast? = rest.getLast? :=
      List.getLast?_append_of_ne_nil _ hnil
    have hsteps : steps (ofAddress base ++ rest) ≠ [] := by
      rw [steps_within hway hrest]
      simp [hne]
    rw [wantsDirectory, hlast]
    simp [hsteps]

end Path

/-! ### The directory of a twin path -/

namespace Path

variable {f : Address → Address} {base base' : Address} {rest : Text}

theorem dropMeaningless_append (xs zs : List Text) :
    dropMeaningless (xs ++ zs) =
      if dropMeaningless xs = [] then dropMeaningless zs else dropMeaningless xs ++ zs := by
  induction xs with
  | nil => simp [dropMeaningless]
  | cons x xs ih =>
    rw [List.cons_append, dropMeaningless, dropMeaningless]
    split
    · simp
    · exact ih

theorem dropMeaningless_ne_nil {pieces : List Text} {piece : Text} (hmem : piece ∈ pieces)
    (h : (ofPiece? piece).isSome = true) : dropMeaningless pieces ≠ [] := by
  induction pieces with
  | nil => cases hmem
  | cons p pieces ih =>
    rw [dropMeaningless]
    split
    · simp
    · next hnone =>
      rcases List.mem_cons.1 hmem with rfl | hmem
      · exact absurd h hnone
      · exact ih hmem

theorem dropMeaningless_base (hway : IsWay base) (hne : base ≠ []) :
    dropMeaningless (base ++ [[]]) = base ++ [[]] := by
  obtain ⟨n, base, rfl⟩ := List.exists_cons_of_ne_nil hne
  rw [List.cons_append, dropMeaningless, ofPiece?_of_isStep (hway n List.mem_cons_self)]
  rfl

theorem join_slash_append {ns ms : List Text} (hns : ns ≠ []) (hms : ms ≠ []) :
    Text.join ['/'] (ns ++ ms) = Text.join ['/'] ns ++ '/' :: Text.join ['/'] ms := by
  induction ns with
  | nil => exact absurd rfl hns
  | cons n ns ih =>
    by_cases hnil : ns = []
    · subst hnil
      rw [List.singleton_append, Text.join, List.intercalate_cons_of_ne_nil hms]
      simp [Text.join]
    · have ih := ih hnil
      simp only [Text.join, List.cons_append] at ih ⊢
      rw [List.intercalate_cons_of_ne_nil (List.append_ne_nil_of_left_ne_nil hnil ms),
        List.intercalate_cons_of_ne_nil hnil, ih]
      simp

/-- The text that a path goes on with: the pieces, with a slash before each of them. -/
def onward (pieces : List Text) : Text :=
  if pieces = [] then [] else '/' :: Text.join ['/'] pieces

theorem onward_slash (pieces : List Text) :
    onward pieces = [] ∨ (onward pieces).head? = some '/' := by
  rw [onward]
  split
  · exact .inl rfl
  · exact .inr rfl

theorem steps_onward {pieces : List Text} (h : ∀ p ∈ pieces, '/' ∉ p) :
    steps (onward pieces) = pieces.filter (· ≠ []) := by
  rw [onward]
  split
  · next hnil =>
    rw [hnil]
    rfl
  · next hne =>
    have hslash : steps ('/' :: Text.join ['/'] pieces) = steps (Text.join ['/'] pieces) :=
      steps_append_slash [] _
    rw [hslash, steps, Text.join, List.splitOn_intercalate _ h hne]

theorem join_base (hne : base ≠ []) (qs : List Text) :
    Text.join ['/'] ([] :: base.reverse ++ qs) = ofAddress base ++ onward qs := by
  have hnames : base.reverse ≠ [] := by simpa using hne
  have hbase : Text.join ['/'] ([] :: base.reverse) = ofAddress base := by
    rw [Text.join, List.intercalate_cons_of_ne_nil hnames]
    rfl
  rw [onward]
  split
  · next hqs => rw [hqs, List.append_nil, List.append_nil, hbase]
  · next hqs => rw [← hbase, join_slash_append (List.cons_ne_nil _ _) hqs]

section Pieces

variable {pieces : List Text} {piece : Text} (hmem : piece ∈ pieces)
  (hsome : (ofPiece? piece).isSome = true)

include hmem hsome

/-- The last component takes at least one step with it. -/
theorem length_steps_piecesAbove_lt :
    ((piecesAbove pieces).filter (· ≠ [])).length < (pieces.filter (· ≠ [])).length := by
  obtain ⟨last, before, hlast⟩ :=
    List.exists_cons_of_ne_nil (dropMeaningless_ne_nil (List.mem_reverse.2 hmem) hsome)
  have hne : last ≠ [] := fun he => by
    have hmeans := ofPiece?_of_dropMeaningless hlast
    rw [he] at hmeans
    cases hmeans
  have hstart : before.reverse ++ [last] <+: pieces := by
    have hsuffix := dropMeaningless_suffix pieces.reverse
    rw [hlast] at hsuffix
    simpa using List.reverse_prefix.2 hsuffix
  have habove : piecesAbove pieces <+: before.reverse := by
    rw [piecesAbove, hlast, List.tail_cons]
    exact List.reverse_prefix.2 (dropMeaningless_suffix before)
  have hlong := (hstart.filter (· ≠ [])).length_le
  rw [List.filter_append, List.filter_cons_of_pos (by simpa using hne), List.length_append] at hlong
  exact (habove.filter _).length_le.trans_lt (Nat.lt_of_succ_le hlong)

/-- What a path starts with stays when its last component comes after it. -/
theorem piecesAbove_base (hway : IsWay base) (hne : base ≠ []) :
    piecesAbove ([] :: base.reverse ++ pieces) = [] :: base.reverse ++ piecesAbove pieces := by
  obtain ⟨last, before, hlast⟩ :=
    List.exists_cons_of_ne_nil (dropMeaningless_ne_nil (List.mem_reverse.2 hmem) hsome)
  have hreverse : ([] :: base.reverse ++ pieces).reverse = pieces.reverse ++ (base ++ [[]]) := by
    simp
  rw [piecesAbove, piecesAbove, hreverse, dropMeaningless_append, hlast,
    if_neg (List.cons_ne_nil _ _), List.cons_append, List.tail_cons, List.tail_cons,
    dropMeaningless_append, dropMeaningless_base hway hne]
  split
  · next hnil => simp [hnil]
  · simp

end Pieces

/-- The last component of an absolute path with a piece that means something. -/
theorem exists_getLast?_components {path piece : Text} (habs : isAbsolute path = true)
    (hmem : piece ∈ path.splitOn '/') (hsome : (ofPiece? piece).isSome = true) :
    ∃ last, (components path).getLast? = ofPiece? last ∧ (ofPiece? last).isSome = true := by
  obtain ⟨c, hc⟩ := Option.isSome_iff_exists.1 hsome
  have hbody : (path.splitOn '/').filterMap ofPiece? ≠ [] :=
    List.ne_nil_of_mem (List.mem_filterMap.2 ⟨piece, hmem, hc⟩)
  obtain ⟨c, hlast⟩ := Option.ne_none_iff_exists'.1 (mt List.getLast?_eq_none_iff.1 hbody)
  obtain ⟨last, -, hmeans⟩ := List.mem_filterMap.1 (List.mem_of_getLast? hlast)
  refine ⟨last, ?_, by rw [hmeans]; rfl⟩
  rw [components]
  simp only [habs, ↓reduceIte]
  rw [List.getLast?_cons, hlast, hmeans]
  rfl

/-- The directory of an absolute path with a piece that means something. -/
theorem parent?_of_pieces {path piece : Text} (habs : isAbsolute path = true)
    (hmem : piece ∈ path.splitOn '/') (hsome : (ofPiece? piece).isSome = true)
    (hne : piecesAbove (path.splitOn '/') ≠ []) :
    parent? path = some (Text.join ['/'] (piecesAbove (path.splitOn '/'))) := by
  obtain ⟨last, hlast, hmeans⟩ := exists_getLast?_components habs hmem hsome
  obtain ⟨c, hc⟩ := Option.isSome_iff_exists.1 hmeans
  obtain ⟨q, qs, hq⟩ := List.exists_cons_of_ne_nil
    (show dropMeaningless (dropMeaningless (path.splitOn '/').reverse).tail ≠ [] by
      simpa [piecesAbove] using hne)
  rw [parent?, piecesAbove, hlast, hc, hq]
  rcases up_or_name_of_ofPiece? hc with rfl | rfl <;> rfl

/-- The directory of a path that goes on from an entry is found in what it goes on with. -/
theorem parent?_within {step : Text} (hrest : rest.head? = some '/') (hmem : step ∈ steps rest)
    (hstep : step ≠ ['.']) :
    ∃ rest', (rest' = [] ∨ rest'.head? = some '/') ∧ steps rest' <+: steps rest ∧
      (steps rest').length < (steps rest).length ∧
      ∀ base, IsWay base → base ≠ [] →
        parent? (ofAddress base ++ rest) = some (ofAddress base ++ rest') := by
  obtain ⟨more, rfl⟩ : ∃ more, rest = '/' :: more := by
    cases rest with
    | nil => cases hrest
    | cons c more => exact ⟨more, by rw [show c = '/' by simpa using hrest]⟩
  have hsteps : steps ('/' :: more) = (more.splitOn '/').filter (· ≠ []) :=
    steps_append_slash [] more
  rw [hsteps] at hmem ⊢
  obtain ⟨hpiece, hne⟩ := List.mem_filter.1 hmem
  have hsome : (ofPiece? step).isSome = true := by
    rw [ofPiece?, if_neg (by simpa using hne), if_neg hstep]
    split <;> rfl
  have habove := piecesAbove_prefix (more.splitOn '/')
  have hleft : steps (onward (piecesAbove (more.splitOn '/'))) =
      (piecesAbove (more.splitOn '/')).filter (· ≠ []) :=
    steps_onward fun p hp => Text.not_mem_of_mem_splitOn (habove.subset hp)
  refine ⟨onward (piecesAbove (more.splitOn '/')), onward_slash _, hleft ▸ habove.filter _,
    hleft ▸ length_steps_piecesAbove_lt hpiece hsome, fun base hway hne => ?_⟩
  have hpieces : (ofAddress base ++ '/' :: more).splitOn '/' =
      [] :: base.reverse ++ more.splitOn '/' := by
    rw [List.splitOn_append_cons_self, splitOn_ofAddress hway hne]
  have hkept := piecesAbove_base hpiece hsome hway hne
  rw [← hpieces] at hkept
  rw [parent?_of_pieces rfl (hpieces ▸ List.mem_append_right _ hpiece) hsome
    (by rw [hkept]; exact List.cons_ne_nil _ _), hkept, join_base hne]

theorem length_steps_le (path : Text) : (steps path).length ≤ path.length := by
  have hhead : ∀ (c : Char) (pieces : List Text),
      ((pieces.modifyHead (List.cons c)).filter (· ≠ [])).length ≤
        (pieces.filter (· ≠ [])).length + 1 := fun c pieces => by
    cases pieces with
    | nil => simp
    | cons piece pieces =>
      rw [List.modifyHead_cons, List.filter_cons_of_pos (by simp), List.length_cons]
      exact Nat.succ_le_succ ((List.sublist_cons_self piece pieces).filter _).length_le
  induction path with
  | nil => simp [steps]
  | cons c path ih =>
    rw [steps] at ih ⊢
    rw [List.splitOn_cons_eq_if_modifyHead, List.length_cons]
    split
    · rw [List.filter_cons_of_neg (by simp)]
      exact ih.trans (Nat.le_succ _)
    · exact (hhead c _).trans (Nat.succ_le_succ ih)

end Path

end ActionBundles
