import ActionBundles.Proofs.BundlePlaces
import ActionBundles.Proofs.Regions

/-!
# Where dots lead

The directory of a bundle may be written with single dots and even with two, so the paths that are
made up from it are not the paths of addresses. Where no link stands on the way, such a path still
leads to an address that its steps alone tell: `Path.landing`. A path that starts in a directory
without links and never leads above it lands in it (`Disk.address_of_follow`).
-/

namespace ActionBundles

namespace Path

/-! ### Landing -/

/-- Where steps lead from a directory if no link is on the way. -/
@[grind =]
def landing (dir : Address) : List Text → Address
  | [] => dir
  | step :: rest =>
    if step = ['.'] then landing dir rest
    else if step = ['.', '.'] then landing dir.tail rest
    else landing (step :: dir) rest

theorem landing_append (dir : Address) (before after : List Text) :
    landing dir (before ++ after) = landing (landing dir before) after := by
  induction before generalizing dir with
  | nil => rfl
  | cons step before ih =>
    rw [List.cons_append, landing, landing]
    split
    · exact ih dir
    split
    · exact ih dir.tail
    · exact ih (step :: dir)

theorem landing_cons_isStep {n : Text} (hn : isStep n = true) (dir : Address) (rest : List Text) :
    landing dir (n :: rest) = landing (n :: dir) rest := by
  obtain ⟨-, hdot, hdots, -⟩ := isStep_iff.1 hn
  rw [landing, if_neg hdot, if_neg hdots]

/-- Names lead to the entries of these names. -/
theorem landing_of_isStep {ms : List Text} (h : ∀ m ∈ ms, isStep m = true) (dir : Address) :
    landing dir ms = ms.reverse ++ dir := by
  induction ms generalizing dir with
  | nil => rfl
  | cons m ms ih =>
    rw [landing_cons_isStep (h m (by simp)), ih fun k hk => h k (by simp [hk])]
    simp

theorem landing_reverse {b : Address} (h : IsWay b) (dir : Address) :
    landing dir b.reverse = b ++ dir := by
  rw [landing_of_isStep fun m hm => h m (List.mem_reverse.1 hm), List.reverse_reverse]

/-- Steps that never lead above a directory land in it. -/
theorem landing_below {c : Address} {steps : List Text} (hs : staysBelow c.length steps = true)
    (r : Address) : landing (c ++ r) steps = landing c steps ++ r := by
  have hstays := staysIn_of_staysBelow hs
  clear hs
  induction hstays with
  | nil c => rfl
  | dot _ ih =>
    rw [landing, landing, if_pos rfl, if_pos rfl]
    exact ih
  | up _ ih =>
    rw [landing, landing, if_neg (by decide), if_pos rfl, if_neg (by decide), if_pos rfl]
    exact ih
  | down hdot hdots _ ih =>
    rw [landing, landing, if_neg hdot, if_neg hdots, if_neg hdot, if_neg hdots]
    exact ih

theorem staysBelow_of_append {depth : Nat} {ms rest : List Text}
    (h : staysBelow depth (ms ++ rest) = true) : staysBelow depth ms = true :=
  Tree.staysBelow_of_append h

/-! ### The steps of a parent -/

theorem dropMeaningless_suffix (pieces : List Text) : dropMeaningless pieces <:+ pieces := by
  induction pieces with
  | nil => exact List.suffix_refl []
  | cons piece before ih =>
    rw [dropMeaningless]
    split
    · exact List.suffix_refl _
    · exact ih.trans (List.suffix_cons _ _)

theorem ofPiece?_of_dropMeaningless {pieces before : List Text} {piece : Text}
    (h : dropMeaningless pieces = piece :: before) : (ofPiece? piece).isSome = true := by
  induction pieces with
  | nil => cases h
  | cons p rest ih =>
    rw [dropMeaningless] at h
    split at h
    · next hsome =>
      cases h
      exact hsome
    · exact ih h

/-- A piece of a path that means something is two dots or a name. -/
theorem up_or_name_of_ofPiece? {piece : Text} {c : Component} (h : ofPiece? piece = some c) :
    c = .up ∨ c = .name piece := by
  rw [ofPiece?] at h
  split at h
  · cases h
  split at h
  · cases h
  split at h
  · exact .inl (Option.some.inj h).symm
  · exact .inr (Option.some.inj h).symm

/-- The pieces of a path that are left without its last component. -/
def piecesAbove (pieces : List Text) : List Text :=
  (dropMeaningless (dropMeaningless pieces.reverse).tail).reverse

theorem piecesAbove_prefix (pieces : List Text) : piecesAbove pieces <+: pieces := by
  have hsuffix := (dropMeaningless_suffix (dropMeaningless pieces.reverse).tail).trans
    ((List.tail_suffix _).trans (dropMeaningless_suffix _))
  simpa [piecesAbove] using List.reverse_prefix.2 hsuffix

theorem head?_splitOn_of_isAbsolute {path : Text} (h : isAbsolute path = true) :
    ∃ rest, path.splitOn '/' = [] :: rest := by
  cases path with
  | nil => cases h
  | cons c rest =>
    obtain rfl : c = '/' := by simpa [isAbsolute] using h
    have hsplit : (([] : Text) ++ '/' :: rest).splitOn '/' = [].splitOn '/' ++ rest.splitOn '/' :=
      List.splitOn_append_cons_self _ _
    exact ⟨rest.splitOn '/', hsplit⟩

/-- The directory of an absolute path is an absolute path with some of its first steps. -/
theorem parent?_of_isAbsolute {path above : Text} (habs : isAbsolute path = true)
    (h : parent? path = some above) :
    isAbsolute above = true ∧ steps above <+: steps path := by
  rw [parent?] at h
  split at h
  · cases h
  · cases h
  · next hhere =>
    have hmem := List.mem_of_getLast? hhere
    simp only [components, habs, ↓reduceIte, List.mem_cons, reduceCtorEq, List.mem_filterMap,
      false_or] at hmem
    obtain ⟨piece, -, hpiece⟩ := hmem
    rcases up_or_name_of_ofPiece? hpiece with hc | hc <;> cases hc
  · cases hbefore : dropMeaningless (dropMeaningless (path.splitOn '/').reverse).tail with
    | nil =>
      rw [hbefore] at h
      simp only [habs, ↓reduceIte, Option.some.injEq] at h
      subst h
      exact ⟨rfl, List.nil_prefix⟩
    | cons piece before =>
      rw [hbefore] at h
      simp only [Option.some.injEq] at h
      have hfirsts : (piece :: before).reverse <+: path.splitOn '/' :=
        hbefore ▸ piecesAbove_prefix (path.splitOn '/')
      have hslash : ∀ p ∈ (piece :: before).reverse, '/' ∉ p := fun p hp =>
        Text.not_mem_of_mem_splitOn (hfirsts.subset hp)
      have hsplit : above.splitOn '/' = (piece :: before).reverse := by
        rw [← h, Text.join, List.splitOn_intercalate _ hslash (by simp)]
      refine ⟨?_, ?_⟩
      · obtain ⟨rest, hrest⟩ := head?_splitOn_of_isAbsolute habs
        have hpiece := ofPiece?_of_dropMeaningless hbefore
        -- the first piece is empty, and the last one is not
        obtain ⟨first, more, hfirst⟩ := List.exists_cons_of_ne_nil
          (show (piece :: before).reverse ≠ [] by simp)
        have hnil : first = [] := by
          rw [hfirst, hrest] at hfirsts
          exact (List.cons_prefix_cons.1 hfirsts).1
        subst hnil
        cases more with
        | nil =>
          obtain ⟨rfl, -⟩ : piece = [] ∧ before = [] := by
            have := congrArg List.reverse hfirst
            simpa using this
          cases hpiece
        | cons second more =>
          rw [← h, hfirst, Text.join, List.intercalate_cons_of_ne_nil (by simp)]
          rfl
      · rw [steps, steps, hsplit]
        exact hfirsts.filter _

end Path

/-! ### Ways without links -/

namespace Tree

variable {t : Tree} {follow : Bool} {dir : Address} {steps : List Text}

/-- A way on which no link is met leads to where its steps land. -/
theorem address_of_leg {spot : Spot} (h : t.leg follow dir steps = .ok (.end_ spot)) :
    spot.address = Path.landing dir steps := by
  rw [leg_eq_ok_iff] at h
  generalize hfirst : Leg.end_ spot = first at h
  induction h with
  | nil =>
    cases hfirst
    rfl
  | dot _ ih => exact ih hfirst
  | up _ ih => exact ih hfirst
  | down hn _ _ ih =>
    rw [Path.landing, if_neg hn.notDot, if_neg hn.notDots]
    exact ih hfirst
  | vacant hn | file hn | unfollowed hn =>
    cases hfirst
    rw [Path.landing, if_neg hn.notDot, if_neg hn.notDots]
    rfl
  | link => cases hfirst

/-- Steps down to a directory and on from there. -/
theorem leg_down {r : Address} (hr : t.get? r = some .directory) (ms : List Text) :
    t.leg follow [] (r.reverse ++ ms) = t.leg follow r ms := by
  by_cases hms : ms = []
  · subst hms
    have hleg : t.leg follow [] r.reverse = _ :=
      leg_of_get? rfl (by simpa using hr) (by simp)
    simpa [leg] using hleg
  · have hdown : t.leg true [] r.reverse = _ :=
      leg_of_get? rfl (by simpa using hr) (by simp)
    rw [leg_append _ hms, hdown]
    simp [resume]

end Tree

namespace Disk

variable {d : Disk} {r : Address} {path : Text} {ms : List Text}

/-- What a path leads to that starts in a directory without links and never leads above it. -/
theorem address_of_follow {links : Bool} {spot : Spot} (habs : Path.isAbsolute path = true)
    (hr : d.tree.get? r = some .directory) (hno : d.tree.NoLinksIn r)
    (hs : Path.staysBelow 0 ms = true)
    (h : d.follow links path (r.reverse ++ ms) = .ok spot) :
    spot.address = Path.landing [] ms ++ r := by
  have hwalk := walk_of_follow habs h
  cases hleg : d.tree.leg links r ms with
  | error e =>
    rw [Tree.walk_of_error ((Tree.leg_down hr ms).trans hleg)] at hwalk
    cases hwalk
  | ok first =>
    obtain ⟨spot', c, rfl, -⟩ := Tree.leg_stays (c := []) hno hs hleg
    rw [Tree.walk_of_end ((Tree.leg_down hr ms).trans hleg)] at hwalk
    cases hwalk
    exact (Tree.address_of_leg hleg).trans (Path.landing_below (c := []) hs r)

end Disk

end ActionBundles
