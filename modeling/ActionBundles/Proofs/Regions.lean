import ActionBundles.Proofs.Following
import Mathlib.Data.List.Nodup

/-!
# Regions without links

The directory of a transaction is new, and nothing but the program puts anything into it. Where no
link lies in a directory, a way that starts there and never goes above it ends there, and the files
below it are found by going through directories alone: `mem_filesBelow` says which they are.
-/

namespace ActionBundles

/-- Whether steps that start `depth` levels down never lead above where they started. -/
@[grind =]
def Path.staysBelow : Nat → List Text → Bool
  | _, [] => true
  | depth, step :: rest =>
    if step = ['.'] then staysBelow depth rest
    else if step = ['.', '.'] then 0 < depth && staysBelow (depth - 1) rest
    else staysBelow (depth + 1) rest

/-- Steps that never lead above a directory, from the entry `c` below it on. -/
inductive Path.StaysIn : Address → List Text → Prop where
  | nil (c : Address) : StaysIn c []
  | dot {c : Address} {rest : List Text} (h : StaysIn c rest) : StaysIn c (['.'] :: rest)
  | up {n : Text} {c : Address} {rest : List Text} (h : StaysIn c rest) :
    StaysIn (n :: c) (['.', '.'] :: rest)
  | down {n : Text} {c : Address} {rest : List Text} (hdot : n ≠ ['.']) (hdots : n ≠ ['.', '.'])
    (h : StaysIn (n :: c) rest) : StaysIn c (n :: rest)

theorem Path.staysIn_of_staysBelow {c : Address} {steps : List Text}
    (h : staysBelow c.length steps = true) : StaysIn c steps := by
  induction steps generalizing c with
  | nil => exact .nil c
  | cons step rest ih =>
    rw [staysBelow] at h
    by_cases hdot : step = ['.']
    · subst hdot
      exact .dot (ih (by simpa using h))
    rw [if_neg hdot] at h
    by_cases hdots : step = ['.', '.']
    · subst hdots
      simp only [↓reduceIte, Bool.and_eq_true, decide_eq_true_eq] at h
      obtain ⟨n, c, rfl⟩ := List.exists_cons_of_length_pos h.1
      exact .up (ih (by simpa using h.2))
    · rw [if_neg hdots] at h
      exact .down hdot hdots (ih (c := step :: c) h)

namespace Tree

variable {t : Tree} {follow : Bool} {r : Address}

/-- No link lies in a directory, at any depth, nor stands in its place. -/
def NoLinksIn (t : Tree) (r : Address) : Prop :=
  ∀ b target, t.get? (b ++ r) ≠ some (.link target)

/-- There are none below a directory in it either. -/
theorem NoLinksIn.below (h : t.NoLinksIn r) {z : Address} (hz : r <:+ z) : t.NoLinksIn z := by
  obtain ⟨e, rfl⟩ := hz
  intro b target hlink
  rw [← List.append_assoc] at hlink
  exact h _ target hlink

theorem NoLinksIn.set (h : t.NoLinksIn r) {n : Text} {dir : Address} {node : Node}
    (hnode : ∀ target, node ≠ .link target) : (t.set n dir node).NoLinksIn r :=
  fun b target hlink => h b target (get?_of_set hlink (hnode target).symm)

theorem NoLinksIn.prune (h : t.NoLinksIn r) (x : Address) : (t.prune x).NoLinksIn r :=
  fun b target hlink => h b target (get?_of_prune hlink)

theorem noLinks_empty (b : Address) (target : Text) : empty.get? b ≠ some (.link target) := by
  cases b with
  | nil => simp [get?]
  | cons n dir => simp [get?, empty, Dict.get?, Dict.lookup, Dict.empty]

theorem noLinks_set {n : Text} {dir : Address} {node : Node}
    (h : ∀ b target, t.get? b ≠ some (.link target)) (hnode : ∀ target, node ≠ .link target)
    (b : Address) (target : Text) : (t.set n dir node).get? b ≠ some (.link target) :=
  fun hlink => h b target (get?_of_set hlink (hnode target).symm)

/-- Steps that never lead above a directory without links end in it. -/
theorem leg_stays (hno : t.NoLinksIn r) {c : Address} {steps : List Text} {first : Leg}
    (hs : Path.staysBelow c.length steps = true)
    (h : t.leg follow (c ++ r) steps = .ok first) :
    ∃ spot c', first = .end_ spot ∧ spot.address = c' ++ r := by
  have hstays := Path.staysIn_of_staysBelow hs
  clear hs
  induction hstays with
  | nil c =>
    cases h
    exact ⟨_, c, rfl, rfl⟩
  | dot _ ih =>
    rw [leg, if_pos rfl] at h
    exact ih h
  | up _ ih =>
    rw [leg, if_neg (by decide), if_pos rfl] at h
    exact ih h
  | @down n c rest hdot hdots _ ih =>
    rw [leg, if_neg hdot, if_neg hdots] at h
    split at h
    · cases h
    split at h
    · split at h
      · cases h
        exact ⟨_, n :: c, rfl, rfl⟩
      · cases h
    · exact ih h
    · split at h
      · cases h
        exact ⟨_, n :: c, rfl, rfl⟩
      · cases h
    · next target hlink => exact absurd hlink (hno (n :: c) target)

theorem staysBelow_of_append {depth : Nat} {ms rest : List Text}
    (h : Path.staysBelow depth (ms ++ rest) = true) : Path.staysBelow depth ms = true := by
  induction ms generalizing depth with
  | nil => rfl
  | cons m ms ih =>
    rw [List.cons_append, Path.staysBelow] at h
    rw [Path.staysBelow]
    split
    · next hdot =>
      rw [if_pos hdot] at h
      exact ih h
    next hdot =>
    rw [if_neg hdot] at h
    split
    · next hdots =>
      rw [if_pos hdots] at h
      simp only [Bool.and_eq_true, decide_eq_true_eq] at h ⊢
      exact ⟨h.1, ih h.2⟩
    · next hdots =>
      rw [if_neg hdots] at h
      exact ih h

/-- Where such steps end with a name, they end at an entry of that name. -/
theorem address_of_leg_stays (hno : t.NoLinksIn r) {ms : List Text} {n : Text} {first : Leg}
    (hn : Path.isStep n = true) (hs : Path.staysBelow 0 (ms ++ [n]) = true)
    (h : t.leg true r (ms ++ [n]) = .ok first) :
    ∃ spot c, first = .end_ spot ∧ spot.address = n :: (c ++ r) := by
  have hms := staysBelow_of_append hs
  rw [leg_append ms (List.cons_ne_nil n [])] at h
  cases hleg : t.leg true r ms with
  | error e =>
    rw [hleg] at h
    cases h
  | ok before =>
    rw [hleg] at h
    obtain ⟨spot, c, rfl, hc⟩ := leg_stays (c := []) hno hms hleg
    cases spot with
    | vacant dir m => cases h
    | entry a node =>
      cases node with
      | file content executable => cases h
      | link target => cases h
      | directory =>
        obtain rfl : a = c ++ r := hc
        have hlast : t.leg true (c ++ r) [n] = .ok first := h
        cases first with
        | end_ spot => exact ⟨spot, c, rfl, leg_singleton_address hn hlast⟩
        | link above target more =>
          exact absurd (leg_singleton_link hn hlast).2 (hno (n :: c) target)

/-! ### Names in a directory -/

theorem mem_names {n : Text} {a : Address} :
    n ∈ t.names a ↔ ∃ node, t.get? (n :: a) = some node := by
  rw [names, List.mem_filterMap]
  constructor
  · rintro ⟨k, hk, h⟩
    cases k with
    | nil => cases h
    | cons m above =>
      simp only [Option.ite_none_right_eq_some, Option.some.injEq] at h
      obtain ⟨rfl, rfl⟩ := h
      obtain ⟨⟨k, node⟩, hmem, hk⟩ := List.mem_map.1 hk
      cases hk
      exact ⟨node, Dict.mem_toList_iff.1 hmem⟩
  · rintro ⟨node, h⟩
    exact ⟨n :: a, List.mem_map.2 ⟨(n :: a, node), Dict.mem_toList_iff.2 h, rfl⟩, by simp⟩

theorem nodup_names (t : Tree) (a : Address) : (t.names a).Nodup := by
  have hkeys : t.entries.keys.Nodup := List.pairwise_map.2 <| t.entries.sorted.imp
    fun {e e'} hlt he => by
      rw [he, Std.ReflOrd.compare_self] at hlt
      cases hlt
  refine hkeys.filterMap fun k k' n hn hn' => ?_
  cases k with
  | nil => cases hn
  | cons m above =>
    cases k' with
    | nil => cases hn'
    | cons m' above' =>
      simp only [Option.mem_def, Option.ite_none_right_eq_some, Option.some.injEq] at hn hn'
      rw [hn.1, hn.2, hn'.1, hn'.2]

/-- An address is no longer than the tree is large, since all that lies above is there too. -/
theorem length_le_size {a : Address} {node : Node} (h : t.get? a = some node) :
    a.length ≤ t.size := by
  have hkeys : ∀ b, b <:+ a → b ≠ [] → b ∈ t.entries.keys := fun b hb hne => by
    have hthere : ∃ node, t.get? b = some node := by
      by_cases hba : b = a
      · exact ⟨node, hba ▸ h⟩
      · exact ⟨_, get?_of_suffix h hb hba⟩
    obtain ⟨node', hnode'⟩ := hthere
    obtain ⟨n, b, rfl⟩ := List.exists_cons_of_ne_nil hne
    exact List.mem_map.2 ⟨(n :: b, node'), Dict.mem_toList_iff.2 hnode', rfl⟩
  have hnodup : ((List.range a.length).map a.drop).Nodup := by
    refine List.pairwise_map.2 (List.nodup_range.imp_of_mem fun {i j} hi hj hij he => hij ?_)
    have hlength := congrArg List.length he
    simp only [List.length_drop, List.mem_range] at hlength hi hj
    omega
  have hsub : (List.range a.length).map a.drop ⊆ t.entries.keys := fun b hb => by
    obtain ⟨i, hi, rfl⟩ := List.mem_map.1 hb
    refine hkeys _ (List.drop_suffix i a) fun hnil => ?_
    rw [List.drop_eq_nil_iff] at hnil
    exact Nat.not_le.2 (List.mem_range.1 hi) hnil
  have := hnodup.length_le_of_subset hsub
  simpa [size, Dict.size, Dict.keys] using this

end Tree

namespace Disk

variable {d : Disk} {r : Address}

theorem names_of_directory {a : Address} (h : d.tree.get? a = some .directory) :
    d.names (Path.ofAddress a) = .ok (d.tree.names a) := by
  rw [names, find_of_get? h (by simp)]

theorem plain_of_noLinksIn {c : Address} (hno : d.tree.NoLinksIn r)
    (hr : d.tree.get? r = some .directory) : d.tree.Plain (c ++ r) := by
  intro b hb target ht
  rcases List.suffix_or_suffix_of_suffix hb (List.suffix_append c r) with hs | hs
  · exact Tree.plain_of_get? hr (by simp) b hs target ht
  · obtain ⟨b', rfl⟩ := hs
    exact hno b' target ht

/-- The files that are found below a directory without links are there. -/
theorem exists_of_mem_filesWithin {depth : Nat} {c : Address} {path : Text}
    (hno : d.tree.NoLinksIn r) (hr : d.tree.get? r = some .directory)
    (hc : d.tree.get? (c ++ r) = some .directory)
    (h : path ∈ d.filesWithin depth (Path.ofAddress (c ++ r))) :
    ∃ b content executable, b ≠ [] ∧ path = Path.ofAddress (b ++ (c ++ r)) ∧
      d.tree.get? (b ++ (c ++ r)) = some (.file content executable) := by
  induction depth generalizing c with
  | zero => cases h
  | succ depth ih =>
    rw [filesWithin, names_of_directory hc, List.mem_flatMap] at h
    obtain ⟨n, hn, h⟩ := h
    obtain ⟨node, hnode⟩ := Tree.mem_names.1 (show n ∈ d.tree.names (c ++ r) from hn)
    have hway : Path.IsWay (n :: (c ++ r)) := Tree.isWay_of_get? hnode
    have hnul := nul_not_mem_of_get? hnode
    have hplain : d.tree.Plain ((n :: c) ++ r) := plain_of_noLinksIn hno hr
    simp only [Path.join_ofAddress hway.tail (hway n (by simp))] at h
    split at h
    · next hdir =>
      have hdir := (isDirectory_ofAddress hway hnul hplain).1 hdir
      obtain ⟨b, content, executable, -, rfl, hb⟩ := ih (c := n :: c) hdir h
      have hassoc : b ++ (n :: c ++ r) = (b ++ [n]) ++ (c ++ r) := by simp
      rw [hassoc] at hb ⊢
      exact ⟨b ++ [n], content, executable, by simp, rfl, hb⟩
    · split at h
      · next hfile =>
        obtain ⟨content, executable, hfile⟩ := (isFile_ofAddress hway hnul hplain).1 hfile
        exact ⟨[n], content, executable, by simp, List.mem_singleton.1 h, hfile⟩
      · cases h

/-- All files below a directory without links are found that are not too deep. -/
theorem mem_filesWithin_of_get? {depth : Nat} {b c : Address} {content : Bytes} {executable : Bool}
    (hno : d.tree.NoLinksIn r) (hr : d.tree.get? r = some .directory) (hb : b ≠ [])
    (hdepth : b.length ≤ depth)
    (h : d.tree.get? (b ++ (c ++ r)) = some (.file content executable)) :
    Path.ofAddress (b ++ (c ++ r)) ∈ d.filesWithin depth (Path.ofAddress (c ++ r)) := by
  induction depth generalizing b c with
  | zero => exact absurd (List.length_eq_zero_iff.1 (Nat.le_zero.1 hdepth)) hb
  | succ depth ih =>
    obtain ⟨b, n, rfl⟩ := (List.eq_nil_or_concat b).resolve_left hb
    rw [List.concat_eq_append, List.append_assoc, List.singleton_append] at h ⊢
    have hthere : ∃ node, d.tree.get? (n :: (c ++ r)) = some node := by
      by_cases hb' : b = []
      · subst hb'
        exact ⟨_, h⟩
      · exact ⟨_, Tree.get?_of_append h hb'⟩
    obtain ⟨node, hnode⟩ := hthere
    have hway : Path.IsWay (n :: (c ++ r)) := Tree.isWay_of_get? hnode
    have hnul := nul_not_mem_of_get? hnode
    have hplain : d.tree.Plain ((n :: c) ++ r) := plain_of_noLinksIn hno hr
    have hdir : d.tree.get? (c ++ r) = some .directory := Tree.get?_dir hnode
    rw [filesWithin, names_of_directory hdir, List.mem_flatMap]
    refine ⟨n, Tree.mem_names.2 ⟨node, hnode⟩, ?_⟩
    simp only [Path.join_ofAddress hway.tail (hway n (by simp))]
    by_cases hb' : b = []
    · subst hb'
      have hfile : d.isFile (Path.ofAddress (n :: (c ++ r))) = true :=
        (isFile_ofAddress hway hnul hplain).2 ⟨content, executable, h⟩
      have hnot : ¬ d.isDirectory (Path.ofAddress (n :: (c ++ r))) = true := fun hd => by
        cases ((isDirectory_ofAddress hway hnul hplain).1 hd).symm.trans h
      rw [if_neg hnot, if_pos hfile]
      exact List.mem_singleton.2 rfl
    · have hd := (isDirectory_ofAddress hway hnul hplain).2 (Tree.get?_of_append h hb')
      rw [if_pos hd]
      have hlength : b.length ≤ depth := by simpa using hdepth
      exact ih (c := n :: c) hb' hlength h

theorem ofAddress_injective {a b : Address} (ha : Path.IsWay a) (hb : Path.IsWay b)
    (h : Path.ofAddress a = Path.ofAddress b) : a = b := by
  have := congrArg Path.steps h
  rw [Path.steps_ofAddress ha, Path.steps_ofAddress hb] at this
  exact List.reverse_injective this

/-- No file below a directory without links is found twice. -/
theorem nodup_filesWithin {depth : Nat} {c : Address} (hno : d.tree.NoLinksIn r)
    (hr : d.tree.get? r = some .directory) (hc : d.tree.get? (c ++ r) = some .directory) :
    (d.filesWithin depth (Path.ofAddress (c ++ r))).Nodup := by
  induction depth generalizing c with
  | zero => exact List.nodup_nil
  | succ depth ih =>
    rw [filesWithin, names_of_directory hc]
    -- What is found under a name lies in the entry of that name.
    have hfound : ∀ n ∈ d.tree.names (c ++ r), ∀ files : List Text,
        (if d.isDirectory (Path.join (Path.ofAddress (c ++ r)) n) then
          d.filesWithin depth (Path.join (Path.ofAddress (c ++ r)) n)
        else if d.isFile (Path.join (Path.ofAddress (c ++ r)) n) then
          [Path.join (Path.ofAddress (c ++ r)) n]
        else []) = files → files.Nodup ∧
        ∀ path ∈ files, ∃ b, path = Path.ofAddress (b ++ n :: (c ++ r)) ∧
          Path.IsWay (b ++ n :: (c ++ r)) := by
      intro n hn files hfiles
      obtain ⟨node, hnode⟩ := Tree.mem_names.1 hn
      have hway : Path.IsWay (n :: (c ++ r)) := Tree.isWay_of_get? hnode
      have hnul := nul_not_mem_of_get? hnode
      have hplain : d.tree.Plain ((n :: c) ++ r) := plain_of_noLinksIn hno hr
      rw [Path.join_ofAddress hway.tail (hway n (by simp))] at hfiles
      subst hfiles
      split
      · next hdir =>
        have hdir := (isDirectory_ofAddress hway hnul hplain).1 hdir
        refine ⟨ih (c := n :: c) hdir, fun path hpath => ?_⟩
        obtain ⟨b, content, executable, -, rfl, hb⟩ :=
          exists_of_mem_filesWithin (c := n :: c) hno hr hdir hpath
        exact ⟨b, rfl, Tree.isWay_of_get? hb⟩
      · split
        · refine ⟨List.nodup_singleton _, fun path hpath => ?_⟩
          exact ⟨[], List.mem_singleton.1 hpath, hway⟩
        · exact ⟨List.nodup_nil, by simp⟩
    refine List.nodup_flatMap.2 ⟨fun n hn => (hfound n hn _ rfl).1, ?_⟩
    refine (d.tree.nodup_names (c ++ r)).imp_of_mem fun {n m} hn hm hne => ?_
    intro path hpath hpath'
    obtain ⟨b, rfl, hb⟩ := (hfound n hn _ rfl).2 path hpath
    obtain ⟨b', hb'eq, hb'⟩ := (hfound m hm _ rfl).2 _ hpath'
    have heq := ofAddress_injective hb hb' hb'eq
    have hsplit : (b ++ [n]) ++ (c ++ r) = (b' ++ [m]) ++ (c ++ r) := by simpa using heq
    exact hne (by simpa using congrArg List.getLast? (List.append_cancel_right hsplit))

/-- **The files below a directory without links.** Each is listed once. -/
theorem mem_filesBelow (hno : d.tree.NoLinksIn r) (hr : d.tree.get? r = some .directory) :
    ∃ files, d.filesBelow (Path.ofAddress r) = .ok files ∧ files.Nodup ∧
      ∀ path, path ∈ files ↔ ∃ b content executable, b ≠ [] ∧ path = Path.ofAddress (b ++ r) ∧
        d.tree.get? (b ++ r) = some (.file content executable) := by
  have hthere : d.isThere (Path.ofAddress r) = true :=
    (isThere_ofAddress (Tree.isWay_of_get? hr) (nul_not_mem_of_get? hr)
      (Tree.plain_of_get? hr (by simp))).2 (by simp [hr])
  refine ⟨d.filesWithin d.depthBound (Path.ofAddress r), ?_,
    nodup_filesWithin (c := []) hno hr hr, fun path => ⟨fun h => ?_, ?_⟩⟩
  · rw [filesBelow, if_pos hthere, names_of_directory hr]
    rfl
  · obtain ⟨b, content, executable, hb, hpath, hfile⟩ :=
      exists_of_mem_filesWithin (c := []) hno hr hr h
    exact ⟨b, content, executable, hb, hpath, hfile⟩
  · rintro ⟨b, content, executable, hb, rfl, hfile⟩
    have hsize := Tree.length_le_size hfile
    have hdepth : b.length ≤ d.depthBound := by
      rw [List.length_append] at hsize
      rw [depthBound]
      calc b.length ≤ d.tree.size + 1 := by omega
        _ ≤ (maxLinks + 1) * (d.tree.size + 1) := Nat.le_mul_of_pos_left _ (by decide)
    exact mem_filesWithin_of_get? (c := []) hno hr hb hdepth hfile

end Disk

end ActionBundles
