import ActionBundles.Proofs.Discovery
import ActionBundles.Proofs.Twins

/-!
# Disks side by side

Two disks are side by side (`Disk.Alongside`) if their trees are alike under a renaming and the
project in them is free of links. Twin paths lead to corresponding spots on them, and the actions of
the disk are abreast on twin paths: they fail for the same reason, or are done and leave the disks
side by side.
-/

namespace ActionBundles

open ActionBundles.Action

/-- Two disks with trees that are alike, with a project at `a` that is free of links and a directory
at `base`. -/
structure Disk.Alongside (f : Address → Address) (a base : Address) (d d' : Disk) : Prop where
  alike : d.tree.Alike f d'.tree
  root : d.tree.get? a = some .directory
  base : d.tree.get? base = some .directory
  noLinks : d.tree.NoLinksIn a

/-- What corresponds to steps that stay in a directory without links. -/
theorem Tree.walk_below {f : Address → Address} {t t' : Tree} {z : Address} {ms : List Text}
    {follow : Bool} (hf : Renaming f) (h : t.Alike f t') (hz : t.get? z = some .directory)
    (hno : t.NoLinksIn z) (hs : Path.staysBelow 0 ms = true) (hpass : Path.Passes f z ms)
    (budget : Nat) :
    EndAlike Eq (Spot.Alike f) (t.walk follow budget [] (z.reverse ++ ms))
      (t'.walk follow budget [] ((f z).reverse ++ ms)) := by
  have hleg : EndAlike Eq (Leg.Alike f) (t.leg follow z ms) (t'.leg follow (f z) ms) :=
    leg_alike hf h hpass
  have hdown : t.leg follow [] (z.reverse ++ ms) = t.leg follow z ms := leg_down hz ms
  have hdown' : t'.leg follow [] ((f z).reverse ++ ms) = t'.leg follow (f z) ms :=
    leg_down ((h.directory_iff z).2 hz) ms
  rw [← hdown, ← hdown'] at hleg
  have hends : ∀ first, t.leg follow [] (z.reverse ++ ms) = .ok first → ∃ spot, first = .end_ spot :=
    fun first hfirst => by
      obtain ⟨spot, -, he, -⟩ := leg_stays (c := []) hno hs (hdown.symm.trans hfirst)
      exact ⟨spot, he⟩
  generalize hfirst : t.leg follow [] (z.reverse ++ ms) = first at hleg hends
  generalize hfirst' : t'.leg follow [] ((f z).reverse ++ ms) = first' at hleg
  cases hleg with
  | error he =>
    rw [walk_of_error hfirst, walk_of_error hfirst']
    exact .error he
  | ok hspots =>
    obtain ⟨spot, rfl⟩ := hends _ rfl
    cases hspots with
    | end_ hspot =>
      rw [walk_of_end hfirst, walk_of_end hfirst']
      exact .ok hspot

namespace Disk

variable {f : Address → Address} {a base : Address} {d d' : Disk} {p p' : Text}

/-- The project is free of links on the other disk, too. -/
theorem Alongside.noLinks' (hf : Renaming f) (ha : f a = a) (h : d.Alongside f a base d') :
    d'.tree.NoLinksIn a := fun b target hlink => by
  obtain ⟨e, he⟩ : a <:+ f (b ++ a) := by
    have hsuffix := hf.suffix (List.suffix_append b a)
    rwa [ha] at hsuffix
  have hrel := h.alike (f (b ++ a))
  rw [hf.self, hlink] at hrel
  generalize hget : d.tree.get? (f (b ++ a)) = o at hrel
  cases hrel with
  | some hnode =>
    cases hnode with
    | link =>
      rw [← he] at hget
      exact h.noLinks e target hget

section Find

variable (hf : Renaming f) (ha : f a = a) (hin : a <:+ base) (h : d.Alongside f a base d')
  (hp : Path.Twin f a base p p')

include hf ha hin h hp

/-- What is common to twin paths. -/
theorem Alongside.leads : p ≠ [] ∧ p' ≠ [] ∧ ('\x00' ∈ p' ↔ '\x00' ∈ p) ∧
    Path.isAbsolute p = true ∧ Path.isAbsolute p' = true ∧
    Path.wantsDirectory p' = Path.wantsDirectory p ∧
    ∃ z ms, d.tree.get? z = some .directory ∧ a <:+ z ∧ Path.steps p = z.reverse ++ ms ∧
      Path.steps p' = (f z).reverse ++ ms ∧ Path.staysBelow 0 ms = true ∧ Path.Passes f z ms := by
  cases hp with
  | @fixed y hway hy hself =>
    refine ⟨Path.ofAddress_ne_nil y, Path.ofAddress_ne_nil y, Iff.rfl, rfl, rfl, rfl, ?_⟩
    obtain ⟨b, rfl⟩ := hy
    have hb : ∀ m ∈ b.reverse, Path.isStep m = true := fun m hm =>
      hway m (List.mem_append_left a (List.mem_reverse.1 hm))
    refine ⟨a, b.reverse, h.root, List.suffix_refl a, ?_, ?_, Path.staysBelow_of_isStep hb 0,
      Path.passes_of_fixed hf hb (by rwa [List.reverse_reverse])⟩
    · rw [Path.steps_ofAddress hway, List.reverse_append]
    · rw [Path.steps_ofAddress hway, List.reverse_append, ha]
  | @within rest hne hrest hstays hpass =>
    have hbase : d'.tree.get? (f base) = some .directory := (h.alike.directory_iff base).2 h.base
    have hway := Tree.isWay_of_get? h.base
    have hway' := Tree.isWay_of_get? hbase
    have hne' : f base ≠ [] := fun he => hne (hf.eq_nil_iff.1 he)
    have hnul := Path.nul_not_mem_ofAddress.2 (nul_not_mem_of_get? h.base)
    have hnul' := Path.nul_not_mem_ofAddress.2 (nul_not_mem_of_get? hbase)
    refine ⟨by simp [Path.ofAddress_ne_nil], by simp [Path.ofAddress_ne_nil], by simp [hnul, hnul'],
      rfl, rfl, ?_, base, Path.steps rest, h.base, hin, Path.steps_within hway hrest,
      Path.steps_within hway' hrest, hstays, hpass⟩
    rw [Path.wantsDirectory_within hway' hne' hrest, Path.wantsDirectory_within hway hne hrest]

theorem Alongside.follow (links : Bool) :
    EndAlike Eq (Spot.Alike f) (d.follow links p (Path.steps p)) (d'.follow links p' (Path.steps p')) ∧
    EndAlike Eq (Spot.Alike f) (d.follow links p (Tree.stepsOf p))
      (d'.follow links p' (Tree.stepsOf p')) := by
  obtain ⟨hne, hne', hnul, habs, habs', hwants, z, ms, hz, haz, hsteps, hsteps', hs, hpass⟩ :=
    h.leads hf ha hin hp
  have hno : d.tree.NoLinksIn z := h.noLinks.below haz
  have hgo : ∀ {ms}, Path.staysBelow 0 ms = true → Path.Passes f z ms →
      EndAlike Eq (Spot.Alike f) (d.follow links p (z.reverse ++ ms))
        (d'.follow links p' ((f z).reverse ++ ms)) := fun {ms} hs hpass => by
    rw [Disk.follow, Disk.follow, if_neg hne, if_neg hne', Tree.startOf, Tree.startOf, if_pos habs,
      if_pos habs']
    simp only [hnul]
    split
    · exact .error rfl
    · exact Tree.walk_below hf h.alike hz hno hs hpass maxLinks
  refine ⟨?_, ?_⟩
  · rw [hsteps, hsteps']
    exact hgo hs hpass
  · rw [Tree.stepsOf, Tree.stepsOf, hwants, hsteps, hsteps']
    split
    · rw [List.append_assoc, List.append_assoc]
      exact hgo ((Path.staysBelow_dot 0 ms).trans hs) (Path.passes_dot hpass)
    · exact hgo hs hpass

theorem Alongside.place : EndAlike Eq (Spot.Alike f) (d.place p) (d'.place p') :=
  (h.follow hf ha hin hp false).1

theorem Alongside.find :
    EndAlike Eq (fun e e' => e'.1 = f e.1 ∧ e.2.Alike e'.2) (d.find p) (d'.find p') := by
  have hfollow := (h.follow hf ha hin hp true).2
  rw [Disk.find, Disk.find]
  generalize d.follow true p (Tree.stepsOf p) = o at hfollow
  generalize d'.follow true p' (Tree.stepsOf p') = o' at hfollow
  cases hfollow with
  | error he => exact .error he
  | ok hspot =>
    cases hspot with
    | entry x hnode => exact .ok ⟨rfl, hnode⟩
    | vacant _ => exact .error rfl

theorem Alongside.openForWriting :
    EndAlike Eq (Spot.Alike f) (d.openForWriting p) (d'.openForWriting p') := by
  obtain ⟨-, -, -, -, -, hwants, -⟩ := h.leads hf ha hin hp
  rw [Disk.openForWriting, Disk.openForWriting, hwants]
  split
  · have hplace := h.place hf ha hin hp
    generalize d.place p = o at hplace
    generalize d'.place p' = o' at hplace
    cases hplace with
    | error he => exact .error he
    | ok _ => exact .error rfl
  · have hfollow := (h.follow hf ha hin hp true).1
    generalize d.follow true p (Path.steps p) = o at hfollow
    generalize d'.follow true p' (Path.steps p') = o' at hfollow
    cases hfollow with
    | error he => exact .error he
    | ok hspot =>
      cases hspot with
      | vacant hx => exact .ok (.vacant hx)
      | entry x hnode =>
        cases hnode with
        | directory => exact .error rfl
        | file hcontent mode => exact .ok (.entry x (.file hcontent mode))
        | link target => exact .ok (.entry x (.link target))

theorem Alongside.isFile : d'.isFile p' = d.isFile p := by
  have hfind := h.find hf ha hin hp
  rw [Disk.isFile, Disk.isFile]
  generalize d.find p = o at hfind
  generalize d'.find p' = o' at hfind
  cases hfind with
  | error _ => rfl
  | @ok entry entry' hentry =>
    obtain ⟨x, node⟩ := entry
    obtain ⟨x', node'⟩ := entry'
    obtain ⟨-, hnode⟩ := hentry
    cases hnode <;> rfl

theorem Alongside.isDirectory : d'.isDirectory p' = d.isDirectory p := by
  have hfind := h.find hf ha hin hp
  rw [Disk.isDirectory, Disk.isDirectory]
  generalize d.find p = o at hfind
  generalize d'.find p' = o' at hfind
  cases hfind with
  | error _ => rfl
  | @ok entry entry' hentry =>
    obtain ⟨x, node⟩ := entry
    obtain ⟨x', node'⟩ := entry'
    obtain ⟨-, hnode⟩ := hentry
    cases hnode <;> rfl

theorem Alongside.isThere : d'.isThere p' = d.isThere p := by
  have hfind := h.find hf ha hin hp
  rw [Disk.isThere, Disk.isThere]
  generalize d.find p = o at hfind
  generalize d'.find p' = o' at hfind
  cases hfind <;> rfl

end Find

end Disk

/-! ### The actions of the disk -/

namespace Disk

variable {f : Address → Address} {a base : Address} {d d' : Disk} {p p' q q' n n' : Text}
  {dir dir' x : Address} {node node' : Node}

theorem Alongside.set (hf : Renaming f) (h : d.Alongside f a base d')
    (hx : f (n :: dir) = n' :: dir') (hnode : node.Alike node')
    (hplain : ∀ target, node ≠ .link target) :
    Disk.Alongside f a base { d with tree := d.tree.set n dir node }
      { d' with tree := d'.tree.set n' dir' node' } where
  alike := h.alike.set hf hx hnode
  root := Tree.gains_set.directory a h.root
  base := Tree.gains_set.directory base h.base
  noLinks := h.noLinks.set hplain

theorem Alongside.prune (hf : Renaming f) (h : d.Alongside f a base d')
    (hx : d.tree.get? x ≠ some .directory) :
    Disk.Alongside f a base { d with tree := d.tree.prune x }
      { d' with tree := d'.tree.prune (f x) } where
  alike := h.alike.prune hf x
  root := (Tree.gains_prune hx).directory a h.root
  base := (Tree.gains_prune hx).directory base h.base
  noLinks := h.noLinks.prune x

variable (hf : Renaming f) (ha : f a = a) (hin : a <:+ base)

include hf ha hin

section One

variable (hp : Path.Twin f a base p p')

include hp

theorem abreast_makeDirectory :
    Abreast (Alongside f a base) Eq Eq (makeDirectory p) (makeDirectory p') := fun d d' h => by
  have hplace := h.place hf ha hin hp
  rw [makeDirectory_on, makeDirectory_on]
  generalize d.place p = o at hplace
  generalize d'.place p' = o' at hplace
  cases hplace with
  | error he => exact ⟨.error he, h⟩
  | ok hspot =>
    cases hspot with
    | entry x hnode => exact ⟨.error rfl, h⟩
    | vacant hx => exact ⟨.ok rfl, h.set hf hx .directory (by simp)⟩

omit ha hin in
/-- A path whose directory is missing has one, and the two correspond. -/
theorem Alongside.parent (h : d.Alongside f a base d') (hmissing : d.place p = .error .notFound) :
    ∃ above above', Path.parent? p = some above ∧ Path.parent? p' = some above' ∧
      Path.Twin f a base above above' ∧ (Path.steps above).length < (Path.steps p).length := by
  cases hp with
  | @fixed y hway hy hself =>
    rcases eq_or_ne a y with rfl | hne
    · cases (place_of_get? h.root).symm.trans hmissing
    · obtain ⟨b, rfl⟩ := hy
      cases b with
      | nil => exact absurd rfl hne
      | cons m b =>
        refine ⟨_, _, Path.parent?_ofAddress hway, Path.parent?_ofAddress hway,
          .fixed hway.tail (List.suffix_append b a)
            (hf.eq_of_suffix hself (List.suffix_cons m (b ++ a))), ?_⟩
        rw [Path.steps_ofAddress hway.tail,
          show (Path.steps (Path.ofAddress (m :: b ++ a))) = _ from Path.steps_ofAddress hway]
        simp
  | @within rest hne hrest hstays hpass =>
    have hbase : d'.tree.get? (f base) = some .directory := (h.alike.directory_iff base).2 h.base
    have hway := Tree.isWay_of_get? h.base
    have hsteps := Path.steps_within hway hrest
    -- dots alone would lead to the entry itself
    obtain ⟨step, hmem, hstep⟩ : ∃ step ∈ Path.steps rest, step ≠ ['.'] := by
      by_contra hnone
      have hdots : Path.undotted (Path.steps rest) = ([] : Address).reverse :=
        List.filter_eq_nil_iff.2 fun s hs hdot => hnone ⟨s, hs, by simpa using hdot⟩
      have hleg : d.tree.leg false [] (base.reverse ++ Path.steps rest) =
          .ok (.end_ (.entry base .directory)) :=
        (Tree.leg_down h.base _).trans (Tree.leg_of_undotted (b := []) hdots h.base)
      rw [Disk.place, Disk.follow, if_neg (by simp [Path.ofAddress_ne_nil])] at hmissing
      split at hmissing
      · cases hmissing
      · rw [Tree.startOf, if_pos (show Path.isAbsolute (Path.ofAddress base ++ rest) = true from rfl),
          hsteps, Tree.walk_of_end hleg] at hmissing
        cases hmissing
    have hslash : rest.head? = some '/' := hrest.resolve_left fun hnil => by
      rw [hnil] at hmem
      cases hmem
    obtain ⟨rest', hrest', hprefix, hlength, hparent⟩ := Path.parent?_within hslash hmem hstep
    obtain ⟨more, hmore⟩ := hprefix
    refine ⟨_, _, hparent base hway hne,
      hparent (f base) (Tree.isWay_of_get? hbase) fun he => hne (hf.eq_nil_iff.1 he),
      .within hne hrest' ?_ ?_, ?_⟩
    · exact Path.staysBelow_of_append (hmore ▸ hstays)
    · exact Path.passes_of_append (hmore ▸ hpass)
    · rw [Path.steps_within hway hrest', hsteps]
      simpa using hlength

theorem Alongside.length_steps (h : d.Alongside f a base d') :
    (Path.steps p').length = (Path.steps p).length := by
  obtain ⟨-, -, -, -, -, -, z, ms, -, -, hsteps, hsteps', -⟩ := h.leads hf ha hin hp
  have hz : (f z).length = z.length := by
    clear hsteps hsteps'
    induction z with
    | nil => rw [hf.nil]
    | cons m z ih =>
      obtain ⟨m', hm'⟩ := hf.exists_cons m z
      rw [hm', List.length_cons, List.length_cons, ih]
  rw [hsteps, hsteps', List.length_append, List.length_append, List.length_reverse,
    List.length_reverse, hz]

omit hp in
theorem abreast_makeDirectoriesWithin (bound bound' : Nat) {p p' : Text}
    (hp : Path.Twin f a base p p') (hbound : (Path.steps p).length < bound)
    (hbound' : (Path.steps p).length < bound') :
    Abreast (Alongside f a base) Eq Eq (makeDirectoriesWithin bound p)
      (makeDirectoriesWithin bound' p') := by
  induction bound generalizing bound' p p' with
  | zero => omega
  | succ bound ih =>
    obtain ⟨bound', rfl⟩ : ∃ k, bound' = k + 1 := ⟨bound' - 1, by omega⟩
    refine abreast_makeDirectoriesWithin_succ (fun d d' h => ?_) (abreast_makeDirectory hf ha hin hp)
      (fun d d' h => h.isDirectory hf ha hin hp) fun d d' h hmissing => ?_
    · obtain ⟨hne, hne', -⟩ := h.leads hf ha hin hp
      exact ⟨hne, hne'⟩
    · obtain ⟨above, above', hparent, hparent', htwin, hlength⟩ := h.parent hf hp hmissing
      exact ⟨above, above', hparent, hparent', ih bound' htwin (by omega) (by omega)⟩

theorem abreast_makeDirectories :
    Abreast (Alongside f a base) Eq Eq (makeDirectories p) (makeDirectories p') := fun d d' h => by
  have hlength := h.length_steps hf ha hin hp
  exact abreast_makeDirectoriesWithin hf ha hin _ _ hp (Nat.lt_succ_of_le (Path.length_steps_le p))
    (hlength ▸ Nat.lt_succ_of_le (Path.length_steps_le p')) d d' h

theorem abreast_put {content content' : Bytes} (hcontent : ContentAlike content content')
    (executable : Option Bool) :
    Abreast (Alongside f a base) Eq Eq (put p content executable) (put p' content' executable) :=
  fun d d' h => by
    have hopen := h.openForWriting hf ha hin hp
    rw [put_on, put_on]
    generalize d.openForWriting p = o at hopen
    generalize d'.openForWriting p' = o' at hopen
    cases hopen with
    | error he => exact ⟨.error he, h⟩
    | ok hspot =>
      cases hspot with
      | vacant hx => exact ⟨.ok rfl, h.set hf hx (.file hcontent _) (by simp)⟩
      | entry x hnode =>
        cases x with
        | nil =>
          rw [hf.nil]
          cases hnode <;> exact ⟨.error rfl, h⟩
        | cons m z =>
          obtain ⟨m', hm'⟩ := hf.exists_cons m z
          rw [hm']
          cases hnode with
          | directory => exact ⟨.error rfl, h⟩
          | link target => exact ⟨.error rfl, h⟩
          | file _ mode => exact ⟨.ok rfl, h.set hf hm' (.file hcontent _) (by simp)⟩

theorem abreast_makeExecutable :
    Abreast (Alongside f a base) Eq Eq (makeExecutable p) (makeExecutable p') := fun d d' h => by
  have hfind := h.find hf ha hin hp
  rw [makeExecutable_on, makeExecutable_on]
  generalize d.find p = o at hfind
  generalize d'.find p' = o' at hfind
  cases hfind with
  | error he => exact ⟨.error he, h⟩
  | @ok entry entry' hentry =>
    obtain ⟨x, node⟩ := entry
    obtain ⟨x', node'⟩ := entry'
    obtain ⟨rfl, hnode⟩ := hentry
    dsimp only at hnode ⊢
    cases x with
    | nil =>
      rw [hf.nil]
      exact ⟨.ok rfl, h⟩
    | cons m z =>
      obtain ⟨m', hm'⟩ := hf.exists_cons m z
      rw [hm']
      cases hnode with
      | directory => exact ⟨.ok rfl, h⟩
      | link target => exact ⟨.ok rfl, h⟩
      | file hcontent mode => exact ⟨.ok rfl, h.set hf hm' (.file hcontent true) (by simp)⟩

/-- What stands at the end of a path in the project is no link. -/
theorem Alongside.ne_link (h : d.Alongside f a base d') (hplace : d.place p = .ok (.entry x node)) :
    d.tree.get? x = some node ∧ ∀ target, node ≠ .link target := by
  obtain ⟨-, -, -, habs, -, -, z, ms, hz, haz, hsteps, -, hs, -⟩ := h.leads hf ha hin hp
  have hno : d.tree.NoLinksIn z := h.noLinks.below haz
  have hholds : d.tree.get? x = some node := place_holds habs hplace
  rw [Disk.place, hsteps] at hplace
  have haddress := address_of_follow habs hz hno hs hplace
  refine ⟨hholds, fun target he => ?_⟩
  rw [he, show x = _ from haddress] at hholds
  exact hno _ target hholds

theorem abreast_removeFile :
    Abreast (Alongside f a base) Eq Eq (removeFile p) (removeFile p') := fun d d' h => by
  have hplace := h.place hf ha hin hp
  have hnode : ∀ x node, d.place p = .ok (.entry x node) → d.tree.get? x = some node ∧
      ∀ target, node ≠ .link target := fun x node => h.ne_link hf ha hin hp
  rw [removeFile_on, removeFile_on]
  generalize d.place p = o at hplace hnode
  generalize d'.place p' = o' at hplace
  cases hplace with
  | error he => exact ⟨.error he, h⟩
  | ok hspot =>
    cases hspot with
    | vacant hx => exact ⟨.error rfl, h⟩
    | entry x hentry =>
      have hget := (hnode x _ rfl).1
      cases hentry with
      | directory => exact ⟨.error rfl, h⟩
      | file hcontent mode => exact ⟨.ok rfl, h.prune hf (by simp [hget])⟩
      | link target => exact ⟨.ok rfl, h.prune hf (by simp [hget])⟩

end One

section Two

variable (hp : Path.Twin f a base p p') (hq : Path.Twin f a base q q')

include hp hq

theorem abreast_copy : Abreast (Alongside f a base) Eq Eq (copy p q) (copy p' q') := by
  refine Abreast.bind (P := fun e e' => e.2.Alike e'.2)
    (abreast_consult fun d d' h => (h.find hf ha hin hp).mono (fun _ _ he => he) fun _ _ he => he.2)
    fun e e' hnode => ?_
  obtain ⟨x, node⟩ := e
  obtain ⟨x', node'⟩ := e'
  dsimp only at hnode
  cases hnode with
  | directory => exact abreast_throw rfl
  | link target => exact abreast_throw rfl
  | file hcontent mode => exact abreast_put hf ha hin hq hcontent (some mode)

theorem abreast_move : Abreast (Alongside f a base) Eq Eq (move p q) (move p' q') := fun d d' h => by
  have hplace := h.place hf ha hin hp
  have htarget := h.place hf ha hin hq
  have hentry : ∀ x node, d.place p = .ok (.entry x node) → d.tree.get? x = some node ∧
      ∀ target, node ≠ .link target := fun x node => h.ne_link hf ha hin hp
  rw [move_on, move_on]
  generalize d.place p = o at hplace hentry
  generalize d'.place p' = o' at hplace
  cases hplace with
  | error he => exact ⟨.error he, h⟩
  | ok hspot =>
    cases hspot with
    | vacant hx => exact ⟨.error rfl, h⟩
    | @entry old node node' hnode =>
      obtain ⟨hget, hplain⟩ := hentry old node rfl
      cases hnode with
      | directory => exact ⟨.error rfl, h⟩
      | link target => exact absurd rfl (hplain target)
      | @file content content' hcontent mode =>
        have hmoved : ∀ {k dir k' dir'}, f (k :: dir) = k' :: dir' → Disk.Alongside f a base
            { d with tree := (d.tree.prune old).set k dir (.file content mode) }
            { d' with tree := (d'.tree.prune (f old)).set k' dir' (.file content' mode) } :=
          fun hx => (h.prune hf (by simp [hget])).set hf hx (.file hcontent mode) hplain
        dsimp only
        generalize d.place q = o at htarget
        generalize d'.place q' = o' at htarget
        cases htarget with
        | error he => exact ⟨.error he, h⟩
        | ok hspot =>
          cases hspot with
          | vacant hx => exact ⟨.ok rfl, hmoved hx⟩
          | entry y hthere =>
            cases y with
            | nil =>
              rw [hf.nil]
              cases hthere <;> exact ⟨.error rfl, h⟩
            | cons m z =>
              obtain ⟨m', hm'⟩ := hf.exists_cons m z
              have hsame : f old = m' :: f z ↔ old = m :: z := by
                rw [← hm']
                exact hf.injective.eq_iff
              have hput : Disk.Alongside f a base
                  (if old = m :: z then d
                    else { d with tree := (d.tree.prune old).set m z (.file content mode) })
                  (if f old = m' :: f z then d'
                    else { d' with tree := (d'.tree.prune (f old)).set m' (f z) (.file content' mode) }) := by
                simp only [hsame]
                split
                · exact h
                · exact hmoved hm'
              rw [hm']
              cases hthere with
              | directory => exact ⟨.error rfl, h⟩
              | file _ _ => exact ⟨.ok rfl, hput⟩
              | link _ => exact ⟨.ok rfl, hput⟩

end Two

end Disk

end ActionBundles
