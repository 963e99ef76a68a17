import ActionBundles.Proofs.Effects

/-!
# Following links

What is known of a way through any tree, whatever links stand in it. `Tree.Leads` says step by step
how steps lead to the next link or to their end, and `Tree.Arrives` how a way goes on from link to
link; what holds of every way is shown by induction on them. A way leads to what is there, or to a
vacant place in a directory. Its last name is the name of the place that it leads to, unless
a link is followed there; two ways that differ in their last name lead into the same directory. And
a way on which the last link is not followed tells what becomes of it when the link is followed,
unless there is one.
-/

namespace ActionBundles

/-- The address that a spot has, or that it would have. -/
def Spot.address : Spot → Address
  | .entry a _ => a
  | .vacant dir n => n :: dir

/-- What is said to be at a spot is there, and a vacant place lies in a directory. -/
def Spot.Holds (t : Tree) : Spot → Prop
  | .entry a node => t.get? a = some node
  | .vacant dir n => t.get? dir = some .directory ∧ t.get? (n :: dir) = none

namespace Tree

variable {t : Tree} {follow : Bool} {dir : Address} {steps : List Text}

/-! ### Step by step -/

/-- How steps lead from a directory to the next link, or to their end. -/
inductive Leads (t : Tree) (follow : Bool) : Address → List Text → Leg → Prop where
  /-- There are no more steps. -/
  | nil (dir : Address) : Leads t follow dir [] (.end_ (.entry dir .directory))
  /-- A dot stays. -/
  | dot {dir : Address} {rest : List Text} {first : Leg} (h : Leads t follow dir rest first) :
      Leads t follow dir (['.'] :: rest) first
  /-- Two dots lead up. -/
  | up {dir : Address} {rest : List Text} {first : Leg} (h : Leads t follow dir.tail rest first) :
      Leads t follow dir (['.', '.'] :: rest) first
  /-- The name of a directory leads into it. -/
  | down {dir : Address} {n : Text} {rest : List Text} {first : Leg} (hn : IsDown n)
      (hnode : t.get? (n :: dir) = some .directory) (h : Leads t follow (n :: dir) rest first) :
      Leads t follow dir (n :: rest) first
  /-- The last name is not taken. -/
  | vacant {dir : Address} {n : Text} (hn : IsDown n) (hnode : t.get? (n :: dir) = none) :
      Leads t follow dir [n] (.end_ (.vacant dir n))
  /-- The last name is that of a file. -/
  | file {dir : Address} {n : Text} {content : Bytes} {executable : Bool} (hn : IsDown n)
      (hnode : t.get? (n :: dir) = some (.file content executable)) :
      Leads t follow dir [n] (.end_ (.entry (n :: dir) (.file content executable)))
  /-- The last name is that of a link, which is left as it is. -/
  | unfollowed {dir : Address} {n target : Text} (hn : IsDown n) (hfollow : follow = false)
      (hnode : t.get? (n :: dir) = some (.link target)) :
      Leads t follow dir [n] (.end_ (.entry (n :: dir) (.link target)))
  /-- A link is met that is followed. -/
  | link {dir : Address} {n target : Text} {rest : List Text} (hn : IsDown n)
      (hmore : rest ≠ [] ∨ follow = true) (hnode : t.get? (n :: dir) = some (.link target)) :
      Leads t follow dir (n :: rest) (.link dir target rest)

theorem leads_of_leg {first : Leg} (h : t.leg follow dir steps = .ok first) :
    t.Leads follow dir steps first := by
  induction steps generalizing dir with
  | nil =>
    cases h
    exact .nil dir
  | cons step rest ih =>
    rw [leg] at h
    split at h
    · next hdot => exact hdot ▸ .dot (ih h)
    next hdot =>
    split at h
    · next hdots => exact hdots ▸ .up (ih h)
    next hdots =>
    split at h
    · cases h
    next hlen =>
    have hdown : IsDown step := ⟨hdot, hdots, Nat.not_lt.1 hlen⟩
    split at h
    · next hnode =>
      split at h
      · next hrest =>
        cases h
        exact hrest ▸ .vacant hdown hnode
      · cases h
    · next hnode => exact .down hdown hnode (ih h)
    · next hnode =>
      split at h
      · next hrest =>
        cases h
        exact hrest ▸ .file hdown hnode
      · cases h
    · next hnode =>
      split at h
      · next hrest =>
        cases h
        simp only [Bool.and_eq_true, decide_eq_true_eq, Bool.not_eq_true'] at hrest
        exact hrest.1 ▸ .unfollowed hdown hrest.2 hnode
      · next hrest =>
        cases h
        refine .link hdown ?_ hnode
        simpa [-not_and, not_and_or] using hrest

theorem leg_of_leads {first : Leg} (h : t.Leads follow dir steps first) :
    t.leg follow dir steps = .ok first := by
  induction h with
  | nil => rfl
  | dot _ ih => rw [leg, if_pos rfl, ih]
  | up _ ih => rw [leg, if_neg (by decide), if_pos rfl, ih]
  | down hn hnode _ ih => rw [leg_cons hn, hnode, ih]
  | vacant hn hnode => simp [leg_cons hn, hnode]
  | file hn hnode => simp [leg_cons hn, hnode]
  | unfollowed hn hfollow hnode => simp [leg_cons hn, hnode, hfollow]
  | link hn hmore hnode => rcases hmore with hmore | hmore <;> simp [leg_cons hn, hnode, hmore]

theorem leg_eq_ok_iff {first : Leg} :
    t.leg follow dir steps = .ok first ↔ t.Leads follow dir steps first :=
  ⟨leads_of_leg, leg_of_leads⟩

/-- What comes of a way up to the next link is there. -/
def LegHolds (t : Tree) : Leg → Prop
  | .end_ spot => spot.Holds t
  | .link above _ _ => t.get? above = some .directory

theorem get?_tail (h : t.get? dir = some .directory) : t.get? dir.tail = some .directory := by
  cases dir with
  | nil => rfl
  | cons n dir => exact get?_dir h

theorem leg_holds {first : Leg} (hdir : t.get? dir = some .directory)
    (h : t.leg follow dir steps = .ok first) : t.LegHolds first := by
  rw [leg_eq_ok_iff] at h
  induction h with
  | nil => exact hdir
  | dot _ ih => exact ih hdir
  | up _ ih => exact ih (get?_tail hdir)
  | down _ hnode _ ih => exact ih hnode
  | vacant _ hnode => exact ⟨hdir, hnode⟩
  | file _ hnode => exact hnode
  | unfollowed _ _ hnode => exact hnode
  | link => exact hdir

/-! ### From link to link -/

theorem walk_of_end {budget : Nat} {spot : Spot} (h : t.leg follow dir steps = .ok (.end_ spot)) :
    t.walk follow budget dir steps = .ok spot := by rw [walk, h]

theorem walk_of_error {budget : Nat} {e : OsError} (h : t.leg follow dir steps = .error e) :
    t.walk follow budget dir steps = .error e := by rw [walk, h]

theorem walk_of_link_zero {above : Address} {target : Text} {more : List Text}
    (h : t.leg follow dir steps = .ok (.link above target more)) :
    t.walk follow 0 dir steps = .error .tooManyLinks := by rw [walk, h]

theorem walk_of_link {budget : Nat} {above : Address} {target : Text} {more : List Text}
    (h : t.leg follow dir steps = .ok (.link above target more)) :
    t.walk follow (budget + 1) dir steps =
      if target = [] then .error .notFound
      else t.walk follow budget (startOf target above) (stepsOf target ++ more) := by rw [walk, h]

/-- How a way goes on from link to link. -/
inductive Arrives (t : Tree) (follow : Bool) : Nat → Address → List Text → Spot → Prop where
  /-- No link is met any more. -/
  | end_ {budget : Nat} {dir : Address} {steps : List Text} {spot : Spot}
      (hleg : t.leg follow dir steps = .ok (.end_ spot)) : Arrives t follow budget dir steps spot
  /-- The next link leads on. -/
  | link {left : Nat} {dir above : Address} {steps more : List Text} {target : Text} {spot : Spot}
      (hleg : t.leg follow dir steps = .ok (.link above target more)) (htarget : target ≠ [])
      (h : Arrives t follow left (startOf target above) (stepsOf target ++ more) spot) :
      Arrives t follow (left + 1) dir steps spot

theorem arrives_of_walk {budget : Nat} {spot : Spot}
    (h : t.walk follow budget dir steps = .ok spot) : t.Arrives follow budget dir steps spot := by
  induction budget using Nat.strongRecOn generalizing dir steps with
  | _ budget ih =>
    cases hleg : t.leg follow dir steps with
    | error e =>
      rw [walk_of_error hleg] at h
      cases h
    | ok first =>
      cases first with
      | end_ spot' =>
        rw [walk_of_end hleg] at h
        cases h
        exact .end_ hleg
      | link above target more =>
        cases budget with
        | zero =>
          rw [walk_of_link_zero hleg] at h
          cases h
        | succ left =>
          rw [walk_of_link hleg] at h
          split at h
          · cases h
          · next htarget => exact .link hleg htarget (ih left (Nat.lt_succ_self left) h)

theorem walk_of_arrives {budget : Nat} {spot : Spot} (h : t.Arrives follow budget dir steps spot) :
    t.walk follow budget dir steps = .ok spot := by
  induction h with
  | end_ hleg => exact walk_of_end hleg
  | link hleg htarget _ ih => rw [walk_of_link hleg, if_neg htarget, ih]

theorem walk_eq_ok_iff {budget : Nat} {spot : Spot} :
    t.walk follow budget dir steps = .ok spot ↔ t.Arrives follow budget dir steps spot :=
  ⟨arrives_of_walk, walk_of_arrives⟩

theorem startOf_directory {target : Text} {above : Address}
    (h : t.get? above = some .directory) : t.get? (startOf target above) = some .directory := by
  rw [startOf]
  split
  · rfl
  · exact h

/-- A way leads to what is there. -/
theorem walk_holds {budget : Nat} {spot : Spot} (hdir : t.get? dir = some .directory)
    (h : t.walk follow budget dir steps = .ok spot) : spot.Holds t := by
  rw [walk_eq_ok_iff] at h
  induction h with
  | end_ hleg => exact leg_holds hdir hleg
  | link hleg _ _ ih => exact ih (startOf_directory (leg_holds hdir hleg))

/-! ### Last names -/

/-- The last step of a way looks at the entry of its name. -/
theorem leg_singleton_address {n : Text} {spot : Spot} (hn : Path.isStep n = true)
    (h : t.leg follow dir [n] = .ok (.end_ spot)) : spot.address = n :: dir := by
  cases leads_of_leg h with
  | dot => cases hn
  | up => cases hn
  | down _ _ hnil =>
    cases hnil
    rfl
  | vacant => rfl
  | file => rfl
  | unfollowed => rfl

/-- Where the last step meets a link, the link is followed and stands there. -/
theorem leg_singleton_link {n : Text} {above : Address} {target : Text} {more : List Text}
    (hn : Path.isStep n = true) (h : t.leg follow dir [n] = .ok (.link above target more)) :
    follow = true ∧ t.get? (n :: dir) = some (.link target) := by
  cases leads_of_leg h with
  | dot => cases hn
  | up => cases hn
  | down _ _ hnil => cases hnil
  | link _ hmore hnode => exact ⟨hmore.resolve_left fun hne => hne rfl, hnode⟩

theorem walk_congr_leg {budget : Nat} {dir' : Address} {steps' : List Text}
    (h : t.leg follow dir steps = t.leg follow dir' steps') :
    t.walk follow budget dir steps = t.walk follow budget dir' steps' := by
  rw [walk, walk, h]

/-- What comes of the steps of a way and of more steps after them: the first ones lead to a directory
and the others go on from there, or a link is met before. -/
theorem leg_append_eq_ok {ms rest : List Text} {first : Leg} (hrest : rest ≠ [])
    (h : t.leg follow dir (ms ++ rest) = .ok first) :
    (∃ above, t.leg true dir ms = .ok (.end_ (.entry above .directory)) ∧
        t.leg follow above rest = .ok first) ∨
      ∃ above target more, t.leg true dir ms = .ok (.link above target more) ∧
        first = .link above target (more ++ rest) := by
  rw [leg_append ms hrest] at h
  cases hms : t.leg true dir ms with
  | error e =>
    rw [hms] at h
    cases h
  | ok before =>
    rw [hms] at h
    cases before with
    | link above target more => exact .inr ⟨above, target, more, rfl, (Except.ok.inj h).symm⟩
    | end_ spot =>
      cases spot with
      | vacant above n => cases h
      | entry above node =>
        cases node with
        | directory => exact .inl ⟨above, rfl, h⟩
        | file content executable => cases h
        | link target => cases h

/-- A way that leads somewhere leads to a directory first, and goes on from there; whatever else
comes after the same steps goes on from there as well. -/
theorem exists_walk_append {budget : Nat} {ms rest : List Text} {spot : Spot} (hrest : rest ≠ [])
    (h : t.walk follow budget dir (ms ++ rest) = .ok spot) :
    ∃ above left, t.walk true budget dir ms = .ok (.entry above .directory) ∧
      ∀ rest', rest' ≠ [] →
        t.walk follow budget dir (ms ++ rest') = t.walk follow left above rest' := by
  -- the first steps end in a directory: all that comes after them starts there
  have hdirectory {budget : Nat} {dir above : Address} {ms : List Text}
      (hms : t.leg true dir ms = .ok (.end_ (.entry above .directory))) :
      ∃ above left, t.walk true budget dir ms = .ok (.entry above .directory) ∧
        ∀ rest', rest' ≠ [] →
          t.walk follow budget dir (ms ++ rest') = t.walk follow left above rest' :=
    ⟨above, budget, walk_of_end hms, fun rest' hne => walk_congr_leg (by
      rw [leg_append ms hne, hms]
      rfl)⟩
  rw [walk_eq_ok_iff] at h
  generalize hsteps : ms ++ rest = steps at h
  induction h generalizing ms with
  | end_ hleg =>
    subst hsteps
    rcases leg_append_eq_ok hrest hleg with ⟨above, hms, -⟩ | ⟨_, _, _, -, hlink⟩
    · exact hdirectory hms
    · cases hlink
  | @link left dir above _ _ target _ hleg htarget _ ih =>
    subst hsteps
    rcases leg_append_eq_ok hrest hleg with ⟨above, hms, -⟩ | ⟨_, _, more, hms, hlink⟩
    · exact hdirectory hms
    · cases hlink
      obtain ⟨b, left', hb, hothers⟩ := ih (List.append_assoc _ _ _)
      refine ⟨b, left', by rw [walk_of_link hms, if_neg htarget, hb], fun rest' hne => ?_⟩
      have hnext : t.leg follow dir (ms ++ rest') = .ok (.link above target (more ++ rest')) := by
        rw [leg_append ms hne, hms]
        rfl
      rw [walk_of_link hnext, if_neg htarget, ← List.append_assoc, hothers rest' hne]

/-- A single step that does not follow a link passes none. -/
theorem walk_singleton {budget : Nat} {n : Text} (hn : Path.isStep n = true) :
    t.walk false budget dir [n] = t.walk false 0 dir [n] := by
  cases hlast : t.leg false dir [n] with
  | error e => rw [walk_of_error hlast, walk_of_error hlast]
  | ok last =>
    cases last with
    | end_ spot => rw [walk_of_end hlast, walk_of_end hlast]
    | link above target more => cases (leg_singleton_link hn hlast).1

/-- What a way comes to whose last name stands after `ms` is decided in one directory, the same for
all last names. -/
theorem walk_concat {budget : Nat} {ms : List Text} {n : Text} {spot : Spot}
    (h : t.walk false budget dir (ms ++ [n]) = .ok spot) :
    ∃ above, ∀ m, Path.isStep m = true →
      t.walk false budget dir (ms ++ [m]) = t.walk false 0 above [m] := by
  obtain ⟨above, left, -, hothers⟩ := exists_walk_append (List.cons_ne_nil n []) h
  exact ⟨above, fun m hm => (hothers [m] (List.cons_ne_nil m [])).trans (walk_singleton hm)⟩

theorem address_of_walk_singleton {n : Text} {spot : Spot} (hn : Path.isStep n = true)
    (h : t.walk false 0 dir [n] = .ok spot) : spot.address = n :: dir := by
  cases arrives_of_walk h with
  | end_ hleg => exact leg_singleton_address hn hleg

/-- Two ways that differ in their last name lead into the same directory. -/
theorem address_of_walk_siblings {budget : Nat} {ms : List Text} {n m : Text} {spot spot' : Spot}
    (hn : Path.isStep n = true) (hm : Path.isStep m = true)
    (h : t.walk false budget dir (ms ++ [n]) = .ok spot)
    (h' : t.walk false budget dir (ms ++ [m]) = .ok spot') :
    ∃ above, spot.address = n :: above ∧ spot'.address = m :: above := by
  obtain ⟨above, habove⟩ := walk_concat h
  rw [habove n hn] at h
  rw [habove m hm] at h'
  exact ⟨above, address_of_walk_singleton hn h, address_of_walk_singleton hm h'⟩

/-! ### Following the last link -/

theorem leg_true_of_false {r : Except OsError Leg} (h : t.leg false dir steps = r)
    (hr : ∀ a target, r ≠ .ok (.end_ (.entry a (.link target)))) :
    t.leg true dir steps = r := by
  induction steps generalizing dir with
  | nil => exact h
  | cons step rest ih =>
    rw [leg] at h ⊢
    split
    · next hdot => rw [if_pos hdot] at h; exact ih h
    next hdot =>
    split
    · next hdots => rw [if_neg hdot, if_pos hdots] at h; exact ih h
    next hdots =>
    split
    · next hlen => rw [if_neg hdot, if_neg hdots, if_pos hlen] at h; exact h
    next hlen =>
    rw [if_neg hdot, if_neg hdots, if_neg hlen] at h
    cases hnode : t.get? (step :: dir) with
    | none => rw [hnode] at h; exact h
    | some node =>
      rw [hnode] at h
      cases node with
      | directory => exact ih h
      | file content executable => exact h
      | link target =>
        by_cases hrest : rest = []
        · subst hrest
          exact absurd h.symm (hr _ target)
        · simp only [hrest, decide_false, Bool.false_and, Bool.false_eq_true, ↓reduceIte] at h ⊢
          exact h

/-- A way that does not end at a link comes to the same when its last link is followed. -/
theorem walk_true_of_false {budget : Nat} {r : Except OsError Spot}
    (h : t.walk false budget dir steps = r)
    (hr : ∀ a target, r ≠ .ok (.entry a (.link target))) : t.walk true budget dir steps = r := by
  induction budget using Nat.strongRecOn generalizing dir steps with
  | ind budget ih =>
    cases hleg : t.leg false dir steps with
    | error e =>
      rw [walk_of_error hleg] at h
      subst h
      exact walk_of_error (leg_true_of_false hleg (by simp))
    | ok first =>
      cases first with
      | end_ spot =>
        rw [walk_of_end hleg] at h
        subst h
        exact walk_of_end (leg_true_of_false hleg (by simpa using hr))
      | link above target more =>
        have hleg' := leg_true_of_false hleg (by simp)
        cases budget with
        | zero =>
          rw [walk_of_link_zero hleg] at h
          rw [walk_of_link_zero hleg', h]
        | succ left =>
          rw [walk_of_link hleg] at h
          rw [walk_of_link hleg']
          split at h
          · next htarget => rw [if_pos htarget, h]
          · next htarget =>
            rw [if_neg htarget]
            exact ih left (Nat.lt_succ_self left) h

/-! ### Trees without links -/

/-- Where a tree has no links, the last name of a way is that of the place it leads to. -/
theorem address_of_walk_of_linkFree {budget : Nat} {ms : List Text} {n : Text} {spot : Spot}
    (hfree : ∀ a target, t.get? a ≠ some (.link target)) (hdir : t.get? dir = some .directory)
    (hn : Path.isStep n = true) (h : t.walk follow budget dir (ms ++ [n]) = .ok spot) :
    ∃ above, spot.address = n :: above := by
  have hfalse : t.walk false budget dir (ms ++ [n]) = .ok spot := by
    cases follow with
    | false => exact h
    | true =>
      have htrue := walk_true_of_false (t := t) (r := t.walk false budget dir (ms ++ [n])) rfl
        fun a target he => hfree a target (walk_holds hdir he)
      rw [← htrue, h]
  obtain ⟨above, habove⟩ := walk_concat hfalse
  rw [habove n hn] at hfalse
  exact ⟨above, address_of_walk_singleton hn hfalse⟩

end Tree

/-! ### Absolute paths -/

/-- An absolute path whose last step is a name. -/
structure Path.EndsIn (path : Text) (n : Text) : Prop where
  isAbsolute : Path.isAbsolute path = true
  isStep : Path.isStep n = true
  steps : ∃ ms, Path.steps path = ms ++ [n]

theorem Path.endsIn_ofAddress {n : Text} {a : Address} (h : Path.IsWay (n :: a)) :
    Path.EndsIn (Path.ofAddress (n :: a)) n where
  isAbsolute := Path.isAbsolute_ofAddress _
  isStep := h n (by simp)
  steps := ⟨a.reverse, by rw [Path.steps_ofAddress h, List.reverse_cons]⟩

namespace Disk

variable {d : Disk} {path : Text}

theorem walk_of_follow {links : Bool} {steps : List Text} {spot : Spot}
    (hp : Path.isAbsolute path = true) (h : d.follow links path steps = .ok spot) :
    d.tree.walk links maxLinks [] steps = .ok spot := by
  rw [follow] at h
  split at h
  · cases h
  split at h
  · cases h
  · rwa [Tree.startOf, if_pos hp] at h

theorem follow_holds {links : Bool} {steps : List Text} {spot : Spot}
    (hp : Path.isAbsolute path = true) (h : d.follow links path steps = .ok spot) :
    spot.Holds d.tree := Tree.walk_holds rfl (walk_of_follow hp h)

theorem place_holds {spot : Spot} (hp : Path.isAbsolute path = true)
    (h : d.place path = .ok spot) : spot.Holds d.tree := follow_holds hp h

theorem find_holds {a : Address} {node : Node} (hp : Path.isAbsolute path = true)
    (h : d.find path = .ok (a, node)) : d.tree.get? a = some node := by
  rw [find] at h
  split at h
  · cases h
  · cases h
  · next hspot =>
    cases h
    exact follow_holds hp hspot

/-- What is opened for writing is a file or a vacant place. -/
theorem openForWriting_eq_ok {spot : Spot} (h : d.openForWriting path = .ok spot) :
    d.follow true path (Path.steps path) = .ok spot ∧ ∀ a, spot ≠ .entry a .directory := by
  rw [openForWriting] at h
  split at h
  · split at h <;> cases h
  · split at h
    · cases h
    · next hspot =>
      refine ⟨h, fun a ha => ?_⟩
      subst ha
      exact hspot a h

theorem openForWriting_holds {spot : Spot} (hp : Path.isAbsolute path = true)
    (h : d.openForWriting path = .ok spot) : spot.Holds d.tree :=
  follow_holds hp (openForWriting_eq_ok h).1

/-- The last name of a path is that of the place it leads to. -/
theorem address_of_place {n : Text} {spot : Spot} (hp : Path.EndsIn path n)
    (h : d.place path = .ok spot) : ∃ above, spot.address = n :: above := by
  obtain ⟨ms, hms⟩ := hp.steps
  have hwalk := walk_of_follow hp.isAbsolute h
  rw [hms] at hwalk
  obtain ⟨above, habove⟩ := Tree.walk_concat hwalk
  rw [habove n hp.isStep] at hwalk
  exact ⟨above, Tree.address_of_walk_singleton hp.isStep hwalk⟩

/-- Where no link is, the last name of a path is that of the file it opens. -/
theorem address_of_openForWriting {n : Text} {spot : Spot}
    (hfree : ∀ a target, d.tree.get? a ≠ some (.link target)) (hp : Path.EndsIn path n)
    (h : d.openForWriting path = .ok spot) : ∃ above, spot.address = n :: above := by
  obtain ⟨ms, hms⟩ := hp.steps
  have hwalk := walk_of_follow hp.isAbsolute (openForWriting_eq_ok h).1
  rw [hms] at hwalk
  exact Tree.address_of_walk_of_linkFree hfree rfl hp.isStep hwalk

/-- Names put after the same path lead into the same directory. -/
theorem address_of_place_siblings {a : Address} {n m : Text} {spot spot' : Spot}
    (hn : Path.IsWay (n :: a)) (hm : Path.isStep m = true)
    (h : d.place (Path.ofAddress (n :: a)) = .ok spot)
    (h' : d.place (Path.ofAddress (m :: a)) = .ok spot') :
    ∃ above, spot.address = n :: above ∧ spot'.address = m :: above := by
  have hwalk := walk_of_follow (Path.isAbsolute_ofAddress _) h
  have hwalk' := walk_of_follow (Path.isAbsolute_ofAddress _) h'
  rw [Path.steps_ofAddress hn, List.reverse_cons] at hwalk
  rw [Path.steps_ofAddress (.cons hm hn.tail), List.reverse_cons] at hwalk'
  exact Tree.address_of_walk_siblings (hn n (by simp)) hm hwalk hwalk'

/-- Where no link stands above, a path leads to its own address or nowhere. -/
theorem address_of_place_plain {n : Text} {a : Address} {spot : Spot}
    (ha : Path.IsWay (n :: a)) (hplain : d.tree.Plain a)
    (h : d.place (Path.ofAddress (n :: a)) = .ok spot) : spot.address = n :: a := by
  cases hnode : d.tree.get? (n :: a) with
  | some node =>
    rw [place_of_get? hnode] at h
    cases h
    rfl
  | none =>
    have hplain' : d.tree.Plain (n :: a) := fun b hb target ht => by
      rcases List.suffix_cons_iff.1 hb with rfl | hb
      · cases hnode.symm.trans ht
      · exact hplain b hb target ht
    have hnul : ∀ m ∈ n :: a, '\x00' ∉ m := by
      refine Path.nul_not_mem_ofAddress.1 fun hmem => ?_
      rw [place, follow, if_neg (Path.ofAddress_ne_nil _), if_pos hmem] at h
      cases h
    have hmissing := place_of_missing ha hnul hplain' hnode
    rw [h] at hmissing
    cases hmissing with
    | vacant he => exact he.symm

/-- Where no link stands on a way nor at its end, writing goes to its end. -/
theorem address_of_openForWriting_plain {a : Address} {spot : Spot} (ha : Path.IsWay a)
    (hnul : ∀ n ∈ a, '\x00' ∉ n) (hplain : d.tree.Plain a)
    (h : d.openForWriting (Path.ofAddress a) = .ok spot) : spot.address = a := by
  have hfollow := (openForWriting_eq_ok h).1
  cases hget : d.tree.get? a with
  | none =>
    obtain ⟨spot', hmissing, hspot'⟩ := follow_of_missing true ha hnul hplain hget
    rw [hfollow] at hspot'
    subst hspot'
    cases hmissing with
    | vacant heq _ _ => exact heq.symm
  | some node =>
    rw [follow_of_get? hget fun _ target he => hplain a (List.suffix_refl a) target (he ▸ hget)]
      at hfollow
    cases hfollow
    rfl

theorem follow_true_of_false {steps : List Text} {r : Except OsError Spot}
    (h : d.follow false path steps = r) (hr : ∀ a target, r ≠ .ok (.entry a (.link target))) :
    d.follow true path steps = r := by
  rw [follow] at h ⊢
  split
  · next hnil => rwa [if_pos hnil] at h
  next hnil =>
  split
  · next hnul => rwa [if_neg hnil, if_pos hnul] at h
  next hnul =>
  rw [if_neg hnil, if_neg hnul] at h
  exact Tree.walk_true_of_false h hr

/-- What is at the place of a path is found by the path, unless it is a link. -/
theorem find_of_place {r : Except OsError Spot} (hp : Path.wantsDirectory path = false)
    (h : d.place path = r) (hr : ∀ a target, r ≠ .ok (.entry a (.link target))) :
    d.find path = match r with
      | .error e => .error e
      | .ok (.vacant _ _) => .error .notFound
      | .ok (.entry a node) => .ok (a, node) := by
  rw [find, Tree.stepsOf, hp, if_neg Bool.false_ne_true, follow_true_of_false h hr]
  rcases r with _ | _ | _ <;> rfl

theorem put_on_of_error [Medium] {e : OsError} (ht : Path.wantsDirectory path = false)
    (h : d.place path = .error e) (content : Bytes) (executable : Option Bool) :
    ∃ e', (put path content executable).on d = (.error e', d) := by
  have hfollow : d.follow true path (Path.steps path) = .error e := follow_true_of_false h (by simp)
  refine ⟨e, ?_⟩
  rw [put_on_spot, openForWriting, ht, if_neg Bool.false_ne_true, hfollow]

theorem put_on_of_directory [Medium] {a : Address} (ht : Path.wantsDirectory path = false)
    (h : d.place path = .ok (.entry a .directory)) (content : Bytes) (executable : Option Bool) :
    ∃ e', (put path content executable).on d = (.error e', d) := by
  have hfollow : d.follow true path (Path.steps path) = .ok (.entry a .directory) :=
    follow_true_of_false h (by simp)
  refine ⟨.isDirectory, ?_⟩
  rw [put_on_spot, openForWriting, ht, if_neg Bool.false_ne_true, hfollow]

/-- What cannot be moved is not copied either. -/
theorem copy_on_of_not_moved [Medium] {source target : Text} {e : OsError}
    (hs : Path.wantsDirectory source = false) (ht : Path.wantsDirectory target = false)
    (habs : Path.isAbsolute target = true) (h : ((move source target).on d).1 = .error e) :
    ∃ e', (copy source target).on d = (.error e', d) := by
  rw [copy, Action.on_bind, Action.on_consult]
  cases hfind : d.find source with
  | error e' => exact ⟨e', rfl⟩
  | ok found =>
    obtain ⟨a, node⟩ := found
    cases node with
    | directory => exact ⟨_, rfl⟩
    | link target' => exact ⟨_, rfl⟩
    | file content executable =>
      -- the source is there, so the move was refused for its target
      simp only
      rw [move_on] at h
      cases hsource : d.place source with
      | error e' => cases (find_of_place hs hsource (by simp)).symm.trans hfind
      | ok spot =>
        rw [hsource] at h
        cases spot with
        | vacant dir n => cases (find_of_place hs hsource (by simp)).symm.trans hfind
        | entry old node =>
          by_cases hnode : node = .directory
          · subst hnode
            cases (find_of_place hs hsource (by simp)).symm.trans hfind
          cases htarget : d.place target with
          | error e' => exact put_on_of_error ht htarget _ _
          | ok spot' =>
            rw [htarget] at h
            cases spot' with
            | vacant dir n => cases node <;> first | exact absurd rfl hnode | cases h
            | entry b node' =>
              by_cases hnode' : node' = .directory
              · subst hnode'
                exact put_on_of_directory ht htarget _ _
              · cases b with
                | nil => exact absurd (Option.some.inj (place_holds habs htarget)).symm hnode'
                | cons n dir =>
                  cases node <;> cases node' <;>
                    first | exact absurd rfl hnode | exact absurd rfl hnode' | cases h

end Disk

end ActionBundles
