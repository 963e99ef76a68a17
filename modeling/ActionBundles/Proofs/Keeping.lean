import ActionBundles.Proofs.Following

/-!
# What actions keep

A property of the tree is kept by an action if it holds after the action, failed or not, whenever
it held before. What is kept by each part of an action is kept by the whole.

The changes that the operating system makes are of one kind, `Tree.Gains`: at most one entry is
new, no directory goes, and nothing else is changed but that a file or link may be gone. So an
invariant is kept by everything that only gains entries which it allows.
-/

namespace ActionBundles

namespace Action

variable {ε ε' α β : Type} {P Q : Tree → Prop}

/-- A property of the tree that holds after an action if it held before. -/
def Keeps (P : Tree → Prop) (x : Action ε α) : Prop := ∀ d, P d.tree → P (x.on d).2.tree

theorem keeps_pure (a : α) : Keeps P (pure a : Action ε α) := fun _ h => h

theorem keeps_throw (e : ε) : Keeps P (throw e : Action ε α) := fun _ h => h

theorem keeps_ask (question : Disk → α) : Keeps P (ask question : Action ε α) := fun _ h => h

theorem Keeps.bind {x : Action ε α} {f : α → Action ε β} (hx : Keeps P x)
    (hf : ∀ a, Keeps P (f a)) : Keeps P (x >>= f) := by
  intro d h
  have hd := hx d h
  rw [on_bind]
  cases hr : x.on d with
  | mk r d' =>
    rw [hr] at hd
    cases r with
    | error e => exact hd
    | ok a => exact hf a d' hd

/-- What is known about the answer to a question may be used afterwards. -/
theorem keeps_bind_consult {question : Disk → Except ε α} {f : α → Action ε β}
    (h : ∀ d a, P d.tree → question d = .ok a → P ((f a).on d).2.tree) :
    Keeps P (consult question >>= f) := by
  intro d hd
  rw [on_bind, on_consult]
  cases hq : question d with
  | error e => exact hd
  | ok a => exact h d a hd hq

/-- What an action keeps may be what the rest starts from. -/
theorem Keeps.before {x : Action ε α} {f : α → Action ε β} (hx : Keeps P x)
    (hPQ : ∀ t, P t → Q t) (hf : ∀ a d, P d.tree → Q ((f a).on d).2.tree) (d : Disk)
    (h : P d.tree) : Q ((x >>= f).on d).2.tree := by
  have hd := hx d h
  rw [on_bind]
  cases hr : x.on d with
  | mk r d' =>
    rw [hr] at hd
    cases r with
    | error e => exact hPQ _ hd
    | ok a => exact hf a d' hd

theorem Keeps.attempt {x : Action ε α} (hx : Keeps P x) :
    Keeps P (x.attempt : Action ε' (Except ε α)) := fun d h => hx d h

theorem Keeps.within {x : Action OsError α} (hx : Keeps P x) (work : Work) :
    Keeps P (x.within work) := fun d h => by
  rw [on_within]
  exact hx d h

theorem Keeps.ite {p : Prop} [Decidable p] {x y : Action ε α} (hx : Keeps P x) (hy : Keeps P y) :
    Keeps P (if p then x else y) := by
  split
  · exact hx
  · exact hy

theorem keeps_forM {γ : Type} {l : List γ} {f : γ → Action ε Unit} (h : ∀ a ∈ l, Keeps P (f a)) :
    Keeps P (l.forM f) := by
  induction l with
  | nil => exact keeps_pure ()
  | cons a l ih =>
    exact (h a (by simp)).bind fun _ => ih fun b hb => h b (by simp [hb])

theorem Keeps.and {x : Action ε α} (hP : Keeps P x) (hQ : Keeps Q x) :
    Keeps (fun t => P t ∧ Q t) x := fun d h => ⟨hP d h.1, hQ d h.2⟩

end Action

namespace Tree

/-- `t'` has the directories of `t`, and nothing that is neither in `t` nor among `new`. -/
structure Gains (t t' : Tree) (new : List (Address × Node)) : Prop where
  directory : ∀ a, t.get? a = some .directory → t'.get? a = some .directory
  entry : ∀ a node, t'.get? a = some node → t.get? a = some node ∨ (a, node) ∈ new

theorem gains_set {t : Tree} {n : Text} {dir : Address} {node : Node} :
    t.Gains (t.set n dir node) [(n :: dir, node)] where
  directory a ha := by
    rw [get?_set]
    split
    · next h =>
      obtain ⟨hallows, rfl⟩ := h
      simp only [allows, Bool.and_eq_true, Bool.or_eq_true, decide_eq_true_eq] at hallows
      rcases hallows.2 with rfl | hne
      · rfl
      · exact absurd ha hne
    · exact ha
  entry a x hx := by
    rw [get?_set] at hx
    split at hx
    · next h =>
      cases hx
      exact .inr (by simp [h.2])
    · exact .inl hx

theorem gains_prune {t : Tree} {a : Address} (h : t.get? a ≠ some .directory) :
    t.Gains (t.prune a) [] where
  directory b hb := by
    rw [get?_prune_of_ne_directory h, if_neg fun he : b = a => h (he ▸ hb)]
    exact hb
  entry b x hx := by
    rw [get?_prune_of_ne_directory h] at hx
    split at hx
    · cases hx
    · exact .inl hx

theorem Gains.trans {t₁ t₂ t₃ : Tree} {new new' : List (Address × Node)} (h : t₁.Gains t₂ new)
    (h' : t₂.Gains t₃ new') : t₁.Gains t₃ (new ++ new') where
  directory a ha := h'.directory a (h.directory a ha)
  entry a x hx := by
    rcases h'.entry a x hx with hx | hx
    · rcases h.entry a x hx with hx | hx
      · exact .inl hx
      · exact .inr (List.mem_append_left _ hx)
    · exact .inr (List.mem_append_right _ hx)

end Tree

namespace Disk

open ActionBundles.Action

variable [Medium] {P : Tree → Prop} {path source target : Text}

/-- What holds with an entry and without it holds after the entry was to be added. -/
theorem holds_of_add {n : Text} {dir : Address} {node : Node} {d : Disk} (hd : P d.tree)
    (hset : P (d.tree.set n dir node)) : P ((add n dir node).on d).2.tree := by
  rw [add_on]
  split
  · exact hset
  · exact hd

theorem keeps_makeDirectory (path : Text)
    (h : ∀ t t' a, P t → t.Gains t' [(a, .directory)] → P t') :
    Keeps P (makeDirectory path) := by
  intro d hd
  rw [makeDirectory_on_place]
  cases d.place path with
  | error e => exact hd
  | ok spot =>
    cases spot with
    | entry a node => exact hd
    | vacant dir n => exact holds_of_add hd (h _ _ _ hd Tree.gains_set)

/-- What is kept by making a directory, and by making those that it lies in, is kept by making all
of them. -/
theorem keeps_makeDirectoriesWithin_succ {bound : Nat} (hmake : Keeps P (makeDirectory path))
    (habove : ∀ above, Path.parent? path = some above →
      Keeps P (makeDirectoriesWithin bound above)) :
    Keeps P (makeDirectoriesWithin (bound + 1) path) := by
  have hsettle : ∀ e, Keeps P (do
      unless ← Action.ask (·.isDirectory path) do throw e : Action OsError Unit) := fun e =>
    (keeps_ask _).bind fun there => Keeps.ite (keeps_pure ()) (keeps_throw e)
  refine Keeps.ite (keeps_pure ()) (hmake.attempt.bind fun first => ?_)
  obtain e | _ := first
  · cases e with
    | notFound =>
      dsimp only
      cases hparent : Path.parent? path with
      | none => exact keeps_throw _
      | some above =>
        refine (habove above hparent).bind fun _ => hmake.attempt.bind fun second => ?_
        cases second with
        | ok _ => exact keeps_pure ()
        | error e => exact hsettle e
    | _ => exact hsettle _
  · exact keeps_pure ()

theorem keeps_makeDirectoriesWithin (bound : Nat) (path : Text)
    (h : ∀ t t' a, P t → t.Gains t' [(a, .directory)] → P t') :
    Keeps P (makeDirectoriesWithin bound path) := by
  induction bound generalizing path with
  | zero => exact keeps_throw _
  | succ bound ih =>
    exact keeps_makeDirectoriesWithin_succ (keeps_makeDirectory path h) fun above _ => ih above

/-- What allows new directories is kept by making directories. -/
theorem keeps_makeDirectories (path : Text)
    (h : ∀ t t' a, P t → t.Gains t' [(a, .directory)] → P t') :
    Keeps P (makeDirectories path) := keeps_makeDirectoriesWithin _ path h

/-- What comes of filling a file: it has the content, or the medium is full and it has a first part
of the content. -/
theorem fill_cases (n : Text) (dir : Address) (content : Bytes) (mode : Bool) (d : Disk) :
    (fill n dir content mode).on d =
        (.ok (), { d with tree := d.tree.set n dir (.file content mode) }) ∨
      ∃ part, part <+: content ∧ (fill n dir content mode).on d =
        (.error .noSpace, { d with tree := d.tree.set n dir (.file part mode) }) := by
  rw [fill_on]
  cases Medium.stops d.tree (n :: dir) content with
  | none => exact .inl rfl
  | some k => exact .inr ⟨content.take k, List.take_prefix k content, rfl⟩

/-- What may come of putting a file: nothing, or the file in the place that the path leads to, with
all of its content or, if the medium is full, with the first part of it. -/
inductive Putting (path : Text) (content : Bytes) (executable : Option Bool) (d : Disk) :
    Except OsError Unit × Disk → Prop
  | refused (e : OsError) : Putting path content executable d (.error e, d)
  | stopped (n : Text) (dir : Address) (spot : Spot) (part : Bytes) (mode : Bool)
      (hopen : d.openForWriting path = .ok spot) (hspot : spot.address = n :: dir)
      (hpart : part <+: content) :
      Putting path content executable d
        (.error .noSpace, { d with tree := d.tree.set n dir (.file part mode) })
  | done (n : Text) (dir : Address) (spot : Spot) (mode : Bool)
      (hopen : d.openForWriting path = .ok spot) (hspot : spot.address = n :: dir)
      (hmode : spot = .vacant dir n → mode = executable.getD false) :
      Putting path content executable d
        (.ok (), { d with tree := d.tree.set n dir (.file content mode) })

theorem putting (path : Text) (content : Bytes) (executable : Option Bool) (d : Disk) :
    Putting path content executable d ((put path content executable).on d) := by
  rw [put_on_spot]
  cases hopen : d.openForWriting path with
  | error e => exact .refused e
  | ok spot =>
    cases spot with
    | vacant dir n =>
      dsimp only
      rw [on_bind, add_on]
      cases Medium.adds d.tree (n :: dir) with
      | false => exact .refused _
      | true =>
        -- the new file is there before it is filled
        rw [if_pos rfl]
        dsimp only
        rcases fill_cases n dir content (executable.getD false)
          { d with tree := d.tree.set n dir (.file [] (executable.getD false)) } with
          he | ⟨part, hpart, he⟩
        · rw [he, Tree.set_file_set_file]
          exact .done n dir _ _ hopen rfl fun _ => rfl
        · rw [he, Tree.set_file_set_file]
          exact .stopped n dir _ part _ hopen rfl hpart
    | entry a node =>
      cases a with
      | nil => exact .refused _
      | cons n dir =>
        cases node with
        | file old mode =>
          dsimp only
          rcases fill_cases n dir content (executable.getD mode) d with he | ⟨part, hpart, he⟩
          · rw [he]
            exact .done n dir _ _ hopen rfl nofun
          · rw [he]
            exact .stopped n dir _ part _ hopen rfl hpart
        | directory => exact .refused _
        | link target => exact .refused _

/-- What the tree gains if a file is put. -/
theorem put_gains (path : Text) (content : Bytes) (executable : Option Bool) (d : Disk) :
    ((put path content executable).on d).2 = d ∨ ∃ spot part mode,
      d.openForWriting path = .ok spot ∧ part <+: content ∧
        d.tree.Gains ((put path content executable).on d).2.tree
          [(spot.address, .file part mode)] := by
  have hputting := putting path content executable d
  generalize (put path content executable).on d = ended at hputting ⊢
  cases hputting with
  | refused => exact .inl rfl
  | stopped n dir spot part mode hopen hspot hpart =>
    exact .inr ⟨spot, part, mode, hopen, hpart, hspot ▸ Tree.gains_set⟩
  | done n dir spot mode hopen hspot =>
    exact .inr ⟨spot, content, mode, hopen, List.prefix_refl _, hspot ▸ Tree.gains_set⟩

/-- A file that is put without a failure is there, with all of its content; a new one is not
executable if nothing is said of it. -/
theorem exists_of_put {content : Bytes} {executable : Option Bool} {d d' : Disk}
    (habs : Path.isAbsolute path = true) (h : (put path content executable).on d = (.ok (), d')) :
    ∃ n dir mode spot, d.openForWriting path = .ok spot ∧ spot.address = n :: dir ∧
      d.tree.get? dir = some .directory ∧ d.tree.get? (n :: dir) ≠ some .directory ∧
        (d.tree.get? (n :: dir) = none → mode = executable.getD false) ∧
        d' = { d with tree := d.tree.set n dir (.file content mode) } := by
  have hputting := putting path content executable d
  rw [h] at hputting
  cases hputting with
  | done n dir spot mode hopen hspot hmode =>
    have hholds := openForWriting_holds habs hopen
    cases spot with
    | vacant dir' n' =>
      cases hspot
      exact ⟨n, dir, mode, _, hopen, rfl, hholds.1, by simp [hholds.2], fun _ => hmode rfl, rfl⟩
    | entry a node =>
      cases hspot
      have hthere : d.tree.get? (n :: dir) = some node := hholds
      refine ⟨n, dir, mode, _, hopen, rfl, Tree.get?_dir hthere, fun hdir => ?_, by simp [hthere],
        rfl⟩
      obtain rfl := Option.some.inj (hthere.symm.trans hdir)
      exact (openForWriting_eq_ok hopen).2 _ rfl

theorem keeps_put {content : Bytes} {executable : Option Bool}
    (h : ∀ (d : Disk) t' spot part mode, P d.tree → d.openForWriting path = .ok spot →
      part <+: content → d.tree.Gains t' [(spot.address, .file part mode)] → P t') :
    Keeps P (put path content executable) := by
  intro d hd
  rcases put_gains path content executable d with he | ⟨spot, part, mode, hopen, hpart, hgains⟩
  · rwa [he]
  · exact h d _ spot part mode hd hopen hpart hgains

theorem keeps_touch
    (h : ∀ (d : Disk) t' spot mode, P d.tree → d.openForWriting path = .ok spot →
      d.tree.Gains t' [(spot.address, .file [] mode)] → P t') :
    Keeps P (touch path) := by
  intro d hd
  rw [touch_on_spot]
  cases hopen : d.openForWriting path with
  | error e => exact hd
  | ok spot =>
    cases spot with
    | vacant dir n => exact holds_of_add hd (h d _ _ _ hd hopen Tree.gains_set)
    | entry a node => exact hd

theorem keeps_copy
    (h : ∀ (d : Disk) t' a content part mode mode' spot, P d.tree →
      d.find source = .ok (a, .file content mode) → d.openForWriting target = .ok spot →
      part <+: content → d.tree.Gains t' [(spot.address, .file part mode')] → P t') :
    Keeps P (copy source target) := by
  refine keeps_bind_consult fun d found hd hfound => ?_
  obtain ⟨a, node⟩ := found
  cases node with
  | directory => exact hd
  | link target' => exact hd
  | file content mode =>
    rcases put_gains target content (some mode) d with
      he | ⟨spot, part, mode', hopen, hpart, hgains⟩
    · show P ((put target content (some mode)).on d).2.tree
      rwa [he]
    · exact h d _ a content part mode mode' spot hd hfound hopen hpart hgains

omit [Medium] in
theorem keeps_makeExecutable (hp : Path.isAbsolute path = true)
    (h : ∀ t t' a content mode, P t → t.get? a = some (.file content mode) →
      t.Gains t' [(a, .file content true)] → P t') :
    Keeps P (makeExecutable path) := by
  intro d hd
  rw [makeExecutable_on]
  cases hfound : d.find path with
  | error e => exact hd
  | ok found =>
    obtain ⟨a, node⟩ := found
    cases a with
    | nil => exact hd
    | cons n dir =>
      cases node with
      | directory => exact hd
      | link target => exact hd
      | file content mode =>
        exact h d.tree _ _ content mode hd (find_holds hp hfound) Tree.gains_set

omit [Medium] in
/-- What comes of a move: nothing, or the entry that was moved in its new place. -/
theorem move_gains (hs : Path.isAbsolute source = true) (target : Text) (d : Disk) :
    ((move source target).on d).2 = d ∨ ∃ old node spot, d.place source = .ok (.entry old node) ∧
      node ≠ .directory ∧ d.tree.get? old = some node ∧ d.place target = .ok spot ∧
      d.tree.Gains ((move source target).on d).2.tree [(spot.address, node)] := by
  rw [move_on]
  split
  · exact .inl rfl
  · exact .inl rfl
  · exact .inl rfl
  · next old node hnode hsource =>
    have hold : d.tree.get? old = some node := place_holds hs hsource
    have hgains : ∀ n dir, d.tree.Gains ((d.tree.prune old).set n dir node) [(n :: dir, node)] :=
      fun n dir => (Tree.gains_prune (by simpa [hold] using hnode)).trans Tree.gains_set
    split
    · exact .inl rfl
    · exact .inl rfl
    · exact .inl rfl
    · next n dir there _ htarget =>
      split
      · exact .inl rfl
      · exact .inr ⟨old, node, _, hsource, hnode, hold, htarget, hgains n dir⟩
    · next dir n htarget =>
      exact .inr ⟨old, node, _, hsource, hnode, hold, htarget, hgains n dir⟩

omit [Medium] in
/-- A move makes the entry that was moved new in its place. -/
theorem keeps_move (hs : Path.isAbsolute source = true)
    (h : ∀ (d : Disk) t' old node spot, P d.tree → d.place source = .ok (.entry old node) →
      node ≠ .directory → d.tree.get? old = some node → d.place target = .ok spot →
      d.tree.Gains t' [(spot.address, node)] → P t') :
    Keeps P (move source target) := by
  intro d hd
  rcases move_gains hs target d with
    he | ⟨old, node, spot, hsource, hnode, hold, hspot, hgains⟩
  · rwa [he]
  · exact h d _ old node spot hd hsource hnode hold hspot hgains

omit [Medium] in
theorem keeps_removeFile (hp : Path.isAbsolute path = true)
    (h : ∀ t t', P t → t.Gains t' [] → P t') : Keeps P (removeFile path) := by
  intro d hd
  rw [removeFile_on]
  cases hplace : d.place path with
  | error e => exact hd
  | ok spot =>
    cases spot with
    | vacant dir n => exact hd
    | entry a node =>
      have ha : d.tree.get? a = some node := place_holds hp hplace
      cases node with
      | directory => exact hd
      | file content mode => exact h _ _ hd (Tree.gains_prune (by simp [ha]))
      | link target => exact h _ _ hd (Tree.gains_prune (by simp [ha]))

end Disk

end ActionBundles
