import ActionBundles.Proofs.Commands
import ActionBundles.Proofs.Keeping

/-!
# The working directory

No action changes the directory that relative paths start from, so a path means the same before a
run and after it (`Command.workingDirectory_outcome`).
-/

namespace ActionBundles

namespace Action

variable {ε ε' α β : Type}

/-- An action that leaves the working directory as it is. -/
def Stays (x : Action ε α) : Prop := ∀ d, (x.on d).2.workingDirectory = d.workingDirectory

theorem stays_pure (a : α) : Stays (pure a : Action ε α) := fun _ => rfl

theorem stays_throw (e : ε) : Stays (throw e : Action ε α) := fun _ => rfl

theorem stays_ask (question : Disk → α) : Stays (ask question : Action ε α) := fun _ => rfl

theorem stays_consult (question : Disk → Except ε α) : Stays (consult question) := fun d => by
  rw [on_consult]

theorem stays_change (f : Tree → Tree) : Stays (change f : Action ε Unit) := fun _ => rfl

theorem Stays.bind {x : Action ε α} {f : α → Action ε β} (hx : Stays x) (hf : ∀ a, Stays (f a)) :
    Stays (x >>= f) := fun d => by
  have hfirst := hx d
  rw [on_bind]
  generalize x.on d = done at hfirst
  obtain ⟨e | a, d'⟩ := done
  · exact hfirst
  · exact (hf a d').trans hfirst

theorem Stays.attempt {x : Action ε α} (hx : Stays x) :
    Stays (x.attempt : Action ε' (Except ε α)) := fun d => hx d

theorem Stays.within {x : Action OsError α} (hx : Stays x) (work : Work) :
    Stays (x.within work) := fun d => by
  rw [on_within]
  exact hx d

theorem Stays.during {x : Action Failure α} (hx : Stays x) (work : Work) :
    Stays (x.during work) := fun d => by
  rw [on_during]
  exact hx d

theorem Stays.ite {p : Prop} [Decidable p] {x y : Action ε α} (hx : Stays x) (hy : Stays y) :
    Stays (if p then x else y) := by
  split
  · exact hx
  · exact hy

theorem stays_forM {γ : Type} {l : List γ} {f : γ → Action ε Unit} (h : ∀ a, Stays (f a)) :
    Stays (l.forM f) := by
  induction l with
  | nil => exact stays_pure ()
  | cons a l ih => exact (h a).bind fun _ => ih

end Action

open ActionBundles.Action

/-! ### The file system -/

namespace Disk

section Writing

variable [Medium] (path source target : Text)

theorem stays_add (n : Text) (dir : Address) (node : Node) : Stays (add n dir node) :=
  (stays_ask _).bind fun _ => Stays.ite (stays_change _) (stays_throw _)

theorem stays_fill (n : Text) (dir : Address) (content : Bytes) (executable : Bool) :
    Stays (fill n dir content executable) :=
  (stays_ask _).bind fun stop => by
    cases stop with
    | none => exact stays_change _
    | some k => exact (stays_change _).bind fun _ => stays_throw _

theorem stays_makeDirectory : Stays (makeDirectory path) :=
  (stays_consult _).bind fun spot => by
    cases spot with
    | entry a node => exact stays_throw _
    | vacant dir n => exact stays_add _ _ _

theorem stays_makeDirectoriesWithin (bound : Nat) : Stays (makeDirectoriesWithin bound path) := by
  induction bound generalizing path with
  | zero => exact stays_throw _
  | succ bound ih =>
    have hsettle : ∀ e, Stays (do
        unless ← Action.ask (·.isDirectory path) do throw e : Action OsError Unit) := fun e =>
      (stays_ask _).bind fun there => Stays.ite (stays_pure ()) (stays_throw e)
    refine Stays.ite (stays_pure ()) ((stays_makeDirectory path).attempt.bind fun first => ?_)
    obtain e | _ := first
    · cases e with
      | notFound =>
        dsimp only
        cases Path.parent? path with
        | none => exact stays_throw _
        | some above =>
          refine (ih above).bind fun _ => (stays_makeDirectory path).attempt.bind fun second => ?_
          cases second with
          | ok _ => exact stays_pure ()
          | error e => exact hsettle e
      | _ => exact hsettle _
    · exact stays_pure ()

theorem stays_makeDirectories : Stays (makeDirectories path) := stays_makeDirectoriesWithin path _

theorem stays_put (content : Bytes) (executable : Option Bool) :
    Stays (put path content executable) :=
  (stays_consult _).bind fun spot => by
    split
    · exact (stays_add _ _ _).bind fun _ => stays_fill _ _ _ _
    · exact stays_fill _ _ _ _
    · exact stays_throw _

theorem stays_touch : Stays (touch path) :=
  (stays_consult _).bind fun spot => by
    split
    · exact stays_add _ _ _
    · exact stays_pure ()

theorem stays_copy : Stays (copy source target) :=
  (stays_consult _).bind fun found => by
    split
    · exact stays_put target _ _
    · exact stays_throw _

end Writing

variable (path source target : Text)

theorem stays_makeExecutable : Stays (makeExecutable path) :=
  (stays_consult _).bind fun found => by
    split
    · exact stays_change _
    · exact stays_pure ()

theorem stays_move : Stays (move source target) :=
  (stays_consult _).bind fun spot => by
    split
    · exact stays_throw _
    · exact stays_throw _
    · refine (stays_consult _).bind fun place => ?_
      split
      · exact stays_throw _
      · exact stays_throw _
      · exact Stays.ite (stays_pure ()) (stays_change _)
      · exact stays_change _

theorem stays_removeFile : Stays (removeFile path) :=
  (stays_consult _).bind fun spot => by
    split
    · exact stays_throw _
    · exact stays_throw _
    · exact stays_change _

theorem stays_removeAll : Stays (removeAll path) :=
  (stays_consult _).bind fun spot => by
    split
    · exact stays_throw _
    · exact stays_change _

end Disk

/-! ### Transactions -/

namespace Transaction

variable [Medium] (tx : Transaction) (path place backup : Text)

theorem stays_start (transactions name : Text) : Stays (start transactions name) :=
  ((Disk.stays_makeDirectories _).within _).bind fun _ =>
    ((Disk.stays_makeDirectory _).within _).bind fun _ => stays_pure _

theorem stays_makeParent : Stays (makeParent path) := by
  rw [makeParent]
  split
  · exact stays_pure ()
  · exact (Disk.stays_makeDirectories _).within _

theorem stays_stage (rel : Text) (content : Bytes) : Stays (tx.stage rel content) :=
  (stays_makeParent _).bind fun _ => (Disk.stays_put _ content none).within _

theorem stays_stageExecutable (rel : Text) (content : Bytes) :
    Stays (tx.stageExecutable rel content) :=
  (stays_stage tx rel content).bind fun _ => (Disk.stays_makeExecutable _).within _

theorem stays_moveOrCopy (source target : Text) : Stays (moveOrCopy source target) :=
  (Disk.stays_move source target).attempt.bind fun outcome => by
    cases outcome with
    | ok _ => exact stays_pure ()
    | error e => exact Disk.stays_copy source target

theorem stays_keep : Stays (keep place backup) :=
  (stays_ask _).bind fun _ => Stays.ite
    ((stays_makeParent _).bind fun _ => ((stays_moveOrCopy _ _).within _).bind fun _ => stays_pure _)
    (stays_pure _)

theorem stays_put (source : Text) : Stays (put source place) :=
  (stays_makeParent _).bind fun _ => ((Disk.stays_copy _ _).within _).bind fun _ =>
    (Disk.stays_move _ _).within _

omit [Medium] in
theorem stays_withdraw : Stays (withdraw place) :=
  (stays_ask _).bind fun _ => Stays.ite
    ((Disk.stays_removeFile _).attempt.bind fun _ => stays_pure _) (stays_pure _)

theorem stays_restore : Stays (restore place backup) :=
  (stays_makeParent _).attempt.bind fun _ => (stays_moveOrCopy _ _).attempt.bind fun _ =>
    stays_pure _

theorem stays_rollBack (p : Published) : Stays (rollBack p) :=
  (stays_forM stays_withdraw).bind fun _ => stays_forM fun kept => stays_restore kept.1 kept.2

theorem stays_publishEach (root : Text) (p : Published) (rels : List Text) :
    Stays (tx.publishEach root p rels) := by
  have hundo : ∀ (p : Published) (e : Failure),
      Stays (do rollBack p; throw e : Action Failure (List Text)) := fun p e =>
    (stays_rollBack p).bind fun _ => stays_throw e
  induction rels generalizing p with
  | nil => exact stays_pure _
  | cons rel rest ih =>
    refine (stays_keep _ _).attempt.bind fun kept => ?_
    cases kept with
    | error e => exact hundo p e
    | ok isKept =>
      refine (stays_put _ _).attempt.bind fun done => ?_
      cases done with
      | error e => exact hundo _ e
      | ok _ => exact ih _

theorem stays_publish (root : Text) : Stays (tx.publish root) :=
  (stays_ask _).bind fun _ => Stays.ite
    (((stays_consult _).within _).bind fun _ =>
      ((Disk.stays_makeDirectories _).within _).bind fun _ => stays_publishEach tx root _ _)
    (stays_pure _)

theorem stays_run {α : Type} (transactions name : Text) {work : Transaction → Action Failure α}
    (h : ∀ tx, Stays (work tx)) : Stays (run transactions name work) :=
  (stays_start _ _).bind fun tx => (h tx).attempt.bind fun outcome =>
    ((Disk.stays_removeAll _).attempt.bind fun _ => stays_pure _).bind fun _ => by
      cases outcome with
      | ok a => exact stays_pure a
      | error e => exact stays_throw e

end Transaction

/-! ### Generating -/

theorem Manifest.stays_save [Medium] (l : Layout) (m : Manifest) : Stays (m.save l) :=
  ((Disk.stays_makeDirectories _).within _).bind fun _ =>
    ((Disk.stays_put _ _ _).within _).bind fun _ => (Disk.stays_move _ _).within _

theorem Manifest.stays_lock [Medium] (l : Layout) : Stays (lock l) :=
  ((Disk.stays_makeDirectories _).within _).bind fun _ => (Disk.stays_touch _).within _

namespace Project

variable [Medium] (p : Project) (occasion : Occasion)

theorem stays_publish (l : Layout) (plan : Plan) : Stays (publish l occasion plan) :=
  Transaction.stays_run _ _ fun tx =>
    (Transaction.stays_stage tx _ _).bind fun _ => (Transaction.stays_stage tx _ _).bind fun _ =>
      (Transaction.stays_stageExecutable tx _ _).bind fun _ =>
        (Transaction.stays_stage tx _ _).bind fun _ => (Transaction.stays_publish tx _).during _

theorem stays_generate (m : Manifest) (path : Text) : Stays (p.generate occasion m path) :=
  (stays_consult _).bind fun _ => (stays_consult _).bind fun _ =>
    (stays_publish occasion _ _).bind fun _ => (Manifest.stays_save _ _).bind fun _ => stays_pure _

theorem workingDirectory_batch (m : Manifest) (models : List Text) (d : Disk) :
    (p.batch occasion m models d).2.workingDirectory = d.workingDirectory := by
  refine holds_of_batch (P := fun _ d' => d'.workingDirectory = d.workingDirectory)
    (fun _ _ h => h) (fun m path d₁ g m' d₂ h hgenerate => ?_)
    (fun m path d₁ e d₂ h hgenerate => ?_) rfl models
  · have hstays := stays_generate p occasion m path d₁
    rw [hgenerate] at hstays
    exact hstays.trans h
  · have hstays := stays_generate p occasion m path d₁
    rw [hgenerate] at hstays
    exact ⟨hstays.trans h, fun _ _ => hstays.trans h⟩

end Project

namespace Command

theorem stays_openProject [Medium] (root : Text) (strict : Bool) :
    Stays (openProject root strict) :=
  (stays_consult _).bind fun _ => (Manifest.stays_lock _).bind fun _ => (stays_consult _).bind
    fun _ => stays_pure _

/-- Generating all actions leaves the working directory as it is. -/
theorem workingDirectory_outcome [Medium] (occasion : Occasion) (root : Text) (strict : Bool)
    (d : Disk) :
    (outcome occasion (.generate root none strict) d).2.workingDirectory = d.workingDirectory := by
  have hopen := stays_openProject root strict d
  rw [outcome_generate_all]
  generalize (openProject root strict).on d = opened at hopen
  obtain ⟨e | ⟨p, m⟩, d'⟩ := opened
  · exact hopen
  · dsimp only
    cases p.layout.discover d' with
    | error e => exact hopen
    | ok models =>
      dsimp only
      split
      · exact hopen
      · exact (Project.workingDirectory_batch p occasion m models d').trans hopen

end Command

end ActionBundles
