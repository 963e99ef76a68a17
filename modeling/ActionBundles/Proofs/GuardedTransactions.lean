import ActionBundles.Proofs.Guarded
import ActionBundles.Proofs.PublishingSteps
import ActionBundles.Proofs.Regions

/-!
# Transactions and the manifest

A transaction leaves the manifest guarded, whatever links there are. While files are gathered, the
directory of the transaction holds nothing but directories and files of bundles, which are no
manifests (`Gathering`). While they are published, that still holds of what was gathered, and a
link that was kept stands only where one of the files is to be kept (`Publishing`); so no way leads
from what is kept to what was gathered, and what is copied into a draft is never a manifest.
-/

namespace ActionBundles

namespace Transaction

open ActionBundles.Action Project

variable {links : Bool} {a r : Address} {t t' : Tree}

/-- The names of the files of a bundle. -/
def bundleNames : List Text :=
  [Bundle.descriptorName, Bundle.dockerfileName, Bundle.entrypointName, SyncRecord.fileName]

theorem ne_of_mem_bundleNames {n : Text} (h : n ∈ bundleNames) :
    n ∉ ownNames ∧ n ≠ "staging".toList ∧ n ≠ "backup".toList ∧ Path.isStep n = true := by
  have hall : ∀ m ∈ bundleNames, m ∉ ownNames ∧ m ≠ "staging".toList ∧ m ≠ "backup".toList ∧
      Path.isStep m = true := by decide
  exact hall n h

theorem draftName_not_mem {n : Text} (h : n ∈ bundleNames) :
    draftName n ∉ bundleNames ∧ draftName n ≠ "manifest.json".toList := by
  have hall : ∀ m ∈ bundleNames, draftName m ∉ bundleNames ∧
      draftName m ≠ "manifest.json".toList := by decide
  exact hall n h

/-! ### Gathering -/

/-- A new entry that is a directory, or a file of a bundle that is no manifest if it lies in `r`. -/
def GathersEntry (r : Address) (e : Address × Node) : Prop :=
  ∀ b, e.1 = b ++ r → e.2 = .directory ∨ ∃ n c content mode, b = n :: c ∧ n ∈ bundleNames ∧
    e.2 = .file content mode ∧ Manifest.IsForeign content

/-- The directory `r` holds nothing but directories and files of bundles. -/
structure Gathering (r : Address) (t : Tree) : Prop where
  directory : t.get? r = some .directory
  entry : ∀ b node, t.get? (b ++ r) = some node → GathersEntry r (b ++ r, node)

theorem Gathering.gains {new : List (Address × Node)} (h : Gathering r t) (hgains : t.Gains t' new)
    (hnew : ∀ e ∈ new, GathersEntry r e) : Gathering r t' where
  directory := hgains.directory r h.directory
  entry b node hb := by
    rcases hgains.entry _ node hb with hb | hmem
    · exact h.entry b node hb
    · exact hnew _ hmem

theorem Gathering.noLinks (h : Gathering r t) : t.NoLinksIn r := by
  intro b target hlink
  rcases h.entry b _ hlink b rfl with hdir | ⟨_, _, _, _, -, -, hfile, -⟩
  · cases hdir
  · cases hfile

theorem gathering_makeDirectories [Medium] (path : Text) :
    Keeps (Gathering r) (Disk.makeDirectories path) :=
  Disk.keeps_makeDirectories path fun _ _ _ h hgains => h.gains hgains fun e he _ _ => by
    obtain rfl := List.mem_singleton.1 he
    exact .inl rfl

/-- A path that ends with the name of a file of a bundle and never leads above `r`. -/
structure LeadsInto (r : Address) (path n : Text) : Prop where
  isAbsolute : Path.isAbsolute path = true
  name : n ∈ bundleNames
  steps : ∃ ms, Path.steps path = r.reverse ++ (ms ++ [n]) ∧ Path.staysBelow 0 (ms ++ [n]) = true

theorem LeadsInto.endsIn {path n : Text} (h : LeadsInto r path n) : Path.EndsIn path n where
  isAbsolute := h.isAbsolute
  isStep := (ne_of_mem_bundleNames h.name).2.2.2
  steps := by
    obtain ⟨ms, hsteps, -⟩ := h.steps
    exact ⟨r.reverse ++ ms, by rw [hsteps, List.append_assoc]⟩

theorem LeadsInto.ne_manifest {path n : Text} (h : LeadsInto r path n) :
    n ≠ "manifest.json".toList := fun he =>
  (ne_of_mem_bundleNames h.name).1 (he ▸ by decide)

/-- Where such a path opens a file, the file has the path's last name and lies in `r`. -/
theorem Gathering.address_of_openForWriting {d : Disk} (h : Gathering r d.tree) {path n : Text}
    {spot : Spot} (hpath : LeadsInto r path n) (hspot : d.openForWriting path = .ok spot) :
    ∃ c, spot.address = n :: (c ++ r) := by
  obtain ⟨ms, hsteps, hbelow⟩ := hpath.steps
  have hwalk := Disk.walk_of_follow hpath.isAbsolute (Disk.openForWriting_eq_ok hspot).1
  have hdown : d.tree.leg true [] r.reverse = .ok (.end_ (.entry r .directory)) := by
    have hget : d.tree.get? (r.reverse.reverse ++ []) = some .directory := by
      rw [List.reverse_reverse, List.append_nil]
      exact h.directory
    have hleg : d.tree.leg true [] r.reverse = _ := Tree.leg_of_get? rfl hget (by simp)
    rwa [List.reverse_reverse, List.append_nil] at hleg
  have hleg : d.tree.leg true [] (Path.steps path) = d.tree.leg true r (ms ++ [n]) := by
    rw [hsteps, Tree.leg_append _ (by simp), hdown]
    rfl
  cases hfirst : d.tree.leg true r (ms ++ [n]) with
  | error e =>
    rw [Tree.walk_of_error (hleg.trans hfirst)] at hwalk
    cases hwalk
  | ok first =>
    obtain ⟨spot', c, rfl, hc⟩ := Tree.address_of_leg_stays h.noLinks hpath.endsIn.isStep hbelow
      hfirst
    rw [Tree.walk_of_end (hleg.trans hfirst)] at hwalk
    cases hwalk
    exact ⟨c, hc⟩

theorem gathering_put [Medium] {path n : Text} {content : Bytes} {executable : Option Bool}
    (hpath : LeadsInto r path n) (hforeign : Manifest.IsForeign content) :
    Keeps (Gathering r) (Disk.put path content executable) :=
  Disk.keeps_put fun d _ spot part mode h hspot hpart hgains => h.gains hgains fun e he b hb => by
    obtain rfl := List.mem_singleton.1 he
    obtain ⟨c, hc⟩ := h.address_of_openForWriting hpath hspot
    have hb : n :: (c ++ r) = b ++ r := hc ▸ hb
    have hb : n :: c = b := List.append_cancel_right hb
    exact .inr ⟨n, c, part, mode, hb.symm, hpath.name, rfl, hforeign.of_prefix hpart⟩

theorem gathering_makeExecutable {path : Text} (hp : Path.isAbsolute path = true) :
    Keeps (Gathering r) (Disk.makeExecutable path) :=
  Disk.keeps_makeExecutable hp fun t _ c content mode h hfile hgains =>
    h.gains hgains fun e he b hb => by
      obtain rfl := List.mem_singleton.1 he
      obtain rfl : c = b ++ r := hb
      rcases h.entry b _ hfile b rfl with hdir | ⟨n, c, content', mode', hc, hn, hfile', hforeign⟩
      · cases hdir
      · cases hfile'
        exact .inr ⟨n, c, content, true, hc, hn, rfl, hforeign⟩

theorem keeps_makeParent [Medium] {P : Tree → Prop}
    (h : ∀ path, Keeps P (Disk.makeDirectories path)) (path : Text) : Keeps P (makeParent path) := by
  rw [makeParent]
  split
  · exact keeps_pure ()
  · exact (h _).within _

/-- What gathering a file keeps: the guard, and that only bundles are gathered. -/
theorem keeps_stage [Medium] {tx : Transaction} {rel n : Text} {content : Bytes}
    (hpath : LeadsInto r (Path.join tx.stagingDir rel) n)
    (hforeign : Manifest.IsForeign content) :
    Keeps (fun t => Guarded links a t ∧ Gathering r t) (tx.stage rel content) := by
  refine (keeps_makeParent (fun path => ?_) _).bind fun _ => Keeps.within ?_ _
  · exact (guarded_makeDirectories path).and (gathering_makeDirectories path)
  · exact (guarded_put hpath.endsIn (hpath.ne_manifest) hforeign).and
      (gathering_put hpath hforeign)

theorem keeps_stageExecutable [Medium] {tx : Transaction} {rel n : Text} {content : Bytes}
    (hpath : LeadsInto r (Path.join tx.stagingDir rel) n)
    (hforeign : Manifest.IsForeign content) :
    Keeps (fun t => Guarded links a t ∧ Gathering r t) (tx.stageExecutable rel content) :=
  (keeps_stage hpath hforeign).bind fun _ =>
    ((guarded_makeExecutable hpath.isAbsolute).and
      (gathering_makeExecutable hpath.isAbsolute)).within _

/-! ### Publishing -/

/-- The addresses of the files of a bundle below where they are gathered: none lies in another. -/
structure AreFiles (rels : List Address) : Prop where
  name : ∀ b ∈ rels, ∃ n c, b = n :: c ∧ n ∈ bundleNames
  isName : ∀ b ∈ rels, ∀ k ∈ b, isName k = true
  eq_of_suffix : ∀ b ∈ rels, ∀ c ∈ rels, c <:+ b → c = b

theorem AreFiles.isWay {rels : List Address} (h : AreFiles rels) {b : Address} (hb : b ∈ rels) :
    Path.IsWay b := fun k hk => isStep_of_isName (h.isName b hb k hk)

/-- The files of `rels` are being published: what was gathered is no manifest, and a link that was
kept stands where one of the files is to be kept. -/
structure Publishing (r : Address) (rels : List Address) (t : Tree) : Prop where
  staging : t.get? (stagingAddress r) = some .directory
  staged : ∀ b node, t.get? (b ++ stagingAddress r) = some node → node = .directory ∨
    ∃ content mode, node = .file content mode ∧ Manifest.IsForeign content
  kept : ∀ b target, t.get? (b ++ backupAddress r) = some (.link target) → b ∈ rels

/-- A new entry that is allowed while files are published. -/
structure Publishes (r : Address) (rels : List Address) (e : Address × Node) : Prop where
  staged : ∀ b, e.1 = b ++ stagingAddress r → e.2 = .directory ∨
    ∃ content mode, e.2 = .file content mode ∧ Manifest.IsForeign content
  kept : ∀ b target, e.1 = b ++ backupAddress r → e.2 = .link target → b ∈ rels

variable {rels : List Address}

theorem Publishing.gains {new : List (Address × Node)} (h : Publishing r rels t)
    (hgains : t.Gains t' new) (hnew : ∀ e ∈ new, Publishes r rels e) : Publishing r rels t' where
  staging := hgains.directory _ h.staging
  staged b node hb := by
    rcases hgains.entry _ node hb with hb | hmem
    · exact h.staged b node hb
    · exact (hnew _ hmem).staged b rfl
  kept b target hb := by
    rcases hgains.entry _ _ hb with hb | hmem
    · exact h.kept b target hb
    · exact (hnew _ hmem).kept b target rfl rfl

theorem publishes_directory (b : Address) : Publishes r rels (b, .directory) where
  staged _ _ := .inl rfl
  kept _ _ _ h := by cases h

theorem publishes_foreign {b : Address} {content : Bytes} {mode : Bool}
    (h : Manifest.IsForeign content) : Publishes r rels (b, .file content mode) where
  staged _ _ := .inr ⟨content, mode, rfl, h⟩
  kept _ _ _ h := by cases h

theorem publishing_makeDirectories [Medium] (path : Text) :
    Keeps (Publishing r rels) (Disk.makeDirectories path) :=
  Disk.keeps_makeDirectories path fun _ _ b h hgains => h.gains hgains fun e he => by
    obtain rfl := List.mem_singleton.1 he
    exact publishes_directory b

theorem Publishing.directory (h : Publishing r rels t) : t.get? r = some .directory :=
  Tree.get?_dir h.staging

/-- No link stands on the way to where a file is to be kept. -/
theorem Publishing.plain_backup (h : Publishing r rels t) (hfiles : AreFiles rels) {n : Text}
    {c : Address} (hb : n :: c ∈ rels) : t.Plain (c ++ backupAddress r) := by
  intro s hs target hlink
  rcases List.suffix_or_suffix_of_suffix hs (List.suffix_append c (backupAddress r)) with hs' | hs'
  · rcases List.suffix_cons_iff.1 hs' with rfl | hr
    · obtain ⟨m, e, he, -⟩ := hfiles.name [] (h.kept [] target hlink)
      cases he
    · exact Tree.plain_of_get? h.directory (by simp) s hr target hlink
  · obtain ⟨b, rfl⟩ := hs'
    have hbc : b <:+ c := by
      obtain ⟨e, he⟩ := hs
      rw [← List.append_assoc] at he
      exact ⟨e, List.append_cancel_right he⟩
    have heq := hfiles.eq_of_suffix _ hb _ (h.kept b target hlink)
      (hbc.trans (List.suffix_cons n c))
    have hlength := hbc.length_le
    rw [heq, List.length_cons] at hlength
    omega

theorem keeps_moveOrCopy [Medium] {P : Tree → Prop} {source target : Text}
    (hs : Path.wantsDirectory source = false) (ht : Path.wantsDirectory target = false)
    (habs : Path.isAbsolute target = true) (h : Keeps P (Disk.move source target)) :
    Keeps P (moveOrCopy source target) := by
  intro d hd
  have hmove := h d hd
  rw [moveOrCopy, on_bind_attempt]
  cases hr : ((Disk.move source target).on d).1 with
  | ok done => exact hmove
  | error e =>
    obtain ⟨e', hcopy⟩ := Disk.copy_on_of_not_moved hs ht habs hr
    rw [Disk.move_on_error hr]
    show P ((Disk.copy source target).on d).2.tree
    rw [hcopy]
    exact hd

section Places

variable {n : Text} {c : Address}

theorem guarded_moveTo {source : Text} (hs : Path.isAbsolute source = true)
    (hway : Path.IsWay (n :: c)) (hn : n ∈ bundleNames) :
    Keeps (Guarded links a) (Disk.move source (Path.ofAddress (n :: c))) :=
  guarded_move hs (Path.endsIn_ofAddress hway) (ne_of_mem_bundleNames hn).1

/-- A file of a bundle is kept, if it is there. -/
theorem keeps_keep [Medium] (hfiles : AreFiles rels) (hb : n :: c ∈ rels) (ha : Path.IsWay a)
    (hr : Path.IsWay r) :
    Keeps (fun t => Guarded links a t ∧ Publishing r rels t)
      (keep (Path.ofAddress (n :: c ++ a)) (Path.ofAddress (n :: c ++ backupAddress r))) := by
  have hway := hfiles.isWay hb
  have hplace : Path.IsWay (n :: c ++ a) := hway.append ha
  have hbackup : Path.IsWay (n :: c ++ backupAddress r) := hway.append (isWay_backupAddress hr)
  obtain ⟨n', c', he, hn⟩ := hfiles.name _ hb
  cases he
  refine (keeps_ask _).bind fun isFile => Keeps.ite ?_ (keeps_pure _)
  refine (keeps_makeParent (fun path => ?_) _).bind fun _ => (Keeps.within ?_ _).bind fun _ =>
    keeps_pure _
  · exact (guarded_makeDirectories path).and (publishing_makeDirectories path)
  refine keeps_moveOrCopy (Path.wantsDirectory_ofAddress hplace)
    (Path.wantsDirectory_ofAddress hbackup) (Path.isAbsolute_ofAddress _) ?_
  refine (guarded_moveTo (Path.isAbsolute_ofAddress _) hbackup hn).and ?_
  refine Disk.keeps_move (Path.isAbsolute_ofAddress _)
    fun d t' old node spot h _ _ _ hspot hgains => h.gains hgains fun e he => ?_
  obtain rfl := List.mem_singleton.1 he
  have haddress : spot.address = n :: c ++ backupAddress r :=
    Disk.address_of_place_plain hbackup (h.plain_backup hfiles hb) hspot
  constructor
  · intro b hstaged
    exact absurd (hstaged.symm.trans haddress) (staging_ne_backup _ _)
  · intro b target hkept _
    rwa [← List.append_cancel_right (haddress.symm.trans hkept)]

/-- What is copied from where it was gathered is no manifest. -/
theorem keeps_copy_staged [Medium] {target m : Text} (hr : Path.IsWay r)
    (hc : ∀ k ∈ c, isName k = true) (ht : Path.EndsIn target m) (hm : m ≠ "manifest.json".toList) :
    Keeps (fun t => Guarded links a t ∧ Publishing r rels t)
      (Disk.copy (Path.ofAddress (c ++ stagingAddress r)) target) := by
  refine Disk.keeps_copy fun d t' b content part mode mode' spot h hfind hspot hpart hgains => ?_
  have hstaging : d.tree.NoLinksIn (stagingAddress r) := fun b target hlink => by
    rcases h.2.staged b _ hlink with hdir | ⟨_, _, hfile, -⟩
    · cases hdir
    · cases hfile
  have hforeign : Manifest.IsForeign content := by
    cases hget : d.tree.get? (c ++ stagingAddress r) with
    | none =>
      have hnames : ∀ k ∈ c ++ stagingAddress r, '\x00' ∉ k :=
        List.forall_mem_append.2
          ⟨fun k hk => (isName_iff.1 (hc k hk)).2.1, Disk.nul_not_mem_of_get? h.2.staging⟩
      have hway : Path.IsWay (c ++ stagingAddress r) :=
        Path.IsWay.append (fun k hk => isStep_of_isName (hc k hk)) (isWay_stagingAddress hr)
      obtain ⟨e, he⟩ := Disk.find_of_missing hway hnames
        (Disk.plain_of_noLinksIn hstaging h.2.staging) hget
      rw [he] at hfind
      cases hfind
    | some node =>
      rw [Disk.find_of_get? hget fun target he => hstaging c target (he ▸ hget)] at hfind
      cases hfind
      rcases h.2.staged c _ hget with hdir | ⟨content', mode', hfile, hforeign⟩
      · cases hdir
      · cases hfile
        exact hforeign
  refine ⟨h.1.gains hgains fun e he => ?_, h.2.gains hgains fun e he => ?_⟩
  · obtain rfl := List.mem_singleton.1 he
    exact h.1.admits_foreign ht hm (hforeign.of_prefix hpart) hspot
  · obtain rfl := List.mem_singleton.1 he
    exact publishes_foreign (hforeign.of_prefix hpart)

/-- A file of a bundle is put into its place. -/
theorem keeps_put [Medium] (hfiles : AreFiles rels) (hb : n :: c ∈ rels) (ha : Path.IsWay a)
    (hr : Path.IsWay r) :
    Keeps (fun t => Guarded links a t ∧ Publishing r rels t)
      (put (Path.ofAddress (n :: c ++ stagingAddress r)) (Path.ofAddress (n :: c ++ a))) := by
  have hway := hfiles.isWay hb
  have hplace : Path.IsWay (n :: (c ++ a)) := hway.append ha
  obtain ⟨n', c', he, hn⟩ := hfiles.name _ hb
  cases he
  obtain ⟨hdraft, hmanifest⟩ := draftName_not_mem hn
  have hstep := isStep_draftName (hway n (by simp))
  have hdraftWay : Path.IsWay (draftName n :: (c ++ a)) := hplace.tail.cons hstep
  show Keeps _ (put _ (Path.ofAddress (n :: (c ++ a))))
  rw [put_eq hplace]
  refine (keeps_makeParent (fun path => ?_) _).bind fun _ => (Keeps.within ?_ _).bind fun _ =>
    Keeps.within ?_ _
  · exact (guarded_makeDirectories path).and (publishing_makeDirectories path)
  · exact keeps_copy_staged hr (hfiles.isName _ hb) (Path.endsIn_ofAddress hdraftWay) hmanifest
  refine (guarded_moveTo (Path.isAbsolute_ofAddress _) hplace hn).and ?_
  refine Disk.keeps_move (Path.isAbsolute_ofAddress _)
    fun d t' old node spot h hsource hnode hold hspot hgains => h.gains hgains fun e he => ?_
  obtain rfl := List.mem_singleton.1 he
  obtain ⟨above, hspotAt, hold'⟩ := Disk.address_of_place_siblings hplace hstep hspot hsource
  obtain rfl : old = draftName n :: above := hold'
  rw [hspotAt]
  -- The draft lies beside the place, so what may be there may be in the place too.
  obtain ⟨hne, hne', -⟩ := (ne_of_mem_bundleNames hn).2
  constructor
  · intro b hstaged
    cases b with
    | nil => exact absurd (List.cons.inj hstaged).1 hne
    | cons m b =>
      obtain ⟨-, rfl⟩ := List.cons.inj (show n :: above = m :: (b ++ stagingAddress r) from hstaged)
      exact h.staged (draftName n :: b) node hold
  · intro b target hkept hlink
    cases b with
    | nil => exact absurd (List.cons.inj hkept).1 hne'
    | cons m b =>
      obtain ⟨-, rfl⟩ := List.cons.inj (show n :: above = m :: (b ++ backupAddress r) from hkept)
      obtain rfl : node = .link target := hlink
      obtain ⟨m', c', he, hm'⟩ := hfiles.name _ (h.kept (draftName n :: b) target hold)
      cases he
      exact absurd hm' hdraft

/-! ### Undoing -/

theorem guarded_withdraw {place : Text} (hp : Path.isAbsolute place = true) :
    Keeps (Guarded links a) (withdraw place) :=
  (keeps_ask _).bind fun _ =>
    Keeps.ite ((guarded_removeFile hp).attempt.bind fun _ => keeps_pure _) (keeps_pure _)

theorem guarded_restore [Medium] {backup : Text} (hs : Path.isAbsolute backup = true)
    (hw : Path.wantsDirectory backup = false) (hway : Path.IsWay (n :: c)) (hn : n ∈ bundleNames) :
    Keeps (Guarded links a) (restore (Path.ofAddress (n :: c)) backup) :=
  (keeps_makeParent guarded_makeDirectories _).attempt.bind fun _ =>
    (keeps_moveOrCopy hw (Path.wantsDirectory_ofAddress hway) (Path.isAbsolute_ofAddress _)
      (guarded_moveTo hs hway hn)).attempt.bind fun _ => keeps_pure _

end Places

/-- What was published so far can be undone: it lies in places of `rels`. -/
structure CanUndo (a r : Address) (rels : List Address) (p : Published) : Prop where
  places : ∀ place ∈ p.files ++ p.created, Path.isAbsolute place = true
  backups : ∀ kept ∈ p.backups, ∃ b ∈ rels,
    kept = (Path.ofAddress (b ++ a), Path.ofAddress (b ++ backupAddress r))

theorem canUndo_nothing : CanUndo a r rels {} where
  places _ h := by cases h
  backups _ h := by cases h

theorem CanUndo.after_keep {p : Published} (h : CanUndo a r rels p) {b : Address} (hb : b ∈ rels)
    (isKept : Bool) :
    CanUndo a r rels
      (if isKept then { p with backups := p.backups ++
        [(Path.ofAddress (b ++ a), Path.ofAddress (b ++ backupAddress r))] }
      else { p with created := p.created ++ [Path.ofAddress (b ++ a)] }) := by
  cases isKept with
  | true =>
    refine ⟨h.places, fun kept hkept => ?_⟩
    rcases List.mem_append.1 hkept with hkept | hkept
    · exact h.backups kept hkept
    · exact ⟨b, hb, List.mem_singleton.1 hkept⟩
  | false =>
    refine ⟨fun place hplace => ?_, h.backups⟩
    rw [if_neg (by simp), ← List.append_assoc] at hplace
    rcases List.mem_append.1 hplace with hplace | hplace
    · exact h.places place hplace
    · rw [List.mem_singleton.1 hplace]
      exact Path.isAbsolute_ofAddress _

theorem CanUndo.after_put {p : Published} (h : CanUndo a r rels p) (b : Address) :
    CanUndo a r rels { p with files := p.files ++ [Path.ofAddress (b ++ a)] } := by
  refine ⟨fun place hplace => ?_, h.backups⟩
  simp only [List.mem_append, List.mem_singleton] at hplace
  rcases hplace with (hplace | rfl) | hplace
  · exact h.places place (List.mem_append_left _ hplace)
  · exact Path.isAbsolute_ofAddress _
  · exact h.places place (List.mem_append_right _ hplace)

theorem guarded_rollBack [Medium] {p : Published} (ha : Path.IsWay a) (hr : Path.IsWay r)
    (hfiles : AreFiles rels) (hp : CanUndo a r rels p) : Keeps (Guarded links a) (rollBack p) := by
  refine (keeps_forM fun place hplace => guarded_withdraw (hp.places place hplace)).bind fun _ =>
    keeps_forM fun kept hkept => ?_
  obtain ⟨b, hb, rfl⟩ := hp.backups kept hkept
  have hway := hfiles.isWay hb
  obtain ⟨n, c, rfl, hn⟩ := hfiles.name b hb
  exact guarded_restore (Path.isAbsolute_ofAddress _)
    (Path.wantsDirectory_ofAddress (hway.append (isWay_backupAddress hr)))
    (show Path.IsWay (n :: (c ++ a)) from hway.append ha) hn

/-- **Publishing leaves the manifest guarded**, whether it succeeds or fails at any file. -/
theorem guarded_publishEach [Medium] {tx : Transaction} {rest : List Address} {p : Published}
    (ha : Path.IsWay a) (hr : Path.IsWay r) (htx : tx.dir = Path.ofAddress r)
    (hfiles : AreFiles rels) (hrest : ∀ b ∈ rest, b ∈ rels) (hp : CanUndo a r rels p) (d : Disk)
    (hd : Guarded links a d.tree ∧ Publishing r rels d.tree) :
    Guarded links a
      ((tx.publishEach (Path.ofAddress a) p (rest.map Path.ofRelative)).on d).2.tree := by
  induction rest generalizing p d with
  | nil => exact hd.1
  | cons b rest ih =>
    have hb : b ∈ rels := hrest b (by simp)
    have hway := hfiles.isWay hb
    obtain ⟨n, c, rfl, hn⟩ := hfiles.name b hb
    have hplace : Path.join (Path.ofAddress a) (Path.ofRelative (n :: c)) =
        Path.ofAddress (n :: c ++ a) := Path.join_ofRelative ha hway (by simp)
    have hbackup : Path.join tx.backupDir (Path.ofRelative (n :: c)) =
        Path.ofAddress (n :: c ++ backupAddress r) := by
      rw [backupDir, htx, Path.join_ofAddress hr (by decide)]
      exact Path.join_ofRelative (isWay_backupAddress hr) hway (by simp)
    have hstaging : Path.join tx.stagingDir (Path.ofRelative (n :: c)) =
        Path.ofAddress (n :: c ++ stagingAddress r) := by
      rw [stagingDir, htx, Path.join_ofAddress hr (by decide)]
      exact Path.join_ofRelative (isWay_stagingAddress hr) hway (by simp)
    rw [List.map_cons, publishEach, hplace, hbackup, hstaging, on_bind_attempt]
    have hkeep := keeps_keep hfiles hb ha hr d hd
    generalize (keep (Path.ofAddress (n :: c ++ a))
      (Path.ofAddress (n :: c ++ backupAddress r))).on d = kept at hkeep
    obtain ⟨outcome, d₁⟩ := kept
    cases outcome with
    | error e =>
      exact ((guarded_rollBack ha hr hfiles hp).bind fun _ => keeps_throw e) d₁ hkeep.1
    | ok isKept =>
      have hp₁ := hp.after_keep hb isKept
      show Guarded links a (Action.on (_ >>= _) d₁).2.tree
      rw [on_bind_attempt]
      have hput := keeps_put hfiles hb ha hr d₁ hkeep
      generalize (put (Path.ofAddress (n :: c ++ stagingAddress r))
        (Path.ofAddress (n :: c ++ a))).on d₁ = done at hput
      obtain ⟨outcome, d₂⟩ := done
      cases outcome with
      | error e =>
        exact ((guarded_rollBack ha hr hfiles hp₁).bind fun _ => keeps_throw e) d₂ hput.1
      | ok _ =>
        exact ih (fun b hb => hrest b (by simp [hb])) (hp₁.after_put (n :: c)) d₂ hput

/-! ### Whole transactions -/

/-- What was gathered are files of bundles, none of which lies in another. -/
theorem Gathering.areFiles (h : Gathering r t) {rels : List Address}
    (hrels : ∀ b ∈ rels, b ≠ [] ∧ ∃ content mode,
      t.get? (b ++ stagingAddress r) = some (.file content mode)) : AreFiles rels where
  name b hb := by
    obtain ⟨hne, content, mode, hfile⟩ := hrels b hb
    have hin : b ++ stagingAddress r = (b ++ ["staging".toList]) ++ r := by
      simp [stagingAddress]
    rcases h.entry (b ++ ["staging".toList]) _ (hin ▸ hfile) _ rfl with
      hdir | ⟨n, c, _, _, hbc, hn, -, -⟩
    · cases hdir
    · cases b with
      | nil => exact absurd rfl hne
      | cons m b =>
        obtain ⟨rfl, -⟩ := List.cons.inj hbc
        exact ⟨m, b, rfl, hn⟩
  isName b hb k hk := by
    obtain ⟨-, content, mode, hfile⟩ := hrels b hb
    exact Tree.isName_of_mem hfile k (List.mem_append_left _ hk)
  eq_of_suffix b hb c hc hcb := by
    by_contra hne
    obtain ⟨e, rfl⟩ := hcb
    obtain ⟨-, _, _, hfile⟩ := hrels _ hb
    obtain ⟨-, _, _, hfile'⟩ := hrels _ hc
    rw [List.append_assoc] at hfile
    have he : e ≠ [] := fun he => hne (by rw [he]; rfl)
    cases (Tree.get?_of_append hfile he).symm.trans hfile'

theorem Gathering.publishing (h : Gathering r t)
    (hstaging : t.get? (stagingAddress r) = some .directory) (rels : List Address) :
    Publishing r rels t where
  staging := hstaging
  staged b node hb := by
    have hin : b ++ stagingAddress r = (b ++ ["staging".toList]) ++ r := by
      simp [stagingAddress]
    rcases h.entry (b ++ ["staging".toList]) node (hin ▸ hb) _ rfl with
      hdir | ⟨_, _, content, mode, -, -, hfile, hforeign⟩
    · exact .inl hdir
    · exact .inr ⟨content, mode, hfile, hforeign⟩
  kept b target hb := by
    have hin : b ++ backupAddress r = (b ++ ["backup".toList]) ++ r := by
      simp [backupAddress]
    exact absurd (hin ▸ hb) (h.noLinks (b ++ ["backup".toList]) target)

theorem guarded_publish [Medium] {tx : Transaction} (ha : Path.IsWay a)
    (htx : tx.dir = Path.ofAddress r) (d : Disk) (hd : Guarded links a d.tree ∧ Gathering r d.tree) :
    Guarded links a ((tx.publish (Path.ofAddress a)).on d).2.tree := by
  have hr : Path.IsWay r := Tree.isWay_of_get? hd.2.directory
  have hstagingDir : tx.stagingDir = Path.ofAddress (stagingAddress r) := by
    rw [stagingDir, htx, Path.join_ofAddress hr (by decide)]
    rfl
  by_cases hthere : d.isThere tx.stagingDir = true
  · rw [hstagingDir] at hthere
    have hnul : ∀ k ∈ stagingAddress r, '\x00' ∉ k :=
      List.forall_mem_cons.2 ⟨by decide, Disk.nul_not_mem_of_get? hd.2.directory⟩
    have hplain : d.tree.Plain (stagingAddress r) :=
      Disk.plain_of_noLinksIn (c := ["staging".toList]) hd.2.noLinks hd.2.directory
    have hstaging : d.tree.get? (stagingAddress r) = some .directory := by
      obtain ⟨node, hnode⟩ := Option.ne_none_iff_exists'.1
        ((Disk.isThere_ofAddress (isWay_stagingAddress hr) hnul hplain).1 hthere)
      rcases hd.2.entry ["staging".toList] node hnode _ rfl with
        hdir | ⟨n, c, _, _, hc, hn, -, -⟩
      · exact hnode.trans (congrArg some hdir)
      · cases hc
        exact absurd hn (by decide)
    have hno : d.tree.NoLinksIn (stagingAddress r) := fun b target hlink => by
      rcases (hd.2.publishing hstaging []).staged b _ hlink with hdir | ⟨_, _, hfile, -⟩
      · cases hdir
      · cases hfile
    have hare := hd.2.areFiles fun b hb => ((filesBelow_gathered hstaging hno).2.2 b).1 hb
    have hmake : Keeps (fun t => Guarded links a t ∧ Publishing r (gathered d r) t)
        ((Disk.makeDirectories (Path.ofAddress (backupAddress r))).within
          (.create (Path.ofAddress (backupAddress r)))) :=
      ((guarded_makeDirectories _).and (publishing_makeDirectories _)).within _
    have hmade := hmake d ⟨hd.1, hd.2.publishing hstaging _⟩
    rw [publish_on hstaging hno htx, on_bind]
    generalize ((Disk.makeDirectories (Path.ofAddress (backupAddress r))).within
      (.create (Path.ofAddress (backupAddress r)))).on d = made at hmade ⊢
    obtain ⟨outcome, d₁⟩ := made
    cases outcome with
    | error e => exact hmade.1
    | ok _ => exact guarded_publishEach ha hr htx hare (fun b hb => hb) canUndo_nothing d₁ hmade
  · rw [publish, on_bind, on_ask]
    dsimp only
    rw [if_neg hthere]
    exact hd.1

variable {name : Text}

/-- A new directory gathers, since it is empty. -/
theorem gathering_of_vacant {n : Text} {dir : Address} (hn : isName n = true)
    (hdir : t.get? dir = some .directory) (hnone : t.get? (n :: dir) = none) :
    Gathering (n :: dir) (t.set n dir .directory) where
  directory := (Tree.get?_set_of_directory hdir hn (.inl rfl) _).trans (if_pos rfl)
  entry b node hb c hc := by
    obtain rfl : b = c := List.append_cancel_right hc
    rw [Tree.get?_set_of_directory hdir hn (.inl rfl)] at hb
    split at hb
    · cases hb
      exact .inl rfl
    · next hne =>
      have hbne : b ≠ [] := fun he => hne (by rw [he]; rfl)
      cases (Tree.get?_eq_none_of_append (by simp [hnone]) hbne).symm.trans hb

/-- A transaction starts with an empty directory of its own. -/
theorem start_on [Medium] (hname : isName name = true) {d : Disk} (h : Guarded links a d.tree) :
    Guarded links a ((start (Path.ofAddress (transactionsAddress a)) name).on d).2.tree ∧
      ∀ tx, ((start (Path.ofAddress (transactionsAddress a)) name).on d).1 = .ok tx →
        tx.dir = Path.ofAddress (name :: transactionsAddress a) ∧
        Gathering (name :: transactionsAddress a)
          ((start (Path.ofAddress (transactionsAddress a)) name).on d).2.tree := by
  have hway : Path.IsWay (name :: transactionsAddress a) :=
    ((isWay_bridgeAddress h.isWay).cons (by decide)).cons (isStep_of_isName hname)
  have hkeeps : Keeps (Guarded links a)
      (Disk.makeDirectories (Path.ofAddress (transactionsAddress a))) := guarded_makeDirectories _
  have hmake := hkeeps d h
  rw [start, Path.join_ofAddress hway.tail (isStep_of_isName hname), on_bind, on_within]
  generalize (Disk.makeDirectories (Path.ofAddress (transactionsAddress a))).on d = made at hmake
  obtain ⟨outcome, d₁⟩ := made
  cases outcome with
  | error e => exact ⟨hmake, fun tx htx => by cases htx⟩
  | ok _ =>
    dsimp only [Except.mapError]
    rw [on_bind, on_within, Disk.makeDirectory_on_place]
    cases hplace : d₁.place (Path.ofAddress (name :: transactionsAddress a)) with
    | error e => exact ⟨hmake, fun tx htx => by cases htx⟩
    | ok spot =>
      cases spot with
      | entry b node => exact ⟨hmake, fun tx htx => by cases htx⟩
      | vacant dir n =>
        have haddress := Disk.address_of_place_plain hway
          (hmake.plain_own transactionsAddress_mem) hplace
        obtain ⟨rfl, rfl⟩ := List.cons.inj (show n :: dir = _ from haddress)
        obtain ⟨hdir, hnone⟩ := Disk.place_holds (Path.isAbsolute_ofAddress _) hplace
        dsimp only
        rw [Disk.add_on]
        cases Medium.adds d₁.tree (n :: transactionsAddress a) with
        | false => exact ⟨hmake, fun tx htx => by cases htx⟩
        | true =>
          refine ⟨hmake.gains Tree.gains_set fun e he => ?_, fun tx htx => ?_⟩
          · obtain rfl := List.mem_singleton.1 he
            exact admits_directory _
          · cases htx
            exact ⟨rfl, gathering_of_vacant hname hdir hnone⟩

/-- Work that keeps the guard while it gathers and publishes keeps it as a transaction. -/
theorem guarded_run [Medium] {α : Type} {work : Transaction → Action Failure α}
    (hname : isName name = true)
    (hwork : ∀ (tx : Transaction) (d : Disk), tx.dir = Path.ofAddress (name :: transactionsAddress a) →
      Guarded links a d.tree ∧ Gathering (name :: transactionsAddress a) d.tree →
      Guarded links a ((work tx).on d).2.tree) :
    Keeps (Guarded links a) (run (Path.ofAddress (transactionsAddress a)) name work) := by
  intro d h
  have hway : Path.IsWay (name :: transactionsAddress a) :=
    ((isWay_bridgeAddress h.isWay).cons (by decide)).cons (isStep_of_isName hname)
  obtain ⟨hstarted, htx⟩ := start_on hname h
  rw [run, on_bind]
  generalize (start (Path.ofAddress (transactionsAddress a)) name).on d = started at hstarted htx
  obtain ⟨outcome, d₁⟩ := started
  cases outcome with
  | error e => exact hstarted
  | ok tx =>
    obtain ⟨hdir, hgathering⟩ := htx tx rfl
    have hworked := hwork tx d₁ hdir ⟨hstarted, hgathering⟩
    show Guarded links a (Action.on (_ >>= _) d₁).2.tree
    rw [on_bind_attempt]
    generalize (work tx).on d₁ = worked at hworked
    obtain ⟨outcome, d₂⟩ := worked
    have hclose : Guarded links a (tx.close.on d₂).2.tree := by
      rw [close, on_bind_attempt, hdir, Disk.removeAll_on]
      cases hplace : d₂.place (Path.ofAddress (name :: transactionsAddress a)) with
      | error e => exact hworked
      | ok spot =>
        cases spot with
        | vacant dir n => exact hworked
        | entry b node =>
          obtain rfl : b = name :: transactionsAddress a := Disk.address_of_place_plain hway
            (hworked.plain_own transactionsAddress_mem) hplace
          refine hworked.prune fun hsuffix => ?_
          have hlength := hsuffix.length_le
          simp only [transactionsAddress, bridgeAddress, List.length_cons] at hlength
          omega
    show Guarded links a (Action.on (_ >>= _) d₂).2.tree
    rw [on_bind]
    generalize tx.close.on d₂ = closed at hclose
    obtain ⟨closing, d₃⟩ := closed
    cases closing with
    | error e => exact hclose
    | ok _ =>
      cases outcome with
      | ok x => exact hclose
      | error e => exact hclose

end Transaction

end ActionBundles
