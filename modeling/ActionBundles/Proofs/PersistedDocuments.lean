import ActionBundles.Command.Run
import ActionBundles.Proofs.Growth
import ActionBundles.Proofs.Recording
import ActionBundles.Proofs.SamePlace
import ActionBundles.Proofs.Settlement

/-!
# Persisted documents are read back

The program keeps three kinds of documents. A manifest is changed in memory, stored and loaded in
any order; a sync record is published with the files of its bundle; a configuration is written into
its file. Each is read back as it was stored (`persisted_documents_read_back`).

Manifests and published files are first written beside their places and then moved there. Where a
link stands under the name of such a draft, the file goes to where the link leads and the link is
moved, so that a link to the place itself takes the document away although all went well
(`Manifest.load_sampleLinkedDraft`).
-/

namespace ActionBundles

open ActionBundles.Action Project

/-! ### Manifests -/

namespace Manifest

/-- What may be done with a manifest in memory. -/
inductive Step where
  /-- An artifact of a model is put on record. -/
  | upsert (source artifact : Text) (record : GeneratedRecord)
  /-- A model is forgotten. -/
  | forget (source : Text)
  /-- The manifest is stored. -/
  | save
  /-- The stored manifest takes the place of the one in memory. -/
  | load

/-- A manifest in memory, and the disk that it is stored on. -/
structure Session where
  manifest : Manifest := {}
  disk : Disk

/-- A session after one more step. What cannot be stored or loaded is passed over. -/
def Session.step (l : Layout) (s : Session) : Step → Session
  | .upsert source artifact record =>
    { s with manifest := s.manifest.upsert source artifact record }
  | .forget source => { s with manifest := s.manifest.forget source }
  | .save => { s with disk := ((s.manifest.save l).on s.disk).2 }
  | .load => { s with manifest := (Manifest.load l s.disk).toOption.getD s.manifest }

/-- A session after some steps. -/
def Session.run (l : Layout) (s : Session) (steps : List Step) : Session := steps.foldl (step l) s

/-- No link stands under the name of the directory of the program or of the draft, and no directory
in the place of the manifest. -/
structure Storable (a : Address) (t : Tree) : Prop where
  root : t.get? a = some .directory
  bridge : ∀ target, t.get? (bridgeAddress a) ≠ some (.link target)
  draft : ∀ target, t.get? (draftAddress a) ≠ some (.link target)
  place : t.get? (manifestAddress a) ≠ some .directory

variable {a : Address} {l : Layout} {s : Session} {m : Manifest} {d d' : Disk}

theorem Storable.save_on (h : Storable a d.tree) (hl : l.root = Path.ofAddress a) :
    Project.SaveOutcome a m d ((m.save l).on d) :=
  Project.save_on_unlinked hl h.root h.bridge h.draft h.place

/-- Storing a manifest leaves room for the next one. -/
theorem Storable.saved (h : Storable a d.tree) (hl : l.root = Path.ofAddress a) (m : Manifest) :
    Storable a ((m.save l).on d).2.tree := by
  have hroot : a ≠ bridgeAddress a := fun he => List.cons_ne_self _ _ he.symm
  have hrootManifest : a ≠ manifestAddress a := fun he =>
    absurd (congrArg List.length he) (by simp [manifestAddress, bridgeAddress]; omega)
  have hrootDraft : a ≠ draftAddress a := fun he =>
    absurd (congrArg List.length he) (by simp [draftAddress, bridgeAddress]; omega)
  have hdraft : draftAddress a ≠ bridgeAddress a := List.cons_ne_self _ _
  have hmanifest : manifestAddress a ≠ bridgeAddress a := List.cons_ne_self _ _
  have hdraftManifest : draftAddress a ≠ manifestAddress a := fun he =>
    absurd (List.cons.inj he).1 (by decide)
  have houtcome := h.save_on (m := m) hl
  generalize (m.save l).on d = outcome at houtcome
  cases houtcome with
  | blocked => exact h
  | refused e d' _ hget =>
    refine ⟨?_, fun target => ?_, fun target => ?_, ?_⟩
    · rw [hget, if_neg hroot, h.root]
    · simp [hget]
    · rw [hget, if_neg hdraft]
      exact h.draft target
    · rw [hget, if_neg hmanifest]
      exact h.place
  | done d' mode _ hget =>
    refine ⟨?_, fun target => ?_, fun target => ?_, ?_⟩
    · rw [hget, if_neg hrootManifest, if_neg hrootDraft, if_neg hroot, h.root]
    · simp [hget, hdraft.symm, hmanifest.symm]
    · simp [hget, hdraftManifest]
    · simp [hget]

theorem Session.storable_step (h : Storable a s.disk.tree) (hl : l.root = Path.ofAddress a)
    (step : Step) : Storable a (s.step l step).disk.tree := by
  cases step with
  | upsert source artifact record => exact h
  | forget source => exact h
  | save => exact h.saved hl s.manifest
  | load => exact h

theorem Session.storable_run (h : Storable a s.disk.tree) (hl : l.root = Path.ofAddress a)
    (steps : List Step) : Storable a (s.run l steps).disk.tree := by
  induction steps generalizing s with
  | nil => exact h
  | cons step steps ih => exact ih (storable_step h hl step)

/-- A manifest that has been stored is the one that is loaded. -/
theorem Storable.load_of_save (h : Storable a d.tree) (hl : l.root = Path.ofAddress a)
    (hsave : (m.save l).on d = (.ok (), d')) : Manifest.load l d' = .ok m := by
  have houtcome := h.save_on (m := m) hl
  rw [hsave] at houtcome
  cases houtcome with
  | done d' mode hdraft hget => exact Project.load_of_stored hl ((hget _).trans (if_pos rfl))

end Manifest

/-! ### Sync records -/

namespace Transaction

variable {d d' : Disk} {tx : Transaction} {rel : Text} {content : Bytes}

/-- What has been gathered under a path is found by it. -/
theorem find_of_stage (hp : Path.isAbsolute (Path.join tx.stagingDir rel) = true)
    (hlinks : d.tree.LinksArePaths) (h : (tx.stage rel content).on d = (.ok (), d')) :
    ∃ x mode, d'.find (Path.join tx.stagingDir rel) = .ok (x, .file content mode) := by
  rw [stage, on_bind] at h
  have hmade : Keeps Tree.LinksArePaths (makeParent (Path.join tx.stagingDir rel)) := by
    rw [makeParent]
    split
    · exact keeps_pure ()
    · exact (Disk.keeps_linksArePaths_makeDirectories _).within _
  have hlinks' := hmade d hlinks
  generalize (makeParent (Path.join tx.stagingDir rel)).on d = made at h hlinks'
  obtain ⟨e | _, d₁⟩ := made
  · cases h
  dsimp only at h
  rw [on_within] at h
  generalize hwrite : (Disk.write (Path.join tx.stagingDir rel) content).on d₁ = written at h
  obtain ⟨e | _, d₂⟩ := written
  · cases h
  · cases h
    exact Disk.find_of_put hp hlinks' hwrite

end Transaction

namespace SyncRecord

variable {record : SyncRecord} {tx : Transaction} {a r c : Address} {rel dir : Text}
  {d d₁ d₂ d' : Disk}

/-- A record is gathered at `c` as the sync record of a bundle, stays there while other files may be
gathered, and is published with them below `a`. -/
structure IsPublished (record : SyncRecord) (tx : Transaction) (a r c : Address) (rel : Text)
    (d d₁ d₂ d' : Disk) : Prop where
  transaction : tx.dir = Path.ofAddress r
  relative : Path.isAbsolute rel = false
  links : d.tree.LinksArePaths
  gathered : (tx.stageJson rel record.toJson).on d = (.ok (), d₁)
  place : ∃ node, d₁.find (Path.join tx.stagingDir rel) =
    .ok (fileName :: (c ++ Transaction.stagingAddress r), node)
  stays : d₂.tree.get? (fileName :: (c ++ Transaction.stagingAddress r)) =
    d₁.tree.get? (fileName :: (c ++ Transaction.stagingAddress r))
  ready : Transaction.Gathered d₂ a r
  published : ∃ files, (tx.publish (Path.ofAddress a)).on d₂ = (.ok files, d')

/-- The record stands in its bundle. -/
theorem IsPublished.get? (h : record.IsPublished tx a r c rel d d₁ d₂ d') :
    ∃ mode, d'.tree.get? (fileName :: (c ++ a)) = some (.file record.document.utf8 mode) := by
  have hr : Path.IsWay r := (Tree.isWay_of_get? h.ready.staging).tail
  have hstaging : tx.stagingDir = Path.ofAddress (Transaction.stagingAddress r) := by
    rw [Transaction.stagingDir, h.transaction, Path.join_ofAddress hr (by decide)]
    rfl
  have habs : Path.isAbsolute (Path.join tx.stagingDir rel) = true := by
    rw [Disk.isAbsolute_join h.relative, hstaging]
    exact Path.isAbsolute_ofAddress _
  obtain ⟨node, hplace⟩ := h.place
  obtain ⟨x, mode, hfind⟩ := Transaction.find_of_stage habs h.links h.gathered
  rw [hplace] at hfind
  cases hfind
  have hstaged : d₂.tree.get? (fileName :: c ++ Transaction.stagingAddress r) =
      some (.file record.document.utf8 mode) := h.stays.trans (Disk.find_holds habs hplace)
  have hmem : fileName :: c ∈ Transaction.gathered d₂ r :=
    ((Transaction.filesBelow_gathered h.ready.staging h.ready.noLinks).2.2 _).2
      ⟨List.cons_ne_nil _ _, _, _, hstaged⟩
  obtain ⟨files, hpublish⟩ := h.published
  exact ⟨mode, (Transaction.settled_of_publish h.transaction h.ready hpublish fileName c hmem
    (Transaction.ne_draftName (by decide))).trans hstaged⟩

/-- A sync record that has been published is the one that is loaded. -/
theorem IsPublished.load? (h : record.IsPublished tx a r c rel d d₁ d₂ d')
    (hdir : Path.components dir = Path.components (Path.ofAddress (c ++ a))) :
    SyncRecord.load? d' dir = .ok (some record) := by
  obtain ⟨mode, hget⟩ := h.get?
  have hway : Path.IsWay (c ++ a) := (Tree.isWay_of_get? hget).tail
  have hfind : d'.find (Path.join dir fileName) =
      .ok (fileName :: (c ++ a), .file record.document.utf8 mode) := by
    rw [Disk.find_join_congr (by decide) hdir, Path.join_ofAddress hway (by decide)]
    exact Disk.find_of_get? hget (by simp)
  have hfile : d'.isFile (Path.join dir fileName) = true := by rw [Disk.isFile, hfind]
  have hread : d'.read (Path.join dir fileName) = .ok record.document.utf8 := by
    rw [Disk.read, hfind]
  rw [SyncRecord.load?]
  simp only [hfile, if_true, hread, ofJson?_read?_document]

end SyncRecord

/-! ### Configurations -/

namespace Config

variable {c : Config} {a : Address} {l : Layout} {d d' : Disk}

theorem ofJson?_toJson (c : Config) : ofJson? c.toJson = some (formatVersion, c) := by
  have hfields : Json.fields? ["schema_version", "models_dir", "actions_dir", "parse_mode",
      "default_image", "default_domain"] c.toJson =
      some [some (Json.ofNat formatVersion), some (.string c.modelsDir),
        some (.string c.actionsDir), some (.string (modeWord c.mode)),
        some (.string c.defaultImage), some (.string c.defaultDomain)] := by
    rfl
  have hversion : Json.word? (Json.ofNat formatVersion) = some formatVersion := by decide
  have hmode : mode? (.string (modeWord c.mode)) = some c.mode := by
    cases c.mode <;> decide
  rw [ofJson?, hfields]
  simp [Json.orElse?, hversion, hmode, Json.text?]

/-- A configuration that can be used is read back. -/
theorem read_render (path : Text) (h : c.check = .ok ()) : read path c.render.utf8 = .ok c := by
  have hsound : Json.isSound c.toJson = true := by
    have hversion : Json.isSound (Json.ofNat formatVersion) = true := by decide
    simp [toJson, Json.isSound, Json.entriesAreSound, hversion]
  have hread : Json.read? c.render.utf8 = some c.toJson := by
    rw [render, ← List.append_nil c.toJson.pretty]
    exact Json.read?_pretty hsound (.inl rfl)
  rw [read, hread, Option.bind_some, ofJson?_toJson]
  simp [h]

/-- A configuration that has been stored is the one that its project is loaded with, whatever links
stand on the way to its file. -/
theorem load_of_save (hl : l.root = Path.ofAddress a) (hroot : d.tree.get? a = some .directory)
    (hlinks : d.tree.LinksArePaths) (hcheck : c.check = .ok ())
    (h : (c.save l).on d = (.ok (), d')) :
    Project.load (Path.ofAddress a) d' = .ok ⟨.ofConfig (Path.ofAddress a) c, c⟩ := by
  have hpath : (Layout.ofConfig (Path.ofAddress a) {}).configPath = l.configPath := by
    rw [Layout.configPath, Layout.configPath, Layout.bridgeDir, Layout.bridgeDir, Layout.resolve,
      Layout.resolve, hl]
    rfl
  have habs : Path.isAbsolute l.configPath = true := by
    rw [Layout.configPath, Disk.isAbsolute_join (by decide), Layout.bridgeDir, Layout.resolve,
      Disk.isAbsolute_join (by decide), hl]
    exact Path.isAbsolute_ofAddress a
  -- directories are made, and then the file is written
  rw [save, on_bind, on_within] at h
  have hdirectory := Disk.keeps_directory_makeDirectories a l.bridgeDir d hroot
  have hlinks₁ := Disk.keeps_linksArePaths_makeDirectories l.bridgeDir d hlinks
  generalize (Disk.makeDirectories l.bridgeDir).on d = made at h hdirectory hlinks₁
  obtain ⟨e | _, d₁⟩ := made
  · cases h
  dsimp only [Except.mapError] at h
  rw [on_within] at h
  have hdirectory' := Disk.keeps_directory_write a l.configPath c.render.utf8 d₁ hdirectory
  generalize hwrite : (Disk.write l.configPath c.render.utf8).on d₁ = written at h hdirectory'
  obtain ⟨e | _, d₂⟩ := written
  · cases h
  cases h
  obtain ⟨x, mode, hfind⟩ := Disk.find_of_put habs hlinks₁ hwrite
  have hcanonical : d₂.canonical (Path.ofAddress a) = .ok (Path.ofAddress a) := by
    rw [Disk.canonical, Disk.find_of_get? hdirectory' (by simp)]
    rfl
  have hfile : d₂.isFile l.configPath = true := by rw [Disk.isFile, hfind]
  have hread : d₂.read l.configPath = .ok c.render.utf8 := by rw [Disk.read, hfind]
  rw [Project.load, hcanonical]
  show (if d₂.isFile (Layout.ofConfig (Path.ofAddress a) {}).configPath = true then _ else _) = _
  rw [hpath, if_pos hfile, hread]
  show (do
    let config ← Config.read l.configPath c.render.utf8
    return (⟨.ofConfig (Path.ofAddress a) config, config⟩ : Project) : Except Failure Project) = _
  rw [read_render _ hcheck]
  rfl

end Config

/-! ### All of them -/

/-- **Persisted documents are read back as they were stored**: a manifest after any steps of a
session, if no link stands under the name of its draft or its directory; a sync record that is
published with no link in the way; and a configuration that can be used, whatever links there
are. -/
theorem persisted_documents_read_back {a : Address} {l : Layout} (hl : l.root = Path.ofAddress a) :
    (∀ {d d' : Disk} (steps : List Manifest.Step), Manifest.Storable a d.tree →
      let s := (⟨{}, d⟩ : Manifest.Session).run l steps
      (s.manifest.save l).on s.disk = (.ok (), d') → Manifest.load l d' = .ok s.manifest) ∧
    (∀ {record : SyncRecord} {tx : Transaction} {r c : Address} {rel dir : Text}
      {d d₁ d₂ d' : Disk}, record.IsPublished tx a r c rel d d₁ d₂ d' →
      Path.components dir = Path.components (Path.ofAddress (c ++ a)) →
      SyncRecord.load? d' dir = .ok (some record)) ∧
    (∀ {c : Config} {d d' : Disk}, d.tree.get? a = some .directory → d.tree.LinksArePaths →
      c.check = .ok () → (c.save l).on d = (.ok (), d') →
      Project.load (Path.ofAddress a) d' = .ok ⟨.ofConfig (Path.ofAddress a) c, c⟩) := by
  refine ⟨fun steps hstorable hsave => ?_, fun hpublished hdir => hpublished.load? hdir,
    fun hroot hlinks hcheck hsave => Config.load_of_save hl hroot hlinks hcheck hsave⟩
  exact (Manifest.Session.storable_run hstorable hl steps).load_of_save hl hsave

/-- A project in which nothing has been stored yet, and a transaction `/t` that is under way. -/
def sampleUnstored : Disk where
  tree := ((Tree.empty.set "p" [] .directory).set "t" [] .directory).set "staging" ["t"] .directory

/-- Two models are put on record, with strange names, and one is forgotten again. -/
def sampleSession : List Manifest.Step :=
  [.upsert "a\"b\\.fcm" "actions/ü" ⟨"a\"b\\.fcm", "\n", "1"⟩, .save,
    .upsert "b.fcm" "actions/b" ⟨"other.fcm", "", "\t"⟩, .forget "a\"b\\.fcm", .save, .load]

/-- A record with strange texts. -/
def sampleSyncRecord : SyncRecord := ⟨"a\"b\\.fcm", "\n", "ü", "sha256:"⟩

theorem noLinks_sampleUnstored (b : Address) (target : Text) :
    sampleUnstored.tree.get? b ≠ some (.link target) :=
  Tree.noLinks_set (Tree.noLinks_set (Tree.noLinks_set Tree.noLinks_empty (by simp)) (by simp))
    (by simp) b target

/-- The record is gathered for the bundle `x`. -/
def sampleStaged : Disk where
  tree := (sampleUnstored.tree.set "x" ["staging", "t"] .directory).set ".bridge-sync"
    ["x", "staging", "t"] (.file sampleSyncRecord.document.utf8 false)

theorem gathered_sampleStaged : Transaction.gathered sampleStaged ["t".toList] =
    [[".bridge-sync".toList, "x".toList]] := by
  decide +kernel

theorem ready_sampleStaged : Transaction.Gathered sampleStaged ["p".toList] ["t".toList] := by
  have hno : ∀ b target, sampleStaged.tree.get? b ≠ some (.link target) :=
    Tree.noLinks_set (Tree.noLinks_set noLinks_sampleUnstored (by simp)) (by simp)
  refine ⟨by decide +kernel, fun b => hno _, by decide +kernel, by decide, ?_,
    fun b _ x _ => hno x, fun n c _ => hno _⟩
  rw [gathered_sampleStaged]
  decide

theorem isPublished_sampleSyncRecord :
    sampleSyncRecord.IsPublished ⟨"/t".toList⟩ ["p".toList] ["t".toList] ["x".toList]
      "x/.bridge-sync" sampleUnstored sampleStaged sampleStaged
      (((⟨"/t".toList⟩ : Transaction).publish (Path.ofAddress ["p".toList])).on sampleStaged).2 where
  transaction := by decide
  relative := by decide
  links := by decide +kernel
  gathered := by decide +kernel
  place := ⟨.file sampleSyncRecord.document.utf8 false, by decide +kernel⟩
  stays := rfl
  ready := ready_sampleStaged
  published := by
    have hdone : (((⟨"/t".toList⟩ : Transaction).publish (Path.ofAddress ["p".toList])).on
        sampleStaged).1 = .ok ["/p/x/.bridge-sync".toList] := by
      decide +kernel
    exact ⟨_, Prod.fst_eq_iff.1 hdone⟩

/-- A project whose directory for the program is a link to another one. -/
def sampleElsewhere : Disk where
  tree := ((Tree.empty.set "p" [] .directory).set "q" [] .directory).set ".bridge" ["p"]
    (.link "../q")

theorem persisted_documents_read_back_sampleUnstored :
    let l : Layout := .ofConfig ("/p" : Text) {}
    let s := (⟨{}, sampleUnstored⟩ : Manifest.Session).run l sampleSession
    let c : Config := { actionsDir := "ä\"", mode := .strict }
    Manifest.load l ((s.manifest.save l).on s.disk).2 = .ok s.manifest ∧
      SyncRecord.load? (((⟨"/t".toList⟩ : Transaction).publish "/p".toList).on sampleStaged).2
        ("/p/./x/" : Text) = .ok (some sampleSyncRecord) ∧
      Project.load ("/p" : Text) ((c.save l).on sampleElsewhere).2 =
        .ok ⟨.ofConfig ("/p" : Text) c, c⟩ := by
  intro l s c
  have hl : l.root = Path.ofAddress ["p".toList] := by decide
  obtain ⟨hmanifest, hsync, hconfig⟩ := persisted_documents_read_back hl
  have hstorable : Manifest.Storable ["p".toList] sampleUnstored.tree :=
    ⟨by decide, noLinks_sampleUnstored _, noLinks_sampleUnstored _, by decide⟩
  have hsaved : ((s.manifest.save l).on s.disk).1 = .ok () := by decide +kernel
  have hconfigured : ((c.save l).on sampleElsewhere).1 = .ok () := by decide +kernel
  exact ⟨hmanifest sampleSession hstorable (Prod.fst_eq_iff.1 hsaved),
    hsync isPublished_sampleSyncRecord (by decide),
    hconfig (by decide) (by decide +kernel) (by decide +kernel) (Prod.fst_eq_iff.1 hconfigured)⟩

/-- The same project with a link in the place of the draft, which leads to where the manifest will
be. -/
def sampleLinkedDraft : Disk where
  tree := ((sampleUnstored.tree).set ".bridge" ["p"] .directory).set ".manifest.json.tmp"
    [".bridge", "p"] (.link "manifest.json")

/-- There a manifest is stored and not found again. -/
theorem load_sampleLinkedDraft :
    let l : Layout := .ofConfig ("/p" : Text) {}
    let s := (⟨{}, sampleLinkedDraft⟩ : Manifest.Session).run l
      [.upsert "a.fcm" "actions/a" ⟨"a.fcm", "", "1"⟩]
    ((s.manifest.save l).on s.disk).1 = .ok () ∧
      Manifest.load l ((s.manifest.save l).on s.disk).2 = .ok {} ∧ s.manifest ≠ {} := by
  decide +kernel

end ActionBundles
