import ActionBundles.Proofs.Agreement
import ActionBundles.Proofs.Steadiness

/-!
# What is put on record

An action that is generated is put on record: the manifest that is returned has been stored, and is
the one that is loaded afterwards (`Project.load_of_generate`). A claim takes nothing from the
record but a model whose file is gone, so a file of the project that is mapped stays mapped.
-/

namespace ActionBundles

open ActionBundles.Action

namespace Project

variable {a : Address} {l : Layout} {p : Project} {occasion : Occasion} {m m' : Manifest}
  {path source artifact other : Text} {d d' : Disk}

/-! ### Storing the manifest -/

theorem load_of_stored {mode : Bool} (hl : l.root = Path.ofAddress a)
    (hget : d.tree.get? (manifestAddress a) = some (.file m.render.utf8 mode)) :
    Manifest.load l d = .ok m := by
  have hway : Path.IsWay (manifestAddress a) := Tree.isWay_of_get? hget
  have hfind := Disk.find_of_get? hget (by simp)
  have hthere : d.isThere (Path.ofAddress (manifestAddress a)) = true := by
    rw [Disk.isThere, hfind]
    rfl
  rw [Manifest.load, manifestPath_eq hway.tail.tail hl, if_pos hthere, Disk.read, hfind]
  exact Manifest.read_render _ m

/-- A directory in the place of the manifest is not replaced. -/
theorem save_on_directory (hl : l.root = Path.ofAddress a) (hno : d.tree.NoLinksIn a)
    (hmanifest : d.tree.get? (manifestAddress a) = some .directory) :
    ∃ e, ((m.save l).on d).1 = .error e := by
  have hbridge : d.tree.get? (bridgeAddress a) = some .directory := Tree.get?_dir hmanifest
  have hclear := Tree.clear_of_directory hbridge
  have hnames := Tree.isName_of_mem hbridge
  have hmake := Disk.makeDirectories_on_clear hclear hnames
  rw [Tree.withDirectories_of_directory hbridge] at hmake
  have hdraft := Disk.put_on_unlinked (d := d) (n := ".manifest.json.tmp".toList)
    m.render.utf8 none hbridge (by decide) fun target =>
      hno [".manifest.json.tmp".toList, ".bridge".toList] target
  rw [save_eq (Tree.isWay_of_get? hbridge).tail hl, on_bind, on_within, hmake]
  dsimp only [Except.mapError]
  rw [on_bind, on_within, Disk.write]
  rcases hdraft with ⟨e, hdraft⟩ | ⟨hne, mode, hdraft⟩
  · rw [show draftAddress a = ".manifest.json.tmp".toList :: bridgeAddress a from rfl, hdraft]
    exact ⟨_, rfl⟩
  · rw [show draftAddress a = ".manifest.json.tmp".toList :: bridgeAddress a from rfl, hdraft]
    dsimp only [Except.mapError]
    have hget : ∀ x, (d.tree.set ".manifest.json.tmp".toList (bridgeAddress a)
        (.file m.render.utf8 mode)).get? x = _ :=
      Tree.get?_set_of_directory hbridge (by decide) (.inr hne)
    rw [on_within, Disk.move_on_directory ((hget _).trans (if_pos rfl))
      ((hget _).trans ((if_neg fun he => by cases he).trans hmanifest))]
    exact ⟨_, rfl⟩

/-- A manifest that has been stored is the one that is loaded. -/
theorem load_of_save (hl : l.root = Path.ofAddress a) (hroot : d.tree.get? a = some .directory)
    (hno : d.tree.NoLinksIn a) (h : (m.save l).on d = (.ok (), d')) :
    Manifest.load l d' = .ok m := by
  have hmanifest : d.tree.get? (manifestAddress a) ≠ some .directory := fun hdir => by
    obtain ⟨e, he⟩ := save_on_directory (m := m) hl hno hdir
    rw [h] at he
    cases he
  have houtcome := save_on (m := m) hl hroot hno hmanifest
  rw [h] at houtcome
  cases houtcome with
  | done d' mode hdraft hget => exact load_of_stored hl ((hget _).trans (if_pos rfl))

/-! ### Generating -/

theorem Carried.generate_on {g : Generated} {plan : Plan} {kept : Manifest} {d₁ : Disk}
    (h : Carried p occasion m path d g m' d' plan kept d₁) :
    (p.generate occasion m path).on d = (.ok (g, m'), d') := by
  rw [generate, on_bind, on_consult, h.planned]
  dsimp only
  rw [on_bind, on_consult, h.claimed]
  dsimp only
  rw [on_bind, h.published]
  dsimp only
  rw [on_bind, ← h.manifest, h.saved]
  dsimp only
  rw [← h.source, ← h.artifact, ← h.identity, ← h.checksum]
  rfl

/-- The manifest that generating an action returns is the one that is loaded afterwards. -/
theorem load_of_generate {g : Generated} (hp : p.Usable) (hl : p.layout.root = Path.ofAddress a)
    (hname : isName occasion.transactionName = true) (hroot : d.tree.get? a = some .directory)
    (hno : d.tree.NoLinksIn a) (h : (p.generate occasion m path).on d = (.ok (g, m'), d')) :
    Manifest.load p.layout d' = .ok m' := by
  obtain ⟨plan, kept, d₁, hcarried⟩ := exists_of_generate h
  have hchanged := changed_publish hp hl hname (sound_of_plan hp hcarried.planned) hroot hno
  rw [hcarried.published] at hchanged
  exact load_of_save hl hchanged.root hchanged.noLinks hcarried.saved

/-! ### What is left of a failure -/

/-- The manifest that is loaded in a project without links is what stands in its place. -/
theorem load_eq (hl : l.root = Path.ofAddress a) (hroot : d.tree.get? a = some .directory)
    (hno : d.tree.NoLinksIn a) :
    Manifest.load l d = match d.tree.get? (manifestAddress a) with
      | none => .ok {}
      | some (.file content _) => Manifest.read (Path.ofAddress (manifestAddress a)) content
      | some _ => .error
        (.refused (.readManifest (Path.ofAddress (manifestAddress a))) .isDirectory) := by
  have ha := Tree.isWay_of_get? hroot
  have hway : Path.IsWay (manifestAddress a) := (isWay_bridgeAddress ha).cons (by decide)
  have hthere := Disk.isThere_ofAddress hway
    (nul_not_mem_bridge (Disk.nul_not_mem_of_get? hroot) (by decide))
    (Disk.plain_of_noLinksIn (c := ["manifest.json".toList, ".bridge".toList]) hno hroot)
  rw [Manifest.load, manifestPath_eq ha hl]
  cases hget : d.tree.get? (manifestAddress a) with
  | none => rw [if_neg fun he => hthere.1 he hget]
  | some node =>
    rw [if_pos (hthere.2 (by simp [hget]))]
    cases node with
    | file content mode => rw [Disk.read, Disk.find_of_get? hget (by simp)]
    | directory => rw [Disk.read, Disk.find_of_get? hget (by simp)]
    | link target => exact absurd hget (hno ["manifest.json".toList, ".bridge".toList] target)

/-- What stands in the place of the manifest decides what is loaded. -/
theorem load_congr (hl : l.root = Path.ofAddress a) (hroot : d.tree.get? a = some .directory)
    (hno : d.tree.NoLinksIn a) (hroot' : d'.tree.get? a = some .directory)
    (hno' : d'.tree.NoLinksIn a)
    (h : d'.tree.get? (manifestAddress a) = d.tree.get? (manifestAddress a)) :
    Manifest.load l d' = Manifest.load l d := by
  rw [load_eq hl hroot hno, load_eq hl hroot' hno', h]

/-- Whether the place of the manifest is as it was, if it is not taken by a directory. -/
def ManifestStays (a : Address) (t t' : Tree) : Prop :=
  t'.get? (manifestAddress a) = t.get? (manifestAddress a) ∨
    t'.get? (manifestAddress a) = some .directory

/-- The manifest that is loaded from such a place, if any, is the one that was there. -/
theorem ManifestStays.load (h : ManifestStays a d.tree d'.tree) (hl : l.root = Path.ofAddress a)
    (hroot : d.tree.get? a = some .directory) (hno : d.tree.NoLinksIn a)
    (hroot' : d'.tree.get? a = some .directory) (hno' : d'.tree.NoLinksIn a)
    (hload : Manifest.load l d' = .ok m) : Manifest.load l d = .ok m := by
  rcases h with hsame | hdir
  · rwa [← load_congr hl hroot hno hroot' hno' hsame]
  · rw [load_eq hl hroot' hno', hdir] at hload
    cases hload

/-- A change elsewhere makes at most a directory in the place of the manifest. -/
theorem manifestStays_of_changed {files dirs : Address → Prop} {t t' : Tree}
    (h : t.Changed files dirs a t') (hnot : ¬ files (manifestAddress a)) : ManifestStays a t t' := by
  cases hget' : t'.get? (manifestAddress a) with
  | none =>
    cases hget : t.get? (manifestAddress a) with
    | none => exact .inl (hget'.trans hget.symm)
    | some node => cases (h.kept _ node hget (.inr hnot)).symm.trans hget'
  | some node =>
    rcases h.new _ node hget' with hold | ⟨rfl, -⟩ | ⟨hf, -⟩
    · exact .inl (hget'.trans hold.symm)
    · exact .inr hget'
    · exact absurd hf hnot

/-- A change elsewhere leaves the manifest, if it can still be loaded. -/
theorem load_of_changed {files dirs : Address → Prop} (hl : l.root = Path.ofAddress a)
    (hroot : d.tree.get? a = some .directory) (hno : d.tree.NoLinksIn a)
    (h : d.tree.Changed files dirs a d'.tree) (hnot : ¬ files (manifestAddress a))
    (hload : Manifest.load l d' = .ok m) : Manifest.load l d = .ok m :=
  (manifestStays_of_changed h hnot).load hl hroot hno h.root h.noLinks hload

theorem not_bundleFiles_manifest {c : Address} : ¬ BundleFiles a c (manifestAddress a) := by
  rintro ⟨n, hn, he | he⟩
  · exact absurd ((List.cons.inj he).1 ▸ hn) (by decide)
  · exact (Transaction.draftName_not_mem hn).2 (List.cons.inj he).1.symm

/-- Where a manifest cannot be stored, its place is as it was. -/
theorem manifestStays_of_save_error {e : Failure} (hl : l.root = Path.ofAddress a)
    (hroot : d.tree.get? a = some .directory) (hno : d.tree.NoLinksIn a)
    (h : (m.save l).on d = (.error e, d')) : ManifestStays a d.tree d'.tree := by
  by_cases hmanifest : d.tree.get? (manifestAddress a) = some .directory
  · have hchanged : d.tree.Changed (fun _ => True) (fun _ => True) a ((m.save l).on d).2.tree :=
      changed_save hl (Tree.isWay_of_get? hroot) trivial trivial (fun _ _ => trivial) d
        (.refl hroot hno)
    rw [h] at hchanged
    exact .inr (hchanged.directory hmanifest)
  · have houtcome := save_on (m := m) hl hroot hno hmanifest
    rw [h] at houtcome
    cases houtcome with
    | blocked e hbridge => exact .inl rfl
    | refused e d' hdraft hget =>
      exact .inl ((hget _).trans (if_neg fun he => List.cons_ne_self _ _ he))

/-- Where an action cannot be generated, the place of the manifest is as it was, or a directory of
the bundle has been made there. -/
theorem manifestStays_of_generate_error {e : Failure} (hp : p.Usable)
    (hl : p.layout.root = Path.ofAddress a) (hname : isName occasion.transactionName = true)
    (hroot : d.tree.get? a = some .directory) (hno : d.tree.NoLinksIn a)
    (h : (p.generate occasion m path).on d = (.error e, d')) : ManifestStays a d.tree d'.tree := by
  have hpublished : ∀ plan, p.plan occasion path d = .ok plan →
      d.tree.Changed (BundleFiles a plan.place) (Ways a plan.place) a
        ((publish p.layout occasion plan).on d).2.tree := fun plan hplan =>
    changed_publish hp hl hname (sound_of_plan hp hplan) hroot hno
  have hgenerating := generating p occasion m path d
  rw [h] at hgenerating
  cases hgenerating with
  | notPlanned | notClaimed => exact .inl rfl
  | notPublished plan kept e d' hplan hclaim hpublish =>
    have hchanged := hpublished plan hplan
    rw [hpublish] at hchanged
    exact manifestStays_of_changed hchanged not_bundleFiles_manifest
  | notStored plan kept files d₁ e d' hplan hclaim hpublish hsave =>
    have hchanged := hpublished plan hplan
    rw [hpublish] at hchanged
    have hstays := manifestStays_of_changed hchanged not_bundleFiles_manifest
    rcases manifestStays_of_save_error hl hchanged.root hchanged.noLinks hsave with hsame | hdir
    · exact hstays.imp hsame.trans hsame.trans
    · exact .inr hdir

/-- An action that fails puts nothing on record: the manifest that is loaded afterwards, if any, is
the one that was loaded before. -/
theorem load_of_generate_error {e : Failure} (hp : p.Usable)
    (hl : p.layout.root = Path.ofAddress a) (hname : isName occasion.transactionName = true)
    (hroot : d.tree.get? a = some .directory) (hno : d.tree.NoLinksIn a)
    (h : (p.generate occasion m path).on d = (.error e, d'))
    (hload : Manifest.load p.layout d' = .ok m') : Manifest.load p.layout d = .ok m' := by
  have hsteady : Steady a d.tree ((p.generate occasion m path).on d).2.tree :=
    steady_generate hl hroot hno hp hname
  rw [h] at hsteady
  exact (manifestStays_of_generate_error hp hl hname hroot hno h).load hl hroot hno hsteady.root
    hsteady.noLinks hload

/-! ### What stays mapped -/

/-- A claim forgets no model that is there. -/
theorem artifactOf?_claim (h : claim l m source artifact d = .ok m')
    (hother : d.isFile (l.resolve other) = true) : m'.artifactOf? other = m.artifactOf? other := by
  rcases eq_of_claim h with ⟨rfl, -⟩ | ⟨owner, -, -, hgone, rfl⟩
  · rfl
  · rw [Manifest.artifactOf?_forget, if_neg]
    rintro rfl
    cases hgone.symm.trans hother

/-- Generating an action maps its model, and no model that is there is mapped no more. -/
theorem Carried.artifactOf? {g : Generated} {plan : Plan} {kept : Manifest} {d₁ : Disk}
    (h : Carried p occasion m path d g m' d' plan kept d₁)
    (hother : d.isFile (p.layout.resolve other) = true) :
    m'.artifactOf? other =
      if other = plan.source then some plan.artifact else m.artifactOf? other := by
  rw [h.manifest, Manifest.artifactOf?_upsert, artifactOf?_claim h.claimed hother]

end Project

end ActionBundles
