import ActionBundles.Command.Run
import ActionBundles.Proofs.Bijection
import ActionBundles.Proofs.Keeping
import ActionBundles.Proofs.StoredRecords

/-!
# The guarded manifest

A project guards its manifest if the file that stands in the manifest's place holds a bijective
manifest, or at worst no manifest at all. `Project.Guarded` says so, together with what it takes
to keep it so: the project is there, and none of the entries that lead to the manifest or to the
transactions is a link. A manifest can be spoilt only through links; where the tree has none, what
stands in the place is always a manifest.

An entry that is new leaves the manifest guarded if `Project.Admits` allows it.
-/

namespace ActionBundles

namespace Project

/-! ### The program's own entries -/

/-- The directory of the program's own files in the project at `a`. -/
def bridgeAddress (a : Address) : Address := (".bridge" : Text) :: a

/-- The directory of the transactions. -/
def transactionsAddress (a : Address) : Address := ("txns" : Text) :: bridgeAddress a

/-- The place of the manifest. -/
def manifestAddress (a : Address) : Address := ("manifest.json" : Text) :: bridgeAddress a

/-- The place of the manifest while it is written. -/
def draftAddress (a : Address) : Address := (".manifest.json.tmp" : Text) :: bridgeAddress a

/-- The entries that are no links. -/
def ownAddresses (a : Address) : List Address :=
  [bridgeAddress a, transactionsAddress a, manifestAddress a, draftAddress a]

/-- The names of these entries. -/
def ownNames : List Text := [".bridge", "txns", "manifest.json", ".manifest.json.tmp"]

theorem mem_ownNames {a b : Address} {n : Text} (h : n :: b ∈ ownAddresses a) : n ∈ ownNames := by
  simp only [ownAddresses, bridgeAddress, transactionsAddress, manifestAddress, draftAddress,
    List.mem_cons, List.cons.injEq, List.not_mem_nil, or_false] at h
  rcases h with ⟨rfl, -⟩ | ⟨rfl, -⟩ | ⟨rfl, -⟩ | ⟨rfl, -⟩ <;> simp [ownNames]

variable {a : Address} {l : Layout}

theorem bridgeAddress_mem : bridgeAddress a ∈ ownAddresses a := List.mem_cons_self

theorem transactionsAddress_mem : transactionsAddress a ∈ ownAddresses a :=
  List.mem_cons_of_mem _ List.mem_cons_self

theorem manifestAddress_mem : manifestAddress a ∈ ownAddresses a :=
  List.mem_cons_of_mem _ (List.mem_cons_of_mem _ List.mem_cons_self)

theorem draftAddress_mem : draftAddress a ∈ ownAddresses a :=
  List.mem_cons_of_mem _ (List.mem_cons_of_mem _ (List.mem_cons_of_mem _ List.mem_cons_self))

theorem isWay_bridgeAddress (ha : Path.IsWay a) : Path.IsWay (bridgeAddress a) :=
  ha.cons (by decide)

theorem bridgeDir_eq (ha : Path.IsWay a) (hl : l.root = Path.ofAddress a) :
    l.bridgeDir = Path.ofAddress (bridgeAddress a) := by
  rw [Layout.bridgeDir, Layout.resolve, hl, Path.join_ofAddress ha (by decide)]
  rfl

theorem join_bridgeDir (ha : Path.IsWay a) (hl : l.root = Path.ofAddress a) {n : Text}
    (hn : Path.isStep n = true) :
    Path.join l.bridgeDir n = Path.ofAddress (n :: bridgeAddress a) := by
  rw [bridgeDir_eq ha hl, Path.join_ofAddress (isWay_bridgeAddress ha) hn]

theorem manifestPath_eq (ha : Path.IsWay a) (hl : l.root = Path.ofAddress a) :
    l.manifestPath = Path.ofAddress (manifestAddress a) := join_bridgeDir ha hl (by decide)

theorem transactionsDir_eq (ha : Path.IsWay a) (hl : l.root = Path.ofAddress a) :
    l.transactionsDir = Path.ofAddress (transactionsAddress a) := join_bridgeDir ha hl (by decide)

/-! ### The guard -/

/-- A content that may stand in the place of the manifest: a bijective manifest or, where there are
links, no manifest at all. -/
def MayStand (links : Bool) (content : Bytes) : Prop :=
  (∃ m : Manifest, m.Bijective ∧ content = m.render.utf8) ∨
    (links = true ∧ Manifest.IsForeign content)

/-- The project at `a` is there and its manifest is guarded. There are links only if `links` is
set. -/
structure Guarded (links : Bool) (a : Address) (t : Tree) : Prop where
  /-- The project is there. -/
  root : t.get? a = some .directory
  /-- The program's own entries are no links. -/
  unlinked : ∀ b ∈ ownAddresses a, ∀ target, t.get? b ≠ some (.link target)
  /-- What stands in the place of the manifest. -/
  stored : ∀ content mode, t.get? (manifestAddress a) = some (.file content mode) →
    MayStand links content
  /-- There are no other links than allowed. -/
  linkFree : links = false → ∀ b target, t.get? b ≠ some (.link target)

/-- A new entry that leaves the manifest guarded. -/
structure Admits (links : Bool) (a : Address) (e : Address × Node) : Prop where
  link : ∀ target, e.2 = .link target → links = true ∧ e.1 ∉ ownAddresses a
  file : ∀ content mode, e.2 = .file content mode → e.1 = manifestAddress a →
    MayStand links content

variable {links : Bool} {t t' : Tree}

theorem admits_directory (b : Address) : Admits links a (b, .directory) where
  link _ h := by cases h
  file _ _ h := by cases h

theorem admits_file {b : Address} {content : Bytes} {mode : Bool}
    (h : b = manifestAddress a → MayStand links content) :
    Admits links a (b, .file content mode) where
  link _ h := by cases h
  file _ _ hfile hb := by
    cases hfile
    exact h hb

theorem Guarded.gains {new : List (Address × Node)} (h : Guarded links a t)
    (hgains : t.Gains t' new) (hnew : ∀ e ∈ new, Admits links a e) : Guarded links a t' where
  root := hgains.directory a h.root
  unlinked b hb target hlink := by
    rcases hgains.entry b _ hlink with hlink | hmem
    · exact h.unlinked b hb target hlink
    · exact ((hnew _ hmem).link target rfl).2 hb
  stored content mode hfile := by
    rcases hgains.entry _ _ hfile with hfile | hmem
    · exact h.stored content mode hfile
    · exact (hnew _ hmem).file content mode rfl rfl
  linkFree hlinks b target hlink := by
    rcases hgains.entry b _ hlink with hlink | hmem
    · exact h.linkFree hlinks b target hlink
    · have := ((hnew _ hmem).link target rfl).1
      rw [hlinks] at this
      cases this

/-- An entry that is there may be anywhere but in the place of another of the program's own. -/
theorem Guarded.admits_moved (h : Guarded links a t) {old b : Address} {node : Node}
    (hold : t.get? old = some node) (hb : b ∉ ownAddresses a) : Admits links a (b, node) where
  link target hnode := by
    refine ⟨?_, hb⟩
    cases hlinks : links with
    | true => rfl
    | false => exact absurd (hnode ▸ hold) (h.linkFree hlinks old target)
  file content mode _ he := by
    obtain rfl : b = manifestAddress a := he
    exact absurd manifestAddress_mem hb

theorem Guarded.plain_bridge (h : Guarded links a t) : t.Plain (bridgeAddress a) := by
  intro b hb target hlink
  rcases List.suffix_cons_iff.1 hb with rfl | hb
  · exact h.unlinked _ bridgeAddress_mem target hlink
  · exact Tree.plain_of_get? h.root (by simp) b hb target hlink

theorem Guarded.plain_own (h : Guarded links a t) {n : Text}
    (hn : n :: bridgeAddress a ∈ ownAddresses a) : t.Plain (n :: bridgeAddress a) := by
  intro b hb target hlink
  rcases List.suffix_cons_iff.1 hb with rfl | hb
  · exact h.unlinked _ hn target hlink
  · exact h.plain_bridge b hb target hlink

/-! ### Changes that keep it guarded -/

open ActionBundles.Action

theorem guarded_makeDirectories [Medium] (path : Text) :
    Keeps (Guarded links a) (Disk.makeDirectories path) :=
  Disk.keeps_makeDirectories path fun _ _ b h hgains => h.gains hgains fun e he => by
    obtain rfl := List.mem_singleton.1 he
    exact admits_directory b

/-- Where a path ends in another name than the manifest's, a file that holds no manifest may be
written. -/
theorem Guarded.admits_foreign {d : Disk} (h : Guarded links a d.tree) {path n : Text} {spot : Spot}
    {content : Bytes} {mode : Bool} (hp : Path.EndsIn path n) (hn : n ≠ "manifest.json".toList)
    (hforeign : Manifest.IsForeign content) (hspot : d.openForWriting path = .ok spot) :
    Admits links a (spot.address, .file content mode) := by
  refine admits_file fun he => ?_
  cases hlinks : links with
  | true => exact .inr ⟨rfl, hforeign⟩
  | false =>
    obtain ⟨above, habove⟩ := Disk.address_of_openForWriting (h.linkFree hlinks) hp hspot
    rw [habove] at he
    exact absurd (List.cons.inj he).1 hn

theorem guarded_put [Medium] {path n : Text} {content : Bytes} {executable : Option Bool}
    (hp : Path.EndsIn path n) (hn : n ≠ "manifest.json".toList)
    (hforeign : Manifest.IsForeign content) :
    Keeps (Guarded links a) (Disk.put path content executable) :=
  Disk.keeps_put fun _ _ _ _ _ h hspot hpart hgains => h.gains hgains fun e he => by
    obtain rfl := List.mem_singleton.1 he
    exact h.admits_foreign hp hn (hforeign.of_prefix hpart) hspot

theorem guarded_touch [Medium] {path n : Text} (hp : Path.EndsIn path n)
    (hn : n ≠ "manifest.json".toList) : Keeps (Guarded links a) (Disk.touch path) :=
  Disk.keeps_touch fun _ _ _ _ h hspot hgains => h.gains hgains fun e he => by
    obtain rfl := List.mem_singleton.1 he
    exact h.admits_foreign hp hn Manifest.isForeign_nil hspot

theorem guarded_makeExecutable {path : Text} (hp : Path.isAbsolute path = true) :
    Keeps (Guarded links a) (Disk.makeExecutable path) :=
  Disk.keeps_makeExecutable hp fun _ _ _ content mode h hfile hgains => h.gains hgains fun e he => by
    obtain rfl := List.mem_singleton.1 he
    refine admits_file fun hb => ?_
    rw [hb] at hfile
    exact h.stored content mode hfile

theorem guarded_move {source target n : Text} (hs : Path.isAbsolute source = true)
    (ht : Path.EndsIn target n) (hn : n ∉ ownNames) :
    Keeps (Guarded links a) (Disk.move source target) :=
  Disk.keeps_move hs fun _ _ _ _ spot h _ _ hold hspot hgains => h.gains hgains fun e he => by
    obtain rfl := List.mem_singleton.1 he
    refine h.admits_moved hold fun hmem => ?_
    obtain ⟨above, habove⟩ := Disk.address_of_place ht hspot
    rw [habove] at hmem
    exact hn (mem_ownNames hmem)

theorem guarded_removeFile {path : Text} (hp : Path.isAbsolute path = true) :
    Keeps (Guarded links a) (Disk.removeFile path) :=
  Disk.keeps_removeFile hp fun _ _ h hgains => h.gains hgains fun e he => by cases he

/-- What lies apart from the project may go. -/
theorem Guarded.prune (h : Guarded links a t) {b : Address} (hb : ¬ b <:+ a) :
    Guarded links a (t.prune b) where
  root := by
    rw [Tree.get?_prune_of_not_suffix hb]
    exact h.root
  unlinked c hc target hlink := h.unlinked c hc target (Tree.get?_of_prune hlink)
  stored content mode hfile := h.stored content mode (Tree.get?_of_prune hfile)
  linkFree hlinks c target hlink := h.linkFree hlinks c target (Tree.get?_of_prune hlink)

/-! ### The manifest itself -/

section Storage

variable {m : Manifest} {d : Disk}

theorem Guarded.isWay (h : Guarded links a t) : Path.IsWay a := Tree.isWay_of_get? h.root

theorem nul_not_mem_own (h : Guarded links a d.tree) {n : Text} (hn : isName n = true) :
    ∀ k ∈ n :: bridgeAddress a, '\x00' ∉ k := by
  intro k hk
  rcases List.mem_cons.1 hk with rfl | hk
  · exact (isName_iff.1 hn).2.1
  rcases List.mem_cons.1 hk with rfl | hk
  · decide
  · exact Disk.nul_not_mem_of_get? h.root k hk

/-- A manifest that can be loaded is bijective. -/
theorem Guarded.bijective_of_load (h : Guarded links a d.tree) (hl : l.root = Path.ofAddress a)
    (hload : Manifest.load l d = .ok m) : m.Bijective := by
  have hway : Path.IsWay (manifestAddress a) := (isWay_bridgeAddress h.isWay).cons (by decide)
  rw [Manifest.load, manifestPath_eq h.isWay hl] at hload
  split at hload
  · next hthere =>
    have hnone := (Disk.isThere_ofAddress hway (nul_not_mem_own h (by decide))
      (h.plain_own manifestAddress_mem)).1 hthere
    obtain ⟨node, hnode⟩ := Option.ne_none_iff_exists'.1 hnone
    have hlink : ∀ target, node ≠ .link target := fun target he =>
      h.unlinked _ manifestAddress_mem target (he ▸ hnode)
    rw [Disk.read, Disk.find_of_get? hnode hlink] at hload
    cases node with
    | directory => cases hload
    | link target => exact absurd rfl (hlink target)
    | file content mode =>
      rcases h.stored content mode hnode with ⟨m', hm', rfl⟩ | ⟨-, hforeign⟩
      · have hread : Manifest.read (Path.ofAddress (manifestAddress a)) m'.render.utf8 = .ok m :=
          hload
        rw [Manifest.read_render] at hread
        cases hread
        exact hm'
      · exact absurd hforeign (Manifest.not_isForeign_of_read hload)
  · cases hload
    exact Manifest.bijective_empty

/-- Without links, the manifest can be loaded unless a directory stands in its place. -/
theorem Guarded.exists_load (h : Guarded false a d.tree) (hl : l.root = Path.ofAddress a)
    (hdir : d.tree.get? (manifestAddress a) ≠ some .directory) :
    ∃ m, Manifest.load l d = .ok m := by
  rw [Manifest.load, manifestPath_eq h.isWay hl]
  split
  · next hthere =>
    have hway : Path.IsWay (manifestAddress a) := (isWay_bridgeAddress h.isWay).cons (by decide)
    have hnone := (Disk.isThere_ofAddress hway (nul_not_mem_own h (by decide))
      (h.plain_own manifestAddress_mem)).1 hthere
    obtain ⟨node, hnode⟩ := Option.ne_none_iff_exists'.1 hnone
    cases node with
    | directory => exact absurd hnode hdir
    | link target => exact absurd hnode (h.linkFree rfl _ target)
    | file content mode =>
      rcases h.stored content mode hnode with ⟨m, -, rfl⟩ | ⟨hlinks, -⟩
      · rw [Disk.read, Disk.find_of_get? hnode (by simp)]
        exact ⟨m, Manifest.read_render _ m⟩
      · cases hlinks
  · exact ⟨{}, rfl⟩

theorem guarded_lock [Medium] (hl : l.root = Path.ofAddress a) :
    Keeps (Guarded links a) (Manifest.lock l) := by
  intro d h
  have hpath : Path.EndsIn l.lockPath "manifest.lock".toList := by
    rw [Layout.lockPath, join_bridgeDir h.isWay hl (by decide)]
    exact Path.endsIn_ofAddress ((isWay_bridgeAddress h.isWay).cons (by decide))
  have hlock : Keeps (Guarded links a) (Manifest.lock l) :=
    ((guarded_makeDirectories _).within _).bind fun _ =>
      (guarded_touch hpath (by decide)).within _
  exact hlock d h

/-- A bijective manifest is moved into its place. -/
theorem Guarded.move_draft (h : Guarded links a d.tree) (hm : m.Bijective)
    (hdraft : ∃ mode, d.tree.get? (draftAddress a) = some (.file m.render.utf8 mode)) :
    Guarded links a ((Disk.move (Path.ofAddress (draftAddress a))
      (Path.ofAddress (manifestAddress a))).on d).2.tree := by
  rcases Disk.move_gains (Path.isAbsolute_ofAddress (draftAddress a))
    (Path.ofAddress (manifestAddress a)) d with
    he | ⟨old, node, spot, hsource, -, -, -, hgains⟩
  · rwa [he]
  · obtain ⟨mode, hdraft⟩ := hdraft
    rw [Disk.place_of_get? hdraft] at hsource
    cases hsource
    refine h.gains hgains fun e he => ?_
    obtain rfl := List.mem_singleton.1 he
    exact admits_file fun _ => .inl ⟨m, hm, rfl⟩

/-- The draft of the manifest may be written, and what is written without a failure is there. -/
theorem Guarded.put_draft [Medium] (h : Guarded links a d.tree) (content : Bytes) :
    Guarded links a ((Disk.put (Path.ofAddress (draftAddress a)) content none).on d).2.tree ∧
      ∀ d', (Disk.put (Path.ofAddress (draftAddress a)) content none).on d = (.ok (), d') →
        ∃ mode, d'.tree.get? (draftAddress a) = some (.file content mode) := by
  have hway : Path.IsWay (draftAddress a) := (isWay_bridgeAddress h.isWay).cons (by decide)
  have haddress : ∀ spot, d.openForWriting (Path.ofAddress (draftAddress a)) = .ok spot →
      spot.address = draftAddress a := fun spot =>
    Disk.address_of_openForWriting_plain hway (nul_not_mem_own h (by decide))
      (h.plain_own draftAddress_mem)
  constructor
  · rcases Disk.put_gains (Path.ofAddress (draftAddress a)) content none d with
      he | ⟨spot, part, mode, hopen, -, hgains⟩
    · rwa [he]
    · refine h.gains hgains fun e he => ?_
      obtain rfl := List.mem_singleton.1 he
      rw [haddress spot hopen]
      exact admits_file fun he => absurd (List.cons.inj he).1 (by decide)
  · intro d' hput
    obtain ⟨n, dir, mode, spot, hopen, hspot, hdir, hplace, -, rfl⟩ :=
      Disk.exists_of_put (Path.isAbsolute_ofAddress _) hput
    obtain ⟨rfl, rfl⟩ := List.cons.inj (hspot.symm.trans (haddress spot hopen))
    exact ⟨mode, (Tree.get?_set_of_directory hdir (by decide) (.inr hplace) _).trans (if_pos rfl)⟩

/-- Storing a bijective manifest. -/
theorem guarded_save [Medium] (hl : l.root = Path.ofAddress a) (hm : m.Bijective) :
    Keeps (Guarded links a) (m.save l) := by
  intro d h
  have hway := isWay_bridgeAddress h.isWay
  rw [Manifest.save, bridgeDir_eq h.isWay hl, manifestPath_eq h.isWay hl,
    Path.join_ofAddress hway (by decide)]
  refine ((guarded_makeDirectories _).within _).before (fun _ h => h) (fun _ d₁ h₁ => ?_) d h
  obtain ⟨hkeeps, hstored⟩ := h₁.put_draft m.render.utf8
  show Guarded links a (Action.on ((Disk.write (Path.ofAddress (draftAddress a)) _).within _ >>=
    fun _ => (Disk.move (Path.ofAddress (draftAddress a)) _).within _) d₁).2.tree
  rw [Action.on_bind, Action.on_within, Disk.write]
  generalize (Disk.put (Path.ofAddress (draftAddress a)) m.render.utf8 none).on d₁ = written
    at hkeeps hstored ⊢
  obtain ⟨e | _, d₂⟩ := written
  · exact hkeeps
  · dsimp only [Except.mapError]
    rw [Action.on_within]
    exact hkeeps.move_draft hm (hstored d₂ rfl)

end Storage

end Project

end ActionBundles
