import ActionBundles.Bundle.SyncRecord
import ActionBundles.Manifest.Storage
import ActionBundles.Proofs.JsonDocuments
import ActionBundles.Proofs.PartialDocuments

/-!
# Stored records are read back

A manifest and a sync record that were stored are read back as they were. What else the program
writes into files is no manifest, and no first part of it is: a text that starts with a number sign,
a sync record, nothing at all.
-/

namespace ActionBundles

/-! ### Dictionaries from their entries -/

namespace Dict

variable {κ υ : Type} [Ord κ]

/-- A key behind all others is put at the end. -/
theorem insertEntry_of_forall_lt [Std.OrientedOrd κ] {k : κ} {v : υ} {l : List (κ × υ)}
    (h : ∀ e ∈ l, compare e.1 k = .lt) : insertEntry k v l = l ++ [(k, v)] := by
  induction l with
  | nil => rfl
  | cons e l ih =>
    have he := h e (by simp)
    have hgt : compare k e.1 = .gt := Std.OrientedCmp.gt_of_lt he
    rw [insertEntry, hgt, ih fun e' he' => h e' (by simp [he'])]
    rfl

theorem ext_toList {d₁ d₂ : Dict κ υ} (h : d₁.toList = d₂.toList) : d₁ = d₂ := by
  cases d₁
  cases d₂
  cases h
  rfl

theorem ofList_toList [Std.TransOrd κ] (d : Dict κ υ) : ofList d.toList = d := by
  have hfold : ∀ (l : List (κ × υ)) (acc : Dict κ υ),
      (acc.toList ++ l).Pairwise (fun a b => compare a.1 b.1 = .lt) →
      (l.foldl (fun d e => d.insert e.1 e.2) acc).toList = acc.toList ++ l := by
    intro l
    induction l with
    | nil => intro acc _; simp
    | cons e l ih =>
      intro acc h
      have hlt : ∀ e' ∈ acc.toList, compare e'.1 e.1 = .lt := fun e' he' =>
        (List.pairwise_append.1 h).2.2 e' he' e (by simp)
      have hinsert : (acc.insert e.1 e.2).toList = acc.toList ++ [e] :=
        insertEntry_of_forall_lt hlt
      rw [List.foldl_cons, ih (acc.insert e.1 e.2) (by rw [hinsert]; simpa using h), hinsert]
      simp
  have hlist : (ofList d.toList).toList = d.toList :=
    hfold d.toList empty (by simpa [empty] using d.sorted)
  exact ext_toList hlist

end Dict

/-! ### Reading what was written -/

namespace Json

theorem entriesAreSound_iff {entries : List (Text × Json)} :
    entriesAreSound entries = true ↔ ∀ e ∈ entries, isSound e.2 = true := by
  induction entries with
  | nil => simp [entriesAreSound]
  | cons e entries ih => simp [entriesAreSound, ih]

theorem dict?_object {α : Type} {decode : Json → Option α} {encode : α → Json} (d : Dict Text α)
    (h : ∀ e ∈ d.toList, decode (encode e.2) = some e.2) :
    dict? decode (.object (d.toList.map fun e => (e.1, encode e.2))) = some d := by
  have hmap : ∀ l : List (Text × α), (∀ e ∈ l, decode (encode e.2) = some e.2) →
      (l.map fun e => (e.1, encode e.2)).mapM (fun e => (decode e.2).map (e.1, ·)) = some l := by
    intro l
    induction l with
    | nil => intro _; rfl
    | cons e l ih =>
      intro h
      rw [List.map_cons, List.mapM_cons, h e (by simp), ih fun e' he' => h e' (by simp [he'])]
      rfl
  rw [dict?, hmap d.toList h, Option.map_some, Dict.ofList_toList]

end Json

namespace GeneratedRecord

theorem ofJson?_toJson (r : GeneratedRecord) : ofJson? r.toJson = some r := by
  have hfields : Json.fields? ["source_path", "generated_at", "source_version"] r.toJson =
      some [some (.string r.source), some (.string r.generatedAt), some (.string r.version)] := by
    rfl
  rw [ofJson?, hfields]
  rfl

end GeneratedRecord

namespace Manifest

theorem ofJson?_toJson (m : Manifest) : ofJson? m.toJson = some (formatVersion, m) := by
  have hfields : Json.fields? ["schema_version", "mappings", "generated"] m.toJson =
      some [some (Json.ofNat formatVersion), some m.mappingsJson, some m.generatedJson] := by
    rfl
  have hversion : Json.word? (Json.ofNat formatVersion) = some formatVersion := by decide
  have hmappings : Json.dict? Json.text? m.mappingsJson = some m.mappings :=
    Json.dict?_object m.mappings fun _ _ => rfl
  have hgenerated : Json.dict? GeneratedRecord.ofJson? m.generatedJson = some m.generated :=
    Json.dict?_object m.generated fun e _ => e.2.ofJson?_toJson
  rw [ofJson?, hfields]
  simp [Json.orElse?, hversion, hmappings, hgenerated]

theorem isSound_toJson (m : Manifest) : Json.isSound m.toJson = true := by
  have hmappings : Json.isSound m.mappingsJson = true := by
    rw [mappingsJson, Json.isSound, Json.entriesAreSound_iff, List.forall_mem_map]
    exact fun _ _ => rfl
  have hgenerated : Json.isSound m.generatedJson = true := by
    rw [generatedJson, Json.isSound, Json.entriesAreSound_iff, List.forall_mem_map]
    exact fun _ _ => rfl
  have hversion : Json.isSound (Json.ofNat formatVersion) = true := by decide
  simp [toJson, Json.isSound, Json.entriesAreSound, hmappings, hgenerated, hversion]

/-- A manifest that was stored is read back. -/
theorem read_render (path : Text) (m : Manifest) : read path m.render.utf8 = .ok m := by
  rw [read, render, Json.read?_pretty m.isSound_toJson (.inr rfl), Option.bind_some, ofJson?_toJson]
  rfl

/-! ### What is no manifest -/

/-- No first part of the bytes is the document of a manifest, and they are none as a whole. -/
def IsForeign (bytes : Bytes) : Prop :=
  ∀ part, part <+: bytes → (Json.read? part).bind ofJson? = none

/-- A first part of what is foreign is foreign. -/
theorem IsForeign.of_prefix {part bytes : Bytes} (h : IsForeign bytes) (hpart : part <+: bytes) :
    IsForeign part := fun part' hpart' => h part' (hpart'.trans hpart)

theorem isForeign_nil : IsForeign [] := fun part hpart => by
  rw [List.prefix_nil.1 hpart]
  rfl

/-- A text that starts with a number sign is no manifest. -/
theorem isForeign_of_numberSign (rest : Text) : IsForeign (Text.utf8 ('#' :: rest)) := by
  intro part hpart
  rw [Text.utf8_cons, show String.utf8EncodeChar '#' = [0x23] by decide,
    List.singleton_append, List.prefix_cons_iff] at hpart
  obtain rfl | ⟨more, rfl, -⟩ := hpart
  · rfl
  · have htokens : Json.tokens? (0x23 :: more) = none := by
      rw [Json.tokens?, Json.scan?]
      rfl
    rw [Json.read?, htokens]
    rfl

/-- What is read as a manifest is not foreign. -/
theorem not_isForeign_of_read {path : Text} {bytes : Bytes} {m : Manifest}
    (h : read path bytes = .ok m) : ¬ IsForeign bytes := by
  intro hforeign
  rw [read, hforeign bytes (List.prefix_refl _)] at h
  cases h

end Manifest

namespace SyncRecord

theorem ofJson?_toJson (r : SyncRecord) : ofJson? r.toJson = some r := by
  have hfields : Json.fields? ["source", "generated", "version", "checksum"] r.toJson =
      some [some (.string r.source), some (.string r.generated), some (.string r.version),
        some (.string r.checksum)] := by
    rfl
  rw [ofJson?, hfields]
  rfl

/-- The document of a sync record. -/
def document (r : SyncRecord) : Text := r.toJson.pretty ++ ['\n']

theorem read?_document (r : SyncRecord) : Json.read? r.document.utf8 = some r.toJson :=
  Json.read?_pretty (by simp [toJson, Json.isSound, Json.entriesAreSound]) (.inr rfl)

/-- A sync record that was stored is read back. -/
theorem ofJson?_read?_document (r : SyncRecord) :
    (Json.read? r.document.utf8).bind ofJson? = some r := by
  rw [read?_document, Option.bind_some, ofJson?_toJson]

/-- A sync record is no manifest: under the key of the manifest's records it has a time. -/
theorem isForeign_document (r : SyncRecord) : Manifest.IsForeign r.document.utf8 := by
  intro part hpart
  cases hread : Json.read? part with
  | none => rfl
  | some value =>
    obtain rfl := Json.eq_of_read?_prefix hpart rfl hread r.read?_document
    have hfields : Json.fields? ["schema_version", "mappings", "generated"] r.toJson =
        some [none, none, some (.string r.generated)] := by
      rfl
    rw [Option.bind_some, Manifest.ofJson?, hfields]
    rfl

end SyncRecord

end ActionBundles
