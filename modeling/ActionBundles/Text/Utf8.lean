import ActionBundles.Text.Basic

/-!
# Bytes of text

Files hold bytes, and a text is stored as its UTF-8 bytes. `Text.ofUtf8?` reads bytes back;
`ofUtf8?_utf8` says that storing and reading gives the text.
-/

namespace ActionBundles

/-- What a file holds. -/
abbrev Bytes := List UInt8

namespace Text

/-- The UTF-8 bytes of a text. -/
def utf8 (t : Text) : Bytes := t.flatMap String.utf8EncodeChar

/-- The text that the bytes are the UTF-8 form of, if there is one. -/
def ofUtf8? (bytes : Bytes) : Option Text :=
  (String.fromUTF8? bytes.toByteArray).map String.toList

/-- What is stored is read back. -/
@[simp] theorem ofUtf8?_utf8 (t : Text) : ofUtf8? t.utf8 = some t := by
  have stored : t.utf8.toByteArray = t.utf8Encode := by simp [utf8, List.utf8Encode]
  have valid : t.utf8Encode.IsValidUTF8 := ⟨t, rfl⟩
  rw [ofUtf8?, stored, String.fromUTF8?]
  simp only [valid, ↓reduceDIte, Option.map_some, Option.some.injEq]
  exact String.toList_ofList

/-! ### Bytes of single characters -/

@[simp] theorem utf8_append (a b : Text) : utf8 (a ++ b) = a.utf8 ++ b.utf8 := List.flatMap_append

theorem utf8_cons (c : Char) (t : Text) : utf8 (c :: t) = String.utf8EncodeChar c ++ t.utf8 := rfl

/-- A character of ASCII is one byte. -/
theorem utf8EncodeChar_of_lt {c : Char} (h : c.toNat < 0x80) :
    String.utf8EncodeChar c = [UInt8.ofNat c.toNat] := by
  have hv : c.val.toNat ≤ 0x7f := Nat.lt_succ_iff.1 h
  simp only [String.utf8EncodeChar, hv, ↓reduceIte]
  rfl

/-- The bytes of a character beyond ASCII are beyond ASCII. -/
theorem le_of_mem_utf8EncodeChar {c : Char} {b : UInt8} (h : 0x80 ≤ c.toNat)
    (hb : b ∈ String.utf8EncodeChar c) : 0x80 ≤ b := by
  have hv : ¬ c.val.toNat ≤ 0x7f := Nat.not_le.2 h
  simp only [String.utf8EncodeChar, hv, ↓reduceIte] at hb
  have hbyte : ∀ low mask, 0x80 ≤ mask → low + mask < 0x100 →
      (0x80 : UInt8) ≤ UInt8.ofNat (low + mask) := fun low mask hm hl => by
    rw [UInt8.le_iff_toNat_le, UInt8.toNat_ofNat_of_lt' hl]
    exact Nat.le_trans hm (Nat.le_add_left mask low)
  split at hb
  · simp only [List.mem_cons, List.not_mem_nil, or_false] at hb
    rcases hb with rfl | rfl <;> exact hbyte _ _ (by decide) (by omega)
  · split at hb
    · simp only [List.mem_cons, List.not_mem_nil, or_false] at hb
      rcases hb with rfl | rfl | rfl <;> exact hbyte _ _ (by decide) (by omega)
    · simp only [List.mem_cons, List.not_mem_nil, or_false] at hb
      rcases hb with rfl | rfl | rfl | rfl <;> exact hbyte _ _ (by decide) (by omega)

end Text

end ActionBundles
