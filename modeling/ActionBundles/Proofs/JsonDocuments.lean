import ActionBundles.Json.Printer
import ActionBundles.Json.Reader
import Mathlib.Data.List.TakeWhile
import Mathlib.Tactic.IntervalCases

/-!
# What is written as JSON is read back

A value that is written as `Json.pretty` writes it is what its document stands for. The proof goes
by way of the tokens of a value: `tokensOf` lists them, `scan?` cuts the written value into them,
and a fold of `Reading.step?` over them puts the value where it belongs.

Both halves follow the structure of values. Each is shown in the middle of a document, for any
bytes or any open frames around the value, so that the inductions go through.
-/

namespace ActionBundles.Json

/-! ### Values that documents stand for -/

mutual

/-- Whether a value is one that a document stands for: nothing in it is garbled, and what stands for
a number is one. -/
def isSound : Json → Bool
  | .null => true
  | .bool _ => true
  | .number literal => isNumber literal
  | .string _ => true
  | .garbled => false
  | .array items => itemsAreSound items
  | .object entries => entriesAreSound entries

/-- Whether all items of an array are sound. -/
def itemsAreSound : List Json → Bool
  | [] => true
  | item :: rest => isSound item && itemsAreSound rest

/-- Whether all values of an object are sound. -/
def entriesAreSound : List (Text × Json) → Bool
  | [] => true
  | (_, value) :: rest => isSound value && entriesAreSound rest

end

mutual

/-- The tokens of a value. -/
def tokensOf : Json → List Token
  | .null => [.null]
  | .bool value => [.bool value]
  | .number literal => [.number literal]
  | .string text => [.string (some text)]
  | .garbled => [.null]
  | .array [] => [.openArray, .closeArray]
  | .array (item :: rest) => .openArray :: (tokensOf item ++ tokensOfItems rest ++ [.closeArray])
  | .object [] => [.openObject, .closeObject]
  | .object (entry :: rest) =>
    .openObject :: (tokensOfEntry entry ++ tokensOfEntries rest ++ [.closeObject])

/-- The tokens of further items, each after a comma. -/
def tokensOfItems : List Json → List Token
  | [] => []
  | item :: rest => .comma :: (tokensOf item ++ tokensOfItems rest)

/-- The tokens of an entry. -/
def tokensOfEntry : Text × Json → List Token
  | (key, value) => .string (some key) :: .colon :: tokensOf value

/-- The tokens of further entries, each after a comma. -/
def tokensOfEntries : List (Text × Json) → List Token
  | [] => []
  | entry :: rest => .comma :: (tokensOfEntry entry ++ tokensOfEntries rest)

end

/-! ### Cutting strings -/

/-- The pieces that a character is read as after it was escaped. -/
def piecesOf (c : Char) : List Piece :=
  if c.toNat < 0x20 && c ∉ ['\x08', '\x0c', '\n', '\r', '\t'] then [.unit c.toNat]
  else (String.utf8EncodeChar c).map .byte

/-- Bytes that mean nothing special in a string are pieces of it. -/
theorem scan?_string_bytes {bytes : Bytes} (pieces : List Piece) (rest : Bytes)
    (h : ∀ b ∈ bytes, b ≠ 0x22 ∧ b ≠ 0x5C ∧ 0x20 ≤ b) :
    scan? (.string pieces) (bytes ++ rest) =
      scan? (.string ((bytes.map Piece.byte).reverse ++ pieces)) rest := by
  induction bytes generalizing pieces with
  | nil => rfl
  | cons b bytes ih =>
    obtain ⟨hquote, hslash, hcontrol⟩ := h b (by simp)
    have hlt : ¬ b < 0x20 := UInt8.not_lt.2 hcontrol
    rw [List.cons_append, scan?, if_neg hquote, if_neg hslash, if_neg hlt,
      ih _ fun b' hb' => h b' (by simp [hb'])]
    simp

theorem hexDigit?_digitChar : ∀ n, n < 16 →
    hexDigit? (asciiChar (UInt8.ofNat (Nat.digitChar n).toNat)) = some n := by decide

theorem digitChar_lt : ∀ n, n < 16 → (Nat.digitChar n).toNat < 0x80 := by decide

/-- The four digits of a control character are read as its number. -/
theorem scan?_digits (pieces : List Piece) (rest : Bytes) {n : Nat} (h : n < 0x20) :
    scan? (.digits pieces 4 0) (Text.utf8 ('0' :: '0' :: hexByte n) ++ rest) =
      scan? (.string (.unit n :: pieces)) rest := by
  have hzero : String.utf8EncodeChar '0' = [0x30] := by decide
  have hhigh : n / 16 % 16 < 16 := Nat.mod_lt _ (by decide)
  have hlow : n % 16 < 16 := Nat.mod_lt _ (by decide)
  have hz : hexDigit? (asciiChar 0x30) = some 0 := by decide
  have hcode : (0 * 16 + 0) * 16 + 0 = 0 := rfl
  simp only [hexByte, Text.utf8_cons, hzero, Text.utf8EncodeChar_of_lt (digitChar_lt _ hhigh),
    Text.utf8EncodeChar_of_lt (digitChar_lt _ hlow), List.cons_append, List.nil_append, scan?,
    hz, hexDigit?_digitChar _ hhigh, hexDigit?_digitChar _ hlow, Nat.zero_mul, Nat.zero_add,
    Nat.reduceLeDiff, Nat.reduceSub, ↓reduceIte, Nat.le_refl]
  have hn : n / 16 % 16 * 16 + n % 16 = n := by omega
  rw [hn]
  rfl

/-- A character that is not escaped has no byte that means something special. -/
theorem plain_of_mem_utf8EncodeChar {c : Char} (hquote : c ≠ '\"') (hslash : c ≠ '\\')
    (hcontrol : ¬ c.toNat < 0x20) :
    ∀ b ∈ String.utf8EncodeChar c, b ≠ 0x22 ∧ b ≠ 0x5C ∧ 0x20 ≤ b := by
  intro b hb
  by_cases hascii : c.toNat < 0x80
  · rw [Text.utf8EncodeChar_of_lt hascii, List.mem_singleton] at hb
    subst hb
    have hchar : ∀ d : Char, c ≠ d → c.toNat ≠ d.toNat := fun d hd he => hd (Char.toNat_inj.1 he)
    have hnat : (UInt8.ofNat c.toNat).toNat = c.toNat := 
      UInt8.toNat_ofNat_of_lt' (Nat.lt_trans hascii (by decide))
    have hq := hchar _ hquote
    have hs := hchar _ hslash
    refine ⟨fun he => hq ?_, fun he => hs ?_, ?_⟩
    · rw [← hnat, he]; rfl
    · rw [← hnat, he]; rfl
    · rw [UInt8.le_iff_toNat_le, hnat]
      exact Nat.not_lt.1 hcontrol
  · have hb := Text.le_of_mem_utf8EncodeChar (Nat.not_lt.1 hascii) hb
    rw [UInt8.le_iff_toNat_le] at hb
    have hb : 0x80 ≤ b.toNat := hb
    refine ⟨fun he => ?_, fun he => ?_, ?_⟩
    · rw [he] at hb; exact absurd hb (by decide)
    · rw [he] at hb; exact absurd hb (by decide)
    · rw [UInt8.le_iff_toNat_le]
      exact Nat.le_trans (by decide) hb

/-- What a character is escaped as is read as its pieces. -/
theorem scan?_escapeChar (c : Char) (pieces : List Piece) (rest : Bytes) :
    scan? (.string pieces) (Text.utf8 (escapeChar c) ++ rest) =
      scan? (.string ((piecesOf c).reverse ++ pieces)) rest := by
  by_cases hquote : c = '\"'
  · subst hquote
    rfl
  by_cases hslash : c = '\\'
  · subst hslash
    rfl
  by_cases hshort : c ∈ ['\x08', '\x0c', '\n', '\r', '\t']
  · simp only [List.mem_cons, List.not_mem_nil, or_false] at hshort
    rcases hshort with rfl | rfl | rfl | rfl | rfl <;> rfl
  have hne : c ≠ '\x08' ∧ c ≠ '\x0c' ∧ c ≠ '\n' ∧ c ≠ '\r' ∧ c ≠ '\t' := by
    simpa only [List.mem_cons, List.not_mem_nil, or_false, not_or] using hshort
  by_cases hcontrol : c.toNat < 0x20
  · have hescape : escapeChar c = '\\' :: 'u' :: '0' :: '0' :: hexByte c.toNat := by
      simp only [escapeChar, hquote, hslash, hne, hcontrol, ↓reduceIte]
    have hpieces : piecesOf c = [.unit c.toNat] := by
      simp only [piecesOf, hcontrol, hshort, not_false_eq_true, decide_true, Bool.and_self,
        ↓reduceIte]
    have hmark : ∀ more, scan? (.string pieces) (0x5C :: 0x75 :: more) =
        scan? (.digits pieces 4 0) more := fun more => rfl
    rw [hescape, hpieces]
    exact (hmark _).trans (scan?_digits pieces rest hcontrol)
  · have hescape : escapeChar c = [c] := by
      simp only [escapeChar, hquote, hslash, hne, hcontrol, ↓reduceIte]
    have hpieces : piecesOf c = (String.utf8EncodeChar c).map .byte := by
      simp only [piecesOf, hcontrol, decide_false, Bool.false_and, Bool.false_eq_true, ↓reduceIte]
    rw [hescape, hpieces, Text.utf8_cons, show Text.utf8 [] = [] from rfl, List.append_nil]
    exact scan?_string_bytes pieces rest (plain_of_mem_utf8EncodeChar hquote hslash hcontrol)

theorem scan?_quoted (text : Text) (pieces : List Piece) (rest : Bytes) :
    scan? (.string pieces) (Text.utf8 (text.flatMap escapeChar) ++ rest) =
      scan? (.string ((text.flatMap piecesOf).reverse ++ pieces)) rest := by
  induction text generalizing pieces with
  | nil => rfl
  | cons c text ih =>
    rw [List.flatMap_cons, Text.utf8_append, List.append_assoc, scan?_escapeChar, ih,
      List.flatMap_cons, List.reverse_append, List.append_assoc]

/-! ### The text of pieces -/

theorem bytesOfPieces?_bytes (bytes : Bytes) (pieces : List Piece) :
    bytesOfPieces? (bytes.map .byte ++ pieces) = (bytesOfPieces? pieces).map (bytes ++ ·) := by
  induction bytes with
  | nil => simp
  | cons b bytes ih =>
    rw [List.map_cons, List.cons_append, bytesOfPieces?, ih, Option.map_map]
    rfl

/-- The escape of a control character stands for it, whatever follows. -/
theorem bytesOfPieces?_unit {code : Nat} (pieces : List Piece) (h : code < 0x20) :
    bytesOfPieces? (.unit code :: pieces) =
      (bytesOfPieces? pieces).map (String.utf8EncodeChar (Char.ofNat code) ++ ·) := by
  have hhigh : ¬ (0xD800 ≤ code) := by omega
  have hlow : ¬ (0xDC00 ≤ code) := by omega
  match pieces with
  | [] => simp [bytesOfPieces?, hhigh]
  | .byte b :: rest => simp [bytesOfPieces?, hhigh]
  | .unit low :: rest => simp [bytesOfPieces?, hhigh, hlow]

theorem bytesOfPieces?_piecesOf (c : Char) (pieces : List Piece) :
    bytesOfPieces? (piecesOf c ++ pieces) =
      (bytesOfPieces? pieces).map (String.utf8EncodeChar c ++ ·) := by
  unfold piecesOf
  split
  · next h =>
    have hcontrol : c.toNat < 0x20 := by
      simp only [Bool.and_eq_true, decide_eq_true_eq] at h
      exact h.1
    rw [List.cons_append, List.nil_append, bytesOfPieces?_unit pieces hcontrol, Char.ofNat_toNat]
  · exact bytesOfPieces?_bytes _ pieces

/-- The pieces of a written text stand for it. -/
theorem textOfPieces?_flatMap_piecesOf (text : Text) :
    textOfPieces? (text.flatMap piecesOf) = some text := by
  have hbytes : bytesOfPieces? (text.flatMap piecesOf) = some text.utf8 := by
    induction text with
    | nil => rfl
    | cons c text ih =>
      rw [List.flatMap_cons, bytesOfPieces?_piecesOf, ih]
      rfl
  rw [textOfPieces?, hbytes]
  exact Text.ofUtf8?_utf8 text

/-! ### Cutting values -/

/-- What may follow a value in a document: nothing, a comma or a line end. -/
def EndsValue : Bytes → Prop
  | [] => True
  | b :: _ => b = 0x2C ∨ b = 0x0A

/-- A text is cut into tokens wherever it stands before the end of a value. -/
def CutsInto (s : Text) (tokens : List Token) : Prop :=
  ∀ rest, EndsValue rest →
    scan? .between (s.utf8 ++ rest) = (scan? .between rest).map (tokens ++ ·)

theorem scan?_between_cons {b : UInt8} {token : Option Token} {state : Scan} (rest : Bytes)
    (h : start? b = some (token, state)) :
    scan? .between (b :: rest) = (scan? state rest).map (token.toList ++ ·) := by
  rw [scan?, h]
  simp only [Option.bind_eq_bind, Option.bind_some, Option.pure_def]
  cases scan? state rest <;> rfl

/-- The line end and the blanks before a line are no token. -/
theorem scan?_newline (depth : Nat) (rest : Bytes) :
    scan? .between (Text.utf8 (newline depth) ++ rest) = scan? .between rest := by
  have hblank : ∀ b more, isSpace b = true →
      scan? .between (b :: more) = scan? .between more := fun b more h => by
    rw [scan?_between_cons more (show start? b = some (none, .between) by rw [start?, if_pos h])]
    exact Option.map_id'
  have hspaces : ∀ n, scan? .between (Text.utf8 (List.replicate n ' ') ++ rest) =
      scan? .between rest := fun n => by
    induction n with
    | zero => rfl
    | succ n ih => exact (hblank _ _ rfl).trans ih
  exact (hblank _ _ rfl).trans (hspaces _)

/-- A number or word that a comma or a line end follows ends there. -/
theorem scan?_run {state : Scan} {word : Token} {rest : Bytes} (h : EndsValue rest)
    (hnil : scan? state [] = some [word])
    (hcons : ∀ b more, b = 0x2C ∨ b = 0x0A → scan? state (b :: more) = (do
      let (token, state) ← start? b
      return word :: token.toList ++ (← scan? state more))) :
    scan? state rest = (scan? .between rest).map (word :: ·) := by
  match rest, h with
  | [], _ => exact hnil
  | b :: more, h =>
    have hstart : ∃ token, start? b = some (token, .between) := by
      rcases h with rfl | rfl
      · exact ⟨_, rfl⟩
      · exact ⟨_, rfl⟩
    obtain ⟨token, hstart⟩ := hstart
    rw [hcons b more h, scan?_between_cons more hstart, hstart]
    simp only [Option.bind_eq_bind, Option.bind_some, Option.pure_def]
    cases scan? .between more <;> rfl

theorem scan?_word_end {read : Text} {word : Token} {rest : Bytes} (h : EndsValue rest)
    (hw : wordToken? read.reverse = some word) :
    scan? (.word read) rest = (scan? .between rest).map (word :: ·) := by
  refine scan?_run h (by rw [scan?, hw]; rfl) fun b more hb => ?_
  have halnum : (asciiChar b).isAlphanum = false := by rcases hb with rfl | rfl <;> decide
  rw [scan?, halnum, if_neg Bool.false_ne_true, hw]
  rfl

theorem scan?_number_end {read : Text} {rest : Bytes} (h : EndsValue rest)
    (hn : isNumber read.reverse = true) :
    scan? (.number read) rest = (scan? .between rest).map (.number read.reverse :: ·) := by
  have htoken : numberToken? read = some (.number read.reverse) := by rw [numberToken?, if_pos hn]
  refine scan?_run h (by rw [scan?, htoken]; rfl) fun b more hb => ?_
  have hpart : isNumberPart (asciiChar b) = false := by rcases hb with rfl | rfl <;> decide
  rw [scan?, hpart, if_neg Bool.false_ne_true, htoken]
  rfl

/-- A character of ASCII is read as itself. -/
theorem asciiChar_ofNat {c : Char} (h : c.toNat < 0x80) : asciiChar (UInt8.ofNat c.toNat) = c := by
  rw [asciiChar, UInt8.toNat_ofNat_of_lt' (Nat.lt_trans h (by decide)), Char.ofNat_toNat]

theorem lt_of_isNumberPart {c : Char} (h : isNumberPart c = true) : c.toNat < 0x80 := by
  simp only [isNumberPart, Bool.or_eq_true, decide_eq_true_eq] at h
  rcases h with ((((h | rfl) | rfl) | rfl) | rfl) | rfl
  · exact Nat.lt_of_le_of_lt (Char.isDigit_iff_toNat.1 h).2 (by decide)
  all_goals decide

theorem scan?_number_parts {part : Text} (read : Text) (rest : Bytes)
    (h : ∀ c ∈ part, isNumberPart c = true) :
    scan? (.number read) (part.utf8 ++ rest) = scan? (.number (part.reverse ++ read)) rest := by
  induction part generalizing read with
  | nil => rfl
  | cons c part ih =>
    have hc := h c (by simp)
    have hascii := lt_of_isNumberPart hc
    rw [Text.utf8_cons, Text.utf8EncodeChar_of_lt hascii, List.append_assoc, List.singleton_append,
      scan?, asciiChar_ofNat hascii, if_pos hc, ih _ fun d hd => h d (by simp [hd])]
    simp

/-! ### The characters of numbers -/

theorem isNumberPart_of_isDigit {c : Char} (h : c.isDigit = true) : isNumberPart c = true := by
  simp [isNumberPart, h]

/-- Digits are parts of a number, and one stands first. -/
theorem parts_of_dropDigits? {t rest : Text} (h : dropDigits? t = some rest)
    (hrest : ∀ c ∈ rest, isNumberPart c = true) :
    (∃ c more, t = c :: more ∧ c.isDigit = true) ∧ ∀ c ∈ t, isNumberPart c = true := by
  match t with
  | [] => simp [dropDigits?] at h
  | d :: more =>
    rw [dropDigits?] at h
    split at h
    · next hd =>
      cases h
      refine ⟨⟨d, more, rfl, hd⟩, fun c hc => ?_⟩
      rcases List.mem_cons.1 hc with rfl | hc
      · exact isNumberPart_of_isDigit hd
      · rw [← List.takeWhile_append_dropWhile (p := Char.isDigit) (l := more)] at hc
        rcases List.mem_append.1 hc with hc | hc
        · exact isNumberPart_of_isDigit ((List.mem_takeWhile_imp hc))
        · exact hrest c hc
    · cases h

theorem parts_of_endsNumber {t : Text} (h : endsNumber t = true) :
    ∀ c ∈ t, isNumberPart c = true := by
  have hdigits : ∀ u : Text, dropDigits? u = some [] → ∀ c ∈ u, isNumberPart c = true :=
    fun u hu => (parts_of_dropDigits? hu (by simp)).2
  match t with
  | [] => simp
  | e :: rest =>
    simp only [endsNumber, Bool.and_eq_true, Bool.or_eq_true, decide_eq_true_eq] at h
    obtain ⟨he, h⟩ := h
    have hmark : isNumberPart e = true := by rcases he with rfl | rfl <;> decide
    refine List.forall_mem_cons.2 ⟨hmark, ?_⟩
    split at h
    · exact List.forall_mem_cons.2 ⟨by decide, hdigits _ (by simpa using h)⟩
    · exact List.forall_mem_cons.2 ⟨by decide, hdigits _ (by simpa using h)⟩
    · exact hdigits _ (by simpa using h)

theorem parts_of_endsWhole {t : Text} (h : endsWhole t = true) :
    ∀ c ∈ t, isNumberPart c = true := by
  unfold endsWhole at h
  split at h
  · next rest =>
    cases hd : dropDigits? rest with
    | none => simp [hd] at h
    | some more =>
      simp only [hd, Option.map_some, Option.getD_some] at h
      exact List.forall_mem_cons.2
        ⟨by decide, (parts_of_dropDigits? hd (parts_of_endsNumber h)).2⟩
  · exact parts_of_endsNumber h

theorem parts_of_isUnsignedNumber {t : Text} (h : isUnsignedNumber t = true) :
    (∃ c more, t = c :: more ∧ c.isDigit = true) ∧ ∀ c ∈ t, isNumberPart c = true := by
  unfold isUnsignedNumber at h
  split at h
  · next rest =>
    exact ⟨⟨'0', rest, rfl, by decide⟩,
      List.forall_mem_cons.2 ⟨by decide, parts_of_endsWhole h⟩⟩
  · cases hd : dropDigits? t with
    | none => simp [hd] at h
    | some more =>
      simp only [hd, Option.map_some, Option.getD_some] at h
      exact parts_of_dropDigits? hd (parts_of_endsWhole h)

/-- A number starts with a digit or a sign and is made of parts of numbers. -/
theorem parts_of_isNumber {t : Text} (h : isNumber t = true) :
    (∃ c more, t = c :: more ∧ (c = '-' ∨ c.isDigit = true)) ∧
      ∀ c ∈ t, isNumberPart c = true := by
  unfold isNumber at h
  split at h
  · next rest =>
    exact ⟨⟨'-', rest, rfl, .inl rfl⟩,
      List.forall_mem_cons.2 ⟨by decide, (parts_of_isUnsignedNumber h).2⟩⟩
  · obtain ⟨⟨c, more, ht, hc⟩, hparts⟩ := parts_of_isUnsignedNumber h
    exact ⟨⟨c, more, ht, .inr hc⟩, hparts⟩

/-! ### Single values -/

theorem start?_number {c : Char} (h : c = '-' ∨ c.isDigit = true) :
    start? (UInt8.ofNat c.toNat) = some (none, .number [c]) := by
  rcases h with rfl | h
  · rfl
  · have hc := Char.isDigit_iff_toNat.1 h
    have hlow : 48 ≤ c.toNat := hc.1
    have hhigh : c.toNat ≤ 57 := hc.2
    have hread := asciiChar_ofNat (c := c) (by omega)
    obtain ⟨n, hn⟩ : ∃ n, c.toNat = n := ⟨_, rfl⟩
    rw [hn] at hlow hhigh hread ⊢
    have hc : c = Char.ofNat n := by rw [← hn, Char.ofNat_toNat]
    subst hc
    interval_cases n <;> rfl

theorem CutsInto.number {literal : Text} (h : isNumber literal = true) :
    CutsInto literal [.number literal] := by
  intro rest hrest
  obtain ⟨⟨c, more, rfl, hc⟩, hparts⟩ := parts_of_isNumber h
  have hascii := lt_of_isNumberPart (hparts c (by simp))
  rw [Text.utf8_cons, Text.utf8EncodeChar_of_lt hascii, List.append_assoc, List.singleton_append,
    scan?_between_cons _ (start?_number hc),
    scan?_number_parts _ _ fun d hd => hparts d (by simp [hd])]
  have hread : (more.reverse ++ [c]).reverse = c :: more := by simp
  rw [scan?_number_end hrest (by rw [hread]; exact h), hread]
  exact Option.map_id'

/-- A word is read letter by letter. -/
theorem scan?_word {c : Char} {letters : Text} {word : Token} {rest : Bytes}
    (hstart : start? (UInt8.ofNat c.toNat) = some (none, .word [c]))
    (hletters : ∀ d ∈ c :: letters, d.isAlphanum = true ∧ d.toNat < 0x80)
    (hword : wordToken? (c :: letters) = some word) (hrest : EndsValue rest) :
    scan? .between (Text.utf8 (c :: letters) ++ rest) =
      (scan? .between rest).map (word :: ·) := by
  have hrun : ∀ (letters read : Text), (∀ d ∈ letters, d.isAlphanum = true ∧ d.toNat < 0x80) →
      scan? (.word read) (letters.utf8 ++ rest) = scan? (.word (letters.reverse ++ read)) rest := by
    intro letters
    induction letters with
    | nil => exact fun _ _ => rfl
    | cons d letters ih =>
      intro read h
      obtain ⟨hd, hascii⟩ := h d (by simp)
      rw [Text.utf8_cons, Text.utf8EncodeChar_of_lt hascii, List.append_assoc,
        List.singleton_append, scan?, asciiChar_ofNat hascii, if_pos hd,
        ih _ fun e he => h e (by simp [he])]
      simp
  have hread : (letters.reverse ++ [c]).reverse = c :: letters := by simp
  rw [Text.utf8_cons, Text.utf8EncodeChar_of_lt (hletters c (by simp)).2, List.append_assoc,
    List.singleton_append, scan?_between_cons _ hstart,
    hrun _ _ fun d hd => hletters d (by simp [hd]),
    scan?_word_end hrest (by rw [hread]; exact hword)]
  exact Option.map_id'

theorem CutsInto.null : CutsInto ['n', 'u', 'l', 'l'] [.null] := fun _ h =>
  scan?_word rfl (by simp) rfl h

theorem CutsInto.bool (value : Bool) :
    CutsInto (if value then ['t', 'r', 'u', 'e'] else ['f', 'a', 'l', 's', 'e']) [.bool value] :=
  fun _ h => match value with
  | true => scan?_word rfl (by simp) rfl h
  | false => scan?_word rfl (by simp) rfl h

/-- A quoted text is cut into its string, whatever follows. -/
theorem scan?_quote (text : Text) (rest : Bytes) :
    scan? .between ((quote text).utf8 ++ rest) =
      (scan? .between rest).map (.string (some text) :: ·) := by
  have hopen : ∀ more, scan? .between (0x22 :: more) = scan? (.string []) more := fun more =>
    (scan?_between_cons more rfl).trans Option.map_id'
  have hclose : Text.utf8 ['\"'] ++ rest = 0x22 :: rest := rfl
  rw [quote, show Text.utf8 ('\"' :: (text.flatMap escapeChar ++ ['\"'])) ++ rest =
      0x22 :: (Text.utf8 (text.flatMap escapeChar ++ ['\"']) ++ rest) from rfl, hopen,
    Text.utf8_append, List.append_assoc, scan?_quoted, hclose, List.append_nil, scan?, if_pos rfl,
    List.reverse_reverse, textOfPieces?_flatMap_piecesOf]

/-! ### Whole values -/

/-- A text that ends the value before it. -/
def EndsBefore (s : Text) : Prop := ∀ rest, EndsValue rest → EndsValue (s.utf8 ++ rest)

theorem CutsInto.append {a b : Text} {tokens more : List Token} (ha : CutsInto a tokens)
    (hb : CutsInto b more) (hend : EndsBefore b) : CutsInto (a ++ b) (tokens ++ more) := by
  intro rest h
  rw [Text.utf8_append, List.append_assoc, ha _ (hend rest h), hb rest h, Option.map_map]
  congr 1
  funext ts
  exact (List.append_assoc tokens more ts).symm

theorem CutsInto.newline_append {b : Text} {tokens : List Token} (depth : Nat)
    (hb : CutsInto b tokens) : CutsInto (newline depth ++ b) tokens := by
  intro rest h
  rw [Text.utf8_append, List.append_assoc, scan?_newline, hb rest h]

/-- A character that is a token of its own. -/
theorem CutsInto.cons {c : Char} {b : Text} {token : Token} {tokens : List Token}
    (hascii : c.toNat < 0x80) (hstart : start? (UInt8.ofNat c.toNat) = some (some token, .between))
    (hb : CutsInto b tokens) : CutsInto (c :: b) (token :: tokens) := by
  intro rest h
  rw [Text.utf8_cons, Text.utf8EncodeChar_of_lt hascii, List.append_assoc, List.singleton_append,
    scan?_between_cons _ hstart, hb rest h, Option.map_map]
  rfl

theorem CutsInto.nil : CutsInto [] [] := fun _ _ => Option.map_id'.symm

theorem CutsInto.quote_append {b : Text} {tokens : List Token} (text : Text)
    (hb : CutsInto b tokens) : CutsInto (quote text ++ b) (.string (some text) :: tokens) := by
  intro rest h
  rw [Text.utf8_append, List.append_assoc, scan?_quote, hb rest h, Option.map_map]
  rfl

theorem endsBefore_nil : EndsBefore [] := fun _ h => h

theorem endsBefore_newline (depth : Nat) (b : Text) : EndsBefore (newline depth ++ b) :=
  fun _ _ => .inr rfl

theorem endsBefore_prettyItems (depth : Nat) (items : List Json) {b : Text} (hb : EndsBefore b) :
    EndsBefore (prettyItems depth items ++ b) := by
  cases items with
  | nil => exact hb
  | cons item rest => exact fun _ _ => .inl rfl

theorem endsBefore_prettyEntries (depth : Nat) (entries : List (Text × Json)) {b : Text}
    (hb : EndsBefore b) : EndsBefore (prettyEntries depth entries ++ b) := by
  cases entries with
  | nil => exact hb
  | cons entry rest => exact fun _ _ => .inl rfl

mutual

/-- A sound value as it is written is cut into its tokens. -/
theorem cutsInto_prettyAt (depth : Nat) :
    ∀ j : Json, isSound j = true → CutsInto (prettyAt depth j) (tokensOf j)
  | .null, _ => CutsInto.null
  | .bool value, _ => CutsInto.bool value
  | .number _, h => CutsInto.number h
  | .string text, _ => by
    have := CutsInto.nil.quote_append text
    rwa [List.append_nil] at this
  | .array [], _ => .cons (by decide) rfl (.cons (by decide) rfl .nil)
  | .array (item :: rest), h => by
    simp only [isSound, itemsAreSound, Bool.and_eq_true] at h
    have hclose : CutsInto (newline depth ++ [']']) [.closeArray] :=
      .newline_append depth (.cons (by decide) rfl .nil)
    have hrest := (cutsInto_prettyItems (depth + 1) rest h.2).append hclose
      (endsBefore_newline depth _)
    have hitem := (cutsInto_prettyAt (depth + 1) item h.1).append hrest
      (endsBefore_prettyItems _ rest (endsBefore_newline depth _))
    rw [prettyAt, tokensOf]
    simp only [List.append_assoc]
    exact .cons (by decide) rfl (.newline_append _ hitem)
  | .object [], _ => .cons (by decide) rfl (.cons (by decide) rfl .nil)
  | .object (entry :: rest), h => by
    simp only [isSound, entriesAreSound, Bool.and_eq_true] at h
    have hclose : CutsInto (newline depth ++ ['\x7d']) [.closeObject] :=
      .newline_append depth (.cons (by decide) rfl .nil)
    have hrest := (cutsInto_prettyEntries (depth + 1) rest h.2).append hclose
      (endsBefore_newline depth _)
    have hentry := (cutsInto_prettyEntry (depth + 1) entry h.1).append hrest
      (endsBefore_prettyEntries _ rest (endsBefore_newline depth _))
    rw [prettyAt, tokensOf]
    simp only [List.append_assoc]
    exact .cons (by decide) rfl (.newline_append _ hentry)

theorem cutsInto_prettyItems (depth : Nat) :
    ∀ items : List Json, itemsAreSound items = true →
      CutsInto (prettyItems depth items) (tokensOfItems items)
  | [], _ => .nil
  | item :: rest, h => by
    simp only [itemsAreSound, Bool.and_eq_true] at h
    have hitem := (cutsInto_prettyAt depth item h.1).append (cutsInto_prettyItems depth rest h.2)
      (by simpa using endsBefore_prettyItems depth rest endsBefore_nil)
    rw [prettyItems, tokensOfItems, List.append_assoc]
    exact .cons (by decide) rfl (.newline_append _ hitem)

theorem cutsInto_prettyEntry (depth : Nat) :
    ∀ entry : Text × Json, isSound entry.2 = true →
      CutsInto (prettyEntry depth entry) (tokensOfEntry entry)
  | (key, value), h => by
    have hvalue := cutsInto_prettyAt depth value h
    have hblank : CutsInto (' ' :: prettyAt depth value) (tokensOf value) := fun rest hrest =>
      (scan?_between_cons _ (show start? 0x20 = some (none, .between) from rfl)).trans
        (Option.map_id'.trans (hvalue rest hrest))
    exact .quote_append key (.cons (by decide) rfl hblank)

theorem cutsInto_prettyEntries (depth : Nat) :
    ∀ entries : List (Text × Json), entriesAreSound entries = true →
      CutsInto (prettyEntries depth entries) (tokensOfEntries entries)
  | [], _ => .nil
  | entry :: rest, h => by
    simp only [entriesAreSound, Bool.and_eq_true] at h
    have hentry := (cutsInto_prettyEntry depth entry h.1).append
      (cutsInto_prettyEntries depth rest h.2)
      (by simpa using endsBefore_prettyEntries depth rest endsBefore_nil)
    rw [prettyEntries, tokensOfEntries, List.append_assoc]
    exact .cons (by decide) rfl (.newline_append _ hentry)

end

/-! ### Reading tokens -/

/-- The tokens of a value start as a value does and not with the end of an array. -/
theorem tokensOf_eq_cons (j : Json) :
    ∃ token rest, tokensOf j = token :: rest ∧ token ≠ .closeArray := by
  match j with
  | .null | .bool _ | .number _ | .string _ | .garbled => exact ⟨_, _, rfl, by simp⟩
  | .array [] | .array (_ :: _) => exact ⟨_, _, by rw [tokensOf], by simp⟩
  | .object [] | .object (_ :: _) => exact ⟨_, _, by rw [tokensOf], by simp⟩

/-- The first item of an array is read as any value is. -/
theorem foldlM_firstItem (j : Json) (open_ : List Frame) :
    (tokensOf j).foldlM Reading.step? (.busy open_ .firstItem) =
      (tokensOf j).foldlM Reading.step? (.busy open_ .value) := by
  obtain ⟨token, rest, htokens, hne⟩ := tokensOf_eq_cons j
  have hstep : Reading.step? (.busy open_ .firstItem) token =
      Reading.step? (.busy open_ .value) token := by
    match open_ with
    | [] => cases token <;> rfl
    | .array _ :: _ => cases token <;> first | rfl | exact absurd rfl hne
    | .object _ _ :: _ => cases token <;> rfl
  rw [htokens, List.foldlM_cons, List.foldlM_cons, hstep]

/-- The keys of an object are read as texts. -/
def keyed (entry : Text × Json) : Option Text × Json := (some entry.1, entry.2)

theorem ofEntries_keyed (entries : List (Text × Json)) :
    ofEntries (entries.map keyed) = .object entries := by
  have : (entries.map keyed).mapM (fun e => e.1.map (·, e.2)) = some entries := by
    induction entries with
    | nil => rfl
    | cons entry rest ih =>
      rw [List.map_cons, List.mapM_cons, ih]
      rfl
  rw [ofEntries, this]

mutual

/-- The tokens of a sound value are read as the value, which goes where it belongs. -/
theorem foldlM_tokensOf : ∀ (j : Json) (open_ : List Frame), isSound j = true →
    (tokensOf j).foldlM Reading.step? (.busy open_ .value) = some (Reading.put j open_)
  | .null, _, _ => rfl
  | .bool _, _, _ => rfl
  | .number _, _, _ => rfl
  | .string _, _, _ => rfl
  | .array [], _, _ => rfl
  | .array (item :: rest), open_, h => by
    simp only [isSound, itemsAreSound, Bool.and_eq_true] at h
    have hitem := foldlM_tokensOf item (.array [] :: open_) h.1
    have hrest := foldlM_tokensOfItems rest [item] open_ h.2
    rw [tokensOf, List.foldlM_cons]
    show (tokensOf item ++ tokensOfItems rest ++ [Token.closeArray]).foldlM Reading.step?
      (.busy (.array [] :: open_) .firstItem) = _
    rw [List.foldlM_append, List.foldlM_append, foldlM_firstItem, hitem]
    show ((tokensOfItems rest).foldlM Reading.step? (.busy (.array [item] :: open_) .more) >>= _) = _
    rw [hrest]
    show some (Reading.put (.array (rest.reverse ++ [item]).reverse) open_) = _
    rw [List.reverse_append, List.reverse_reverse]
    rfl
  | .object [], _, _ => rfl
  | .object (entry :: rest), open_, h => by
    simp only [isSound, entriesAreSound, Bool.and_eq_true] at h
    have hentry := foldlM_tokensOfEntry entry [] .firstKey open_ (.inl rfl) h.1
    obtain ⟨key, hrest⟩ := foldlM_tokensOfEntries rest [keyed entry] entry.1 open_ h.2
    rw [tokensOf, List.foldlM_cons]
    show (tokensOfEntry entry ++ tokensOfEntries rest ++ [Token.closeObject]).foldlM Reading.step?
      (.busy (.object [] none :: open_) .firstKey) = _
    rw [List.foldlM_append, List.foldlM_append, hentry]
    show ((tokensOfEntries rest).foldlM Reading.step?
      (.busy (.object [keyed entry] entry.1 :: open_) .more) >>= _) = _
    rw [hrest]
    show some (Reading.put (ofEntries ((rest.map keyed).reverse ++ [keyed entry]).reverse) open_) = _
    rw [List.reverse_append, List.reverse_reverse]
    exact congrArg (fun j => some (Reading.put j open_)) (ofEntries_keyed (entry :: rest))

theorem foldlM_tokensOfItems : ∀ (items read : List Json) (open_ : List Frame),
    itemsAreSound items = true →
    (tokensOfItems items).foldlM Reading.step? (.busy (.array read :: open_) .more) =
      some (.busy (.array (items.reverse ++ read) :: open_) .more)
  | [], _, _, _ => rfl
  | item :: rest, read, open_, h => by
    simp only [itemsAreSound, Bool.and_eq_true] at h
    have hitem := foldlM_tokensOf item (.array read :: open_) h.1
    have hrest := foldlM_tokensOfItems rest (item :: read) open_ h.2
    rw [tokensOfItems, List.foldlM_cons]
    show (tokensOf item ++ tokensOfItems rest).foldlM Reading.step?
      (.busy (.array read :: open_) .value) = _
    rw [List.foldlM_append, hitem]
    show (tokensOfItems rest).foldlM Reading.step? (.busy (.array (item :: read) :: open_) .more) = _
    rw [hrest, List.reverse_cons, List.append_assoc]
    rfl

theorem foldlM_tokensOfEntry : ∀ (entry : Text × Json) (read : List (Option Text × Json))
    (want : Want) (open_ : List Frame), want = .firstKey ∨ want = .key → isSound entry.2 = true →
    ∀ key, (tokensOfEntry entry).foldlM Reading.step? (.busy (.object read key :: open_) want) =
      some (.busy (.object (keyed entry :: read) entry.1 :: open_) .more)
  | (key, value), read, want, open_, hwant, h, old => by
    have hvalue := foldlM_tokensOf value (.object read (some key) :: open_) h
    have hkey : Reading.step? (.busy (.object read old :: open_) want) (.string (some key)) =
        some (.busy (.object read (some key) :: open_) .colon) := by
      rcases hwant with rfl | rfl <;> rfl
    rw [tokensOfEntry, List.foldlM_cons, hkey]
    show (tokensOf value).foldlM Reading.step? (.busy (.object read (some key) :: open_) .value) = _
    rw [hvalue]
    rfl

theorem foldlM_tokensOfEntries : ∀ (entries : List (Text × Json))
    (read : List (Option Text × Json)) (key : Option Text) (open_ : List Frame),
    entriesAreSound entries = true →
    ∃ last, (tokensOfEntries entries).foldlM Reading.step?
        (.busy (.object read key :: open_) .more) =
      some (.busy (.object ((entries.map keyed).reverse ++ read) last :: open_) .more)
  | [], _, key, _, _ => ⟨key, rfl⟩
  | entry :: rest, read, key, open_, h => by
    simp only [entriesAreSound, Bool.and_eq_true] at h
    have hentry := foldlM_tokensOfEntry entry read .key open_ (.inr rfl) h.1 key
    obtain ⟨last, hrest⟩ :=
      foldlM_tokensOfEntries rest (keyed entry :: read) entry.1 open_ h.2
    refine ⟨last, ?_⟩
    rw [tokensOfEntries, List.foldlM_cons]
    show (tokensOfEntry entry ++ tokensOfEntries rest).foldlM Reading.step?
      (.busy (.object read key :: open_) .key) = _
    rw [List.foldlM_append, hentry]
    show (tokensOfEntries rest).foldlM Reading.step?
      (.busy (.object (keyed entry :: read) entry.1 :: open_) .more) = _
    rw [hrest, List.map_cons, List.reverse_cons, List.append_assoc]
    rfl

end

/-- **What is written is read back**: the document of a sound value stands for it, with or without
a line end after it. -/
theorem read?_pretty {j : Json} {after : Text} (h : isSound j = true) (ha : after = [] ∨ after = ['\n']) :
    read? (Text.utf8 (j.pretty ++ after)) = some j := by
  have htokens : tokens? (Text.utf8 (j.pretty ++ after)) = some (tokensOf j) := by
    rw [tokens?, Text.utf8_append, pretty]
    rcases ha with rfl | rfl
    · rw [cutsInto_prettyAt 0 j h (Text.utf8 []) trivial]
      exact congrArg some (List.append_nil _)
    · rw [cutsInto_prettyAt 0 j h (Text.utf8 ['\n']) (Or.inr rfl)]
      exact congrArg some (List.append_nil _)
  rw [read?, htokens, Option.bind_some, ofTokens?, foldlM_tokensOf j [] h]
  rfl

end ActionBundles.Json
