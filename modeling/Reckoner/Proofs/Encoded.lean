/-
  Reckoner.Proofs.Encoded — text that was written as bytes is read as it was.

  - `decode_encodeChar`: the bytes of a character are decoded as it, whatever follows them.
  - `decode_toUTF8`: the bytes of a text are decoded as its characters.
  - `lexemes_ofString`: a scanner of a text has the lexemes of the text to read.
-/

import Reckoner.Proofs.LineByLine

namespace Reckoner

namespace Utf8

/-! ## Single bytes -/

theorem toNat_ofNat {n : Nat} (h : n < 256) : (UInt8.ofNat n).toNat = n := by
  rw [UInt8.toNat_ofNat', Nat.mod_eq_of_lt h]

theorem decode_single {n : Nat} (hn : n < 256) {c : Char} (h : first n = .single c) (bytes : List UInt8) :
    decode (UInt8.ofNat n :: bytes) = c :: decode bytes := by
  simp only [decode, decodeFrom, step, start, toNat_ofNat hn, h]
  rfl

theorem decode_opening {n : Nat} (hn : n < 256) {p : Partial} (h : first n = .opening p) (bytes : List UInt8) :
    decode (UInt8.ofNat n :: bytes) = decodeFrom (some p) bytes := by
  simp only [decode, decodeFrom, step, start, toNat_ofNat hn, h]
  rfl

/-- A byte that continues a sequence without ending it. -/
theorem decodeFrom_more {bits toCome low high n v : Nat} (hn : n < 256) (hl : low ≤ n) (hh : n ≤ high)
    (ht : 1 < toCome) (hv : bits * 0x40 + (n - 0x80) = v) (bytes : List UInt8) :
    decodeFrom (some ⟨bits, toCome, low, high⟩) (UInt8.ofNat n :: bytes) =
      decodeFrom (some ⟨v, toCome - 1, 0x80, 0xBF⟩) bytes := by
  have ht : ¬ toCome ≤ 1 := Nat.not_le.mpr ht
  simp only [decodeFrom, step, toNat_ofNat hn, hl, hh, ht, hv, and_self, if_true, if_false, List.nil_append]

/-- The last byte of a sequence. -/
theorem decodeFrom_last {bits toCome low high n v : Nat} (hn : n < 256) (hl : low ≤ n) (hh : n ≤ high)
    (ht : toCome ≤ 1) (hv : bits * 0x40 + (n - 0x80) = v) (bytes : List UInt8) :
    decodeFrom (some ⟨bits, toCome, low, high⟩) (UInt8.ofNat n :: bytes) = Char.ofNat v :: decode bytes := by
  simp only [decodeFrom, step, toNat_ofNat hn, hl, hh, ht, hv, and_self, if_true]
  rfl

/-! ## One character -/

section

variable {v : Nat} (bytes : List UInt8)

theorem decode_two (h : 0x80 ≤ v) (h' : v ≤ 0x7FF) :
    decode (UInt8.ofNat (v / 64 % 32 + 192) :: UInt8.ofNat (v % 64 + 128) :: bytes) = Char.ofNat v :: decode bytes := by
  have hf : first (v / 64 % 32 + 192) = .opening ⟨v / 64, 1, 0x80, 0xBF⟩ := by
    have hb : v / 64 % 32 + 192 - 0xC0 = v / 64 := by omega
    rw [first, if_neg (by omega), if_pos (by omega), hb]
  rw [decode_opening (by omega) hf]
  exact decodeFrom_last (by omega) (by omega) (by omega) (by omega) (by omega) bytes

/-- The first byte of three says which surrogates and short forms the second one excludes. -/
theorem first_three (h : 0x800 ≤ v) (h' : v ≤ 0xFFFF) (hs : v < 0xD800 ∨ 0xDFFF < v) :
    ∃ low high, first (v / 4096 % 16 + 224) = .opening ⟨v / 4096, 2, low, high⟩ ∧
      low ≤ v / 64 % 64 + 128 ∧ v / 64 % 64 + 128 ≤ high := by
  have hb : v / 4096 % 16 + 224 - 0xE0 = v / 4096 := by omega
  unfold first
  rw [if_neg (by omega), if_neg (by omega)]
  split
  · exact ⟨0xA0, 0xBF, by rw [show v / 4096 = 0 by omega], by omega, by omega⟩
  split
  · exact ⟨0x80, 0x9F, by rw [show v / 4096 = 0x0D by omega], by omega, by omega⟩
  rw [if_pos (by omega)]
  exact ⟨0x80, 0xBF, by rw [hb], by omega, by omega⟩

theorem decode_three (h : 0x800 ≤ v) (h' : v ≤ 0xFFFF) (hs : v < 0xD800 ∨ 0xDFFF < v) :
    decode (UInt8.ofNat (v / 4096 % 16 + 224) :: UInt8.ofNat (v / 64 % 64 + 128) ::
        UInt8.ofNat (v % 64 + 128) :: bytes) = Char.ofNat v :: decode bytes := by
  obtain ⟨low, high, hf, hl, hh⟩ := first_three h h' hs
  have hv : v / 4096 * 0x40 + (v / 64 % 64 + 128 - 0x80) = v / 64 := by omega
  rw [decode_opening (by omega) hf, decodeFrom_more (by omega) hl hh (by omega) hv]
  exact decodeFrom_last (by omega) (by omega) (by omega) (by omega) (by omega) bytes

theorem first_four (h : 0x10000 ≤ v) (h' : v < 0x110000) :
    ∃ low high, first (v / 262144 % 8 + 240) = .opening ⟨v / 262144, 3, low, high⟩ ∧
      low ≤ v / 4096 % 64 + 128 ∧ v / 4096 % 64 + 128 ≤ high := by
  have hb : v / 262144 % 8 + 240 - 0xF0 = v / 262144 := by omega
  unfold first
  rw [if_neg (by omega), if_neg (by omega), if_neg (by omega), if_neg (by omega), if_neg (by omega)]
  split
  · exact ⟨0x90, 0xBF, by rw [show v / 262144 = 0 by omega], by omega, by omega⟩
  split
  · exact ⟨0x80, 0xBF, by rw [hb], by omega, by omega⟩
  rw [if_pos (by omega)]
  exact ⟨0x80, 0x8F, by rw [show v / 262144 = 4 by omega], by omega, by omega⟩

theorem decode_four (h : 0x10000 ≤ v) (h' : v < 0x110000) :
    decode (UInt8.ofNat (v / 262144 % 8 + 240) :: UInt8.ofNat (v / 4096 % 64 + 128) ::
        UInt8.ofNat (v / 64 % 64 + 128) :: UInt8.ofNat (v % 64 + 128) :: bytes) = Char.ofNat v :: decode bytes := by
  obtain ⟨low, high, hf, hl, hh⟩ := first_four h h'
  have hv : v / 262144 * 0x40 + (v / 4096 % 64 + 128 - 0x80) = v / 4096 := by omega
  have hv' : v / 4096 * 0x40 + (v / 64 % 64 + 128 - 0x80) = v / 64 := by omega
  rw [decode_opening (by omega) hf, decodeFrom_more (by omega) hl hh (by omega) hv,
    decodeFrom_more (by omega) (by omega) (by omega) (by omega) hv']
  exact decodeFrom_last (by omega) (by omega) (by omega) (by omega) (by omega) bytes

/-- The bytes of a character are decoded as it. -/
theorem decode_encodeChar (c : Char) : decode (String.utf8EncodeChar c ++ bytes) = c :: decode bytes := by
  have hv : c.val.toNat < 0xD800 ∨ 0xDFFF < c.val.toNat ∧ c.val.toNat < 0x110000 := c.valid
  have hc : Char.ofNat c.val.toNat = c := Char.ofNat_toNat c
  unfold String.utf8EncodeChar
  generalize c.val.toNat = v at hv hc
  subst hc
  dsimp only
  split
  · have hf : first v = .single (Char.ofNat v) := by rw [first, if_pos (by omega)]
    exact decode_single (by omega) hf bytes
  split
  · exact decode_two bytes (by omega) (by omega)
  split
  · exact decode_three bytes (by omega) (by omega) (by omega)
  · exact decode_four bytes (by omega) (by omega)

end

/-! ## Whole texts -/

theorem decode_flatMap_encodeChar (cs : List Char) : decode (cs.flatMap String.utf8EncodeChar) = cs := by
  induction cs with
  | nil => rfl
  | cons c cs ih => rw [List.flatMap_cons, decode_encodeChar, ih]

theorem toList_loop (bytes : ByteArray) (i : Nat) (read : List UInt8) :
    ByteArray.toList.loop bytes i read = read.reverse ++ bytes.data.toList.drop i := by
  fun_induction ByteArray.toList.loop bytes i read with
  | case1 i read h ih =>
    have hi : i < bytes.data.toList.length := by simpa using h
    rw [ih, List.drop_eq_getElem_cons (l := bytes.data.toList) hi]
    simp [ByteArray.get!, h]
  | case2 i read h =>
    rw [List.drop_eq_nil_of_le (by simpa using Nat.le_of_not_lt h)]
    simp

theorem toUTF8_toList (text : String) : text.toUTF8.toList = text.toList.flatMap String.utf8EncodeChar := by
  rw [ByteArray.toList, toList_loop, String.toUTF8_eq_toByteArray, ← String.utf8Encode_toList, List.utf8Encode,
    List.data_toByteArray]
  rfl

/-- The bytes of a text are decoded as its characters. -/
theorem decode_toUTF8 (text : String) : decode text.toUTF8.toList = text.toList := by
  rw [toUTF8_toList, decode_flatMap_encodeChar]

end Utf8

namespace Scanner

theorem unbroken_ofString (text : String) : (ofPieces (Source.ofString text)).Unbroken :=
  unbroken_ofPieces [text.toUTF8.toList]

theorem lexemes_ofString (text : String) : (ofPieces (Source.ofString text)).lexemes = Lexeme.all text.toList := by
  have h := lexemes_ofPieces [text.toUTF8.toList]
  rwa [List.flatten_singleton, Utf8.decode_toUTF8] at h

end Scanner

end Reckoner
