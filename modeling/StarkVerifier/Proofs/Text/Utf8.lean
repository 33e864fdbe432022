import Mathlib.Data.List.Basic
import StarkVerifier.Text

/-!
# Text read back from its bytes

A character has one spelling of one to four bytes, and the reader takes it off the front of the bytes.
-/

namespace StarkVerifier.Utf8

theorem toNat_ofNat {n : Nat} (h : n < 256) : (UInt8.ofNat n).toNat = n := by
  rw [UInt8.toNat_ofNat', Nat.mod_eq_of_lt h]

theorem ofNat_lt_iff {n : Nat} (h : n < 256) (b : UInt8) : UInt8.ofNat n < b ↔ n < b.toNat := by
  rw [UInt8.lt_iff_toNat_lt, toNat_ofNat h]

theorem continuation?_ofNat {n : Nat} (h : n < 64) : continuation? (UInt8.ofNat (n + 128)) = some n := by
  have hbyte : n + 128 < 256 := by omega
  have hrange : 0x80 ≤ UInt8.ofNat (n + 128) ∧ UInt8.ofNat (n + 128) < 0xc0 := by
    rw [UInt8.le_iff_toNat_le, ofNat_lt_iff hbyte, toNat_ofNat hbyte]
    exact ⟨Nat.le_add_left 128 n, Nat.add_lt_add_right h 128⟩
  rw [continuation?, if_pos hrange, toNat_ofNat hbyte, Nat.add_sub_cancel]

theorem char?_toNat {c : Char} {least n : Nat} (h : n = c.toNat) (hleast : least ≤ n) :
    char? least n = some c := by
  subst h
  have hvalid : c.toNat.isValidChar := c.valid
  rw [char?, dif_pos hvalid, if_pos hleast]
  rfl

theorem toNat_lt (c : Char) : c.toNat < 1114112 := by
  rcases c.valid with h | h
  · exact Nat.lt_trans h (by decide)
  · exact h.2

/-! ## Characters of one to four bytes -/

theorem decode?_one {c : Char} (h : c.toNat ≤ 127) (rest : Bytes) :
    decode? (UInt8.ofNat c.toNat :: rest) = (decode? rest).map (c :: ·) := by
  have hbyte : c.toNat < 256 := by omega
  have hone : UInt8.ofNat c.toNat < 0x80 := (ofNat_lt_iff hbyte _).mpr (Nat.lt_succ_of_le h)
  rw [decode?.eq_def]
  dsimp only
  rw [if_pos hone, toNat_ofNat hbyte, Char.ofNat_toNat]

theorem decode?_two {c : Char} {a b : Nat} (ha : a < 32) (hb : b < 64) (h : 64 * a + b = c.toNat)
    (hleast : 0x80 ≤ c.toNat) (rest : Bytes) :
    decode? (UInt8.ofNat (a + 192) :: UInt8.ofNat (b + 128) :: rest) =
      (decode? rest).map (c :: ·) := by
  have hbyte : a + 192 < 256 := by omega
  have hone : ¬ UInt8.ofNat (a + 192) < 0x80 := by
    rw [ofNat_lt_iff hbyte]
    exact Nat.not_lt.mpr (Nat.le_add_left_of_le (by decide))
  have htwo : UInt8.ofNat (a + 192) < 0xe0 := (ofNat_lt_iff hbyte _).mpr (Nat.add_lt_add_right ha 192)
  have hchar : char? 0x80 (64 * a + b) = some c := char?_toNat h (h ▸ hleast)
  rw [decode?, if_neg hone, if_pos htwo]
  simp only [continuation?_ofNat hb, toNat_ofNat hbyte, Nat.add_sub_cancel, hchar, bind,
    Option.bind_some]
  exact Option.map_eq_bind.symm

theorem decode?_three {c : Char} {a b d : Nat} (ha : a < 16) (hb : b < 64) (hd : d < 64)
    (h : 4096 * a + 64 * b + d = c.toNat) (hleast : 0x800 ≤ c.toNat) (rest : Bytes) :
    decode? (UInt8.ofNat (a + 224) :: UInt8.ofNat (b + 128) :: UInt8.ofNat (d + 128) :: rest) =
      (decode? rest).map (c :: ·) := by
  have hbyte : a + 224 < 256 := by omega
  have hone : ¬ UInt8.ofNat (a + 224) < 0x80 := by
    rw [ofNat_lt_iff hbyte]
    exact Nat.not_lt.mpr (Nat.le_add_left_of_le (by decide))
  have htwo : ¬ UInt8.ofNat (a + 224) < 0xe0 := by
    rw [ofNat_lt_iff hbyte]
    exact Nat.not_lt.mpr (Nat.le_add_left 224 a)
  have hthree : UInt8.ofNat (a + 224) < 0xf0 := (ofNat_lt_iff hbyte _).mpr (Nat.add_lt_add_right ha 224)
  have hchar : char? 0x800 (4096 * a + 64 * b + d) = some c := char?_toNat h (h ▸ hleast)
  rw [decode?, if_neg hone, if_neg htwo, if_pos hthree]
  simp only [continuation?_ofNat hb, continuation?_ofNat hd, toNat_ofNat hbyte, Nat.add_sub_cancel,
    hchar, bind, Option.bind_some]
  exact Option.map_eq_bind.symm

theorem decode?_four {c : Char} {a b d e : Nat} (ha : a < 8) (hb : b < 64) (hd : d < 64)
    (he : e < 64) (h : 262144 * a + 4096 * b + 64 * d + e = c.toNat) (hleast : 0x10000 ≤ c.toNat)
    (rest : Bytes) :
    decode? (UInt8.ofNat (a + 240) :: UInt8.ofNat (b + 128) :: UInt8.ofNat (d + 128) ::
      UInt8.ofNat (e + 128) :: rest) = (decode? rest).map (c :: ·) := by
  have hbyte : a + 240 < 256 := by omega
  have hhigh {b : UInt8} (h : b.toNat ≤ 240) : ¬ UInt8.ofNat (a + 240) < b := by
    rw [ofNat_lt_iff hbyte]
    exact Nat.not_lt.mpr (Nat.le_add_left_of_le h)
  have hchar : char? 0x10000 (262144 * a + 4096 * b + 64 * d + e) = some c :=
    char?_toNat h (h ▸ hleast)
  rw [decode?, if_neg (hhigh (by decide)), if_neg (hhigh (by decide)), if_neg (hhigh (by decide))]
  simp only [continuation?_ofNat hb, continuation?_ofNat hd, continuation?_ofNat he,
    toNat_ofNat hbyte, Nat.add_sub_cancel, hchar, bind, Option.bind_some]
  exact Option.map_eq_bind.symm

/-- The four spellings by the code point. -/
theorem utf8EncodeChar_eq (c : Char) : String.utf8EncodeChar c =
    if c.toNat ≤ 127 then [UInt8.ofNat c.toNat]
    else if c.toNat ≤ 2047 then
      [UInt8.ofNat (c.toNat / 64 % 32 + 192), UInt8.ofNat (c.toNat % 64 + 128)]
    else if c.toNat ≤ 65535 then
      [UInt8.ofNat (c.toNat / 4096 % 16 + 224), UInt8.ofNat (c.toNat / 64 % 64 + 128),
        UInt8.ofNat (c.toNat % 64 + 128)]
    else
      [UInt8.ofNat (c.toNat / 262144 % 8 + 240), UInt8.ofNat (c.toNat / 4096 % 64 + 128),
        UInt8.ofNat (c.toNat / 64 % 64 + 128), UInt8.ofNat (c.toNat % 64 + 128)] :=
  rfl

theorem decode?_char (c : Char) (rest : Bytes) :
    decode? (String.utf8EncodeChar c ++ rest) = (decode? rest).map (c :: ·) := by
  have hlt := toNat_lt c
  rw [utf8EncodeChar_eq]
  split
  · next h => exact decode?_one h rest
  split
  · exact decode?_two (Nat.mod_lt _ (by decide)) (Nat.mod_lt _ (by decide)) (by omega) (by omega) rest
  split
  · exact decode?_three (Nat.mod_lt _ (by decide)) (Nat.mod_lt _ (by decide))
      (Nat.mod_lt _ (by decide)) (by omega) (by omega) rest
  · exact decode?_four (Nat.mod_lt _ (by decide)) (Nat.mod_lt _ (by decide))
      (Nat.mod_lt _ (by decide)) (Nat.mod_lt _ (by decide)) (by omega) (by omega) rest

/-! ## Texts -/

theorem encode_cons (c : Char) (text : List Char) :
    encode (c :: text) = String.utf8EncodeChar c ++ encode text :=
  List.flatMap_cons

theorem encode_append (text others : List Char) : encode (text ++ others) = encode text ++ encode others :=
  List.flatMap_append

theorem decode?_encode (text : List Char) : decode? (encode text) = some text := by
  induction text with
  | nil => rfl
  | cons c text ih => rw [encode_cons, decode?_char, ih, Option.map_some]

/-! ## Bytes of a character -/

theorem utf8EncodeChar_of_le {c : Char} (h : c.toNat ≤ 127) :
    String.utf8EncodeChar c = [UInt8.ofNat c.toNat] :=
  if_pos h

/-- The bytes of a longer spelling are no characters of their own. -/
theorem le_of_mem_utf8EncodeChar {c : Char} {b : UInt8} (h : 127 < c.toNat)
    (hb : b ∈ String.utf8EncodeChar c) : 128 ≤ b.toNat := by
  have hhigh {n : Nat} (hn : n < 256) (hleast : 128 ≤ n) : 128 ≤ (UInt8.ofNat n).toNat := by
    rwa [toNat_ofNat hn]
  rw [utf8EncodeChar_eq, if_neg (Nat.not_le.mpr h)] at hb
  split at hb
  · simp only [List.mem_cons, List.not_mem_nil, or_false] at hb
    rcases hb with rfl | rfl <;> exact hhigh (by omega) (by omega)
  split at hb
  · simp only [List.mem_cons, List.not_mem_nil, or_false] at hb
    rcases hb with rfl | rfl | rfl <;> exact hhigh (by omega) (by omega)
  · simp only [List.mem_cons, List.not_mem_nil, or_false] at hb
    rcases hb with rfl | rfl | rfl | rfl <;> exact hhigh (by omega) (by omega)

end StarkVerifier.Utf8
