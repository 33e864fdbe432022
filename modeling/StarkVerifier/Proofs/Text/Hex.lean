import StarkVerifier.Hash
import StarkVerifier.Proofs.Field.Encoding

/-!
# Hexadecimal text read back

Bytes, numbers, elements and digests are read back from the digits that are written for them.
-/

namespace StarkVerifier

namespace Hex

theorem value?_digit {n : Nat} (h : n < 16) : value? (digit n) = some n := by
  have hall : ∀ n < 16, value? (digit n) = some n := by decide
  exact hall n h

theorem value?_high (b : UInt8) : value? (digit (b.toNat / 16)) = some (b.toNat / 16) := by
  have hb : b.toNat < 2 ^ 8 := b.toNat_lt
  exact value?_digit (by omega)

theorem value?_low (b : UInt8) : value? (digit (b.toNat % 16)) = some (b.toNat % 16) :=
  value?_digit (Nat.mod_lt _ (by decide))

theorem decodeByte?_digits (b : UInt8) :
    decodeByte? (digit (b.toNat / 16)) (digit (b.toNat % 16)) = some b := by
  unfold decodeByte?
  rw [value?_high, value?_low]
  change some (UInt8.ofNat (16 * (b.toNat / 16) + b.toNat % 16)) = some b
  rw [Nat.div_add_mod, UInt8.ofNat_toNat]

theorem decode?_encode (bytes : Bytes) : decode? (encode bytes) = some bytes := by
  induction bytes with
  | nil => rfl
  | cons b bytes ih =>
      change (do return (← decodeByte? (digit (b.toNat / 16)) (digit (b.toNat % 16))) ::
        (← decode? (encode bytes))) = some (b :: bytes)
      rw [decodeByte?_digits, ih]
      rfl

theorem length_encode (bytes : Bytes) : (encode bytes).length = 2 * bytes.length := by
  induction bytes with
  | nil => rfl
  | cons b bytes ih =>
      rw [encode, List.flatMap_cons, List.length_append, ← encode, ih, List.length_cons]
      simp only [List.length_cons, List.length_nil]
      omega

/-- Two digits at a time, the number takes in the bytes. -/
theorem foldlM_encode (bytes : Bytes) (n : Nat) :
    (encode bytes).foldlM (fun n c => (value? c).map (16 * n + ·)) n =
      some (bytes.foldl (fun n b => 256 * n + b.toNat) n) := by
  induction bytes generalizing n with
  | nil => rfl
  | cons b bytes ih =>
      have hbyte : 16 * (16 * n + b.toNat / 16) + b.toNat % 16 = 256 * n + b.toNat := by omega
      rw [encode, List.flatMap_cons, ← encode]
      simp only [List.cons_append, List.nil_append, List.foldlM_cons, value?_high, value?_low,
        Option.map_some, bind, Option.bind_some]
      rw [hbyte, List.foldl_cons]
      exact ih _

theorem number?_encode {bytes : Bytes} (h : bytes ≠ []) :
    number? (encode bytes) = some (Bytes.toNat bytes) := by
  have hlength := length_encode bytes
  have hpos := List.length_pos_iff.mpr h
  have hne : encode bytes ≠ [] := by
    intro hnil
    rw [hnil, List.length_nil] at hlength
    omega
  rw [number?, if_neg (by rwa [List.isEmpty_iff])]
  exact foldlM_encode bytes 0

end Hex

namespace UInt256

theorem ofNat_toNat (a : UInt256) : ofNat a.toNat = a := by
  rw [← toNat_inj, toNat_ofNat, Nat.mod_eq_of_lt a.toNat_lt]

theorem ofHex?_toHex (a : UInt256) : ofHex? a.toHex = some a := by
  have hstrip : Hex.stripMark a.toHex.toList = Hex.encode a.toBytes := by
    rw [toHex, String.toList_ofList]
    rfl
  have hne : a.toBytes ≠ [] := List.ne_nil_of_length_eq_add_one a.length_toBytes
  unfold ofHex?
  rw [hstrip, if_pos (by rw [Hex.length_encode, length_toBytes]), Hex.number?_encode hne,
    toNat_toBytes, Option.map_some, ofNat_toNat]

end UInt256

theorem Felt.ofHex_toHex (a : Felt) : Felt.ofHex a.toHex = .ok a := by
  rw [ofHex, toHex, UInt256.ofHex?_toHex]
  exact a.ofCanonical_toUInt256

theorem Digest.ofHex?_toHex (d : Digest) : Digest.ofHex? d.toHex = some d := by
  rw [ofHex?, toHex, String.toList_ofList, Hex.decode?_encode]
  exact dif_pos d.length_bytes

end StarkVerifier
