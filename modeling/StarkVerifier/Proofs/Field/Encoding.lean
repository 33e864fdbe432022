import StarkVerifier.Proofs.Bytes
import StarkVerifier.Proofs.Field.Algebra

/-!
# Elements read back from their bytes

Each element has one spelling of 32 bytes, that of the number below the modulus that it stands for, so
lists of elements are told apart by the bytes that a hash takes in.
-/

namespace StarkVerifier.Felt

/-! ## Canonical values -/

/-- An element stands for the one number below the modulus in its residue class. -/
theorem toNat_eq_emod {a : Felt} {n : ℤ} (h : residue a = n) : (a.toNat : ℤ) = n % modulus := by
  have hcast : ((a.toNat : ℤ) : ZMod modulus) = n := by rw [Int.cast_natCast, ← h, residue]
  rw [ZMod.intCast_eq_intCast_iff'] at hcast
  rw [← hcast]
  exact (Int.emod_eq_of_lt (Int.natCast_nonneg _) (by exact_mod_cast a.toNat_lt)).symm

theorem toNat_injective : Function.Injective toNat := fun _ _ h =>
  residue_injective (by rw [residue, residue, h])

theorem toUInt256_ofUInt256 {x : UInt256} (h : x.toNat < modulus) : (ofUInt256 x).toUInt256 = x := by
  have hvalue := toNat_eq_emod (a := ofUInt256 x) (n := x.toNat) (by
    rw [residue_ofUInt256, Int.cast_natCast])
  rw [Int.emod_eq_of_lt (Int.natCast_nonneg _) (by exact_mod_cast h)] at hvalue
  exact UInt256.toNat_inj.mp (by exact_mod_cast hvalue)

/-! ## Spellings -/

theorem ofUInt256_toUInt256 (a : Felt) : ofUInt256 a.toUInt256 = a :=
  residue_injective (residue_ofUInt256 a.toUInt256)

theorem toUInt256_lt (a : Felt) : a.toUInt256.lt Montgomery.modulusWords = true := by
  rw [UInt256.lt_iff, Montgomery.toNat_modulusWords]
  exact a.toNat_lt

theorem ofCanonical_toUInt256 (a : Felt) : ofCanonical a.toUInt256 = .ok a := by
  rw [ofCanonical, if_pos a.toUInt256_lt, ofUInt256_toUInt256]

theorem ofBytes_toBytes (a : Felt) : ofBytes a.toBytes = .ok a := by
  rw [ofBytes, if_pos a.length_toBytes, toBytes, UInt256.ofBytes_toBytes, ofCanonical_toUInt256]

theorem ofCanonical_eq_ok_iff {x : UInt256} {a : Felt} : ofCanonical x = .ok a ↔ x = a.toUInt256 := by
  constructor
  · intro h
    unfold ofCanonical at h
    split at h
    · next hlt =>
        rw [UInt256.lt_iff, Montgomery.toNat_modulusWords] at hlt
        rw [← Except.ok.inj h, toUInt256_ofUInt256 hlt]
    · simp at h
  · intro h
    rw [h, ofCanonical_toUInt256]

theorem ofBytes_eq_ok_iff {bytes : Bytes} {a : Felt} : ofBytes bytes = .ok a ↔ bytes = a.toBytes := by
  constructor
  · intro h
    unfold ofBytes at h
    split at h
    · next hlength => rw [toBytes, ← ofCanonical_eq_ok_iff.mp h, UInt256.toBytes_ofBytes hlength]
    · simp at h
  · intro h
    rw [h, ofBytes_toBytes]

theorem toNat_toBytes (a : Felt) : Bytes.toNat a.toBytes = a.toNat := a.toUInt256.toNat_toBytes

/-- The bytes of an element spell a number below the modulus, and there is an element for each. -/
theorem exists_ofBytes_iff {bytes : Bytes} (h : bytes.length = 32) :
    (∃ a, ofBytes bytes = .ok a) ↔ Bytes.toNat bytes < modulus := by
  constructor
  · rintro ⟨a, ha⟩
    rw [ofBytes_eq_ok_iff.mp ha, toNat_toBytes]
    exact a.toNat_lt
  · intro hlt
    rw [← UInt256.toNat_ofBytes h] at hlt
    refine ⟨ofUInt256 (.ofBytes bytes), ?_⟩
    rw [ofBytes_eq_ok_iff, toBytes, toUInt256_ofUInt256 hlt, UInt256.toBytes_ofBytes h]

theorem toBytes_injective : Function.Injective toBytes := by
  intro a b h
  have hok := ofBytes_toBytes a
  rw [h, ofBytes_toBytes b] at hok
  exact (Except.ok.inj hok).symm

theorem flatMap_toBytes_injective : Function.Injective (List.flatMap toBytes) :=
  Bytes.flatMap_injective (by decide) length_toBytes toBytes_injective

theorem length_flatMap_toBytes (as : List Felt) : (as.flatMap toBytes).length = 32 * as.length := by
  rw [List.length_flatMap, List.map_congr_left fun a _ => a.length_toBytes]
  simp [Nat.mul_comm]

end StarkVerifier.Felt
