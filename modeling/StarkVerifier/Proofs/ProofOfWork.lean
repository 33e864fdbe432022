import Mathlib.Order.Bounds.Basic
import StarkVerifier.Transcript
import StarkVerifier.Proofs.Bytes
import StarkVerifier.Proofs.TwoPower

/-!
# Zero bits as a bound

The zero bits at the head of a byte string and the significant bits of the number it spells make up all its
bits. A nonce is therefore accepted exactly when the number that its hash spells is below a power of two.

Main statement: `check_measures_number`.
-/

namespace StarkVerifier

theorem Bytes.ofWord_eq_ofNat (w : UInt64) : ofWord w = ofNat 8 w.toNat := by
  apply eq_of_toNat_eq
  · rw [length_ofWord, length_ofNat]
  · rw [toNat_ofWord, toNat_ofNat w.toNat_lt]

namespace ProofOfWork

/-! ## Zero bits -/

/-- A byte that is not zero ends the zero bits and begins the others. -/
theorem leadingZeroBits_add_size (bytes : Bytes) :
    leadingZeroBits bytes + (Bytes.toNat bytes).size = 8 * bytes.length := by
  induction bytes with
  | nil => rfl
  | cons b rest ih =>
      have hwidth : 256 ^ rest.length = 2 ^ (8 * rest.length) := (Nat.pow_mul 2 8 rest.length).symm
      rw [leadingZeroBits, Bytes.toNat_cons, List.length_cons]
      by_cases hb : b = 0
      · rw [if_pos hb, hb, UInt8.toNat_zero, Nat.mul_zero, Nat.zero_add]
        omega
      · have hne : b.toNat ≠ 0 := fun h0 => hb (UInt8.toNat_inj.mp h0)
        have hrest : Bytes.toNat rest < 2 ^ (8 * rest.length) := hwidth ▸ Bytes.toNat_lt rest
        have hlog : b.toNat.log2 < 8 := log2_lt_of_lt_two_pow (by decide) b.toNat_lt
        rw [if_neg hb, hwidth, size_two_pow_mul_add hne hrest, size_eq_log2_add_one hne]
        omega

example : leadingZeroBits (0 :: 0x10 :: List.replicate 30 0) = 11 := by decide

theorem le_leadingZeroBits_iff (d : Digest) {m : Nat} (hm : m ≤ 256) :
    m ≤ leadingZeroBits d.bytes ↔ Bytes.toNat d.bytes < 2 ^ (256 - m) := by
  have hbits := leadingZeroBits_add_size d.bytes
  rw [d.length_bytes] at hbits
  rw [← Nat.size_le]
  omega

theorem isGreatest_leadingZeroBits (d : Digest) :
    IsGreatest {m | m ≤ 256 ∧ Bytes.toNat d.bytes < 2 ^ (256 - m)} (leadingZeroBits d.bytes) := by
  have hbits := leadingZeroBits_add_size d.bytes
  rw [d.length_bytes] at hbits
  have hle : leadingZeroBits d.bytes ≤ 256 := by omega
  exact ⟨⟨hle, (le_leadingZeroBits_iff d hle).mp le_rfl⟩,
    fun m hm => (le_leadingZeroBits_iff d hm.1).mpr hm.2⟩

/-! ## The gate -/

variable {w : ProofOfWork} {nonce : UInt64}

/-- No zero bits at all are always there. -/
theorem check_iff_le :
    w.check nonce = true ↔ w.bits.toNat ≤ leadingZeroBits (w.candidate nonce).bytes := by
  rw [check, Bool.or_eq_true, decide_eq_true_eq, decide_eq_true_eq]
  refine or_iff_right_of_imp fun hzero => ?_
  rw [hzero]
  exact Nat.zero_le _

theorem check_iff_lt :
    w.check nonce = true ↔ Bytes.toNat (w.candidate nonce).bytes < 2 ^ (256 - w.bits.toNat) := by
  have hbits : w.bits.toNat ≤ 256 := w.bits.toNat_lt.le
  rw [check_iff_le, le_leadingZeroBits_iff _ hbits]

theorem check_ofDigest_zero (d : Digest) (nonce : UInt64) : (ofDigest d 0).check nonce = true :=
  check_iff_le.mpr (Nat.zero_le _)

theorem check_of_le {bits : UInt8} (hbits : bits ≤ w.bits) (h : w.check nonce = true) :
    { w with bits }.check nonce = true :=
  check_iff_le.mpr ((UInt8.le_iff_toNat_le.mp hbits).trans (check_iff_le.mp h))

theorem candidate_ofDigest (d : Digest) (bits : UInt8) (nonce : UInt64) :
    (ofDigest d bits).candidate nonce =
      keccak ((keccak (Bytes.ofNat 8 0x0123456789abcded ++ d.bytes ++ [bits])).bytes ++
        Bytes.ofNat 8 nonce.toNat) := by
  rw [← Bytes.ofWord_eq_ofNat]
  rfl

/-! ## The statement -/

/-- A nonce is accepted exactly when the hash of seed and nonce, read from its highest byte down, is below
`2 ^ (256 - bits)`, and with no bits to show always. The zero bits counted are the most that leave a digest
below that bound, and where the bytes that are hashed stay the same, fewer bits are easier to show. -/
theorem check_measures_number :
    (∀ (d : Digest) (bits : UInt8) (nonce : UInt64),
      let seed := keccak (Bytes.ofNat 8 0x0123456789abcded ++ d.bytes ++ [bits])
      let candidate := keccak (seed.bytes ++ Bytes.ofNat 8 nonce.toNat)
      (ofDigest d bits).check nonce = true ↔ Bytes.toNat candidate.bytes < 2 ^ (256 - bits.toNat)) ∧
    (∀ (d : Digest) (nonce : UInt64), (ofDigest d 0).check nonce = true) ∧
    (∀ d : Digest,
      IsGreatest {m | m ≤ 256 ∧ Bytes.toNat d.bytes < 2 ^ (256 - m)} (leadingZeroBits d.bytes)) ∧
    ∀ (w : ProofOfWork) (nonce : UInt64) (bits : UInt8), bits ≤ w.bits →
      { w with bits }.candidate nonce = w.candidate nonce ∧
        (w.check nonce = true → { w with bits }.check nonce = true) := by
  refine ⟨fun d bits nonce => ?_, check_ofDigest_zero, isGreatest_leadingZeroBits,
    fun w nonce bits hbits => ⟨rfl, check_of_le hbits⟩⟩
  intro seed candidate
  have hcandidate : (ofDigest d bits).candidate nonce = candidate := candidate_ofDigest d bits nonce
  rw [← hcandidate]
  exact check_iff_lt

/-- The first nonce that shows nine zero bits for the digest of zeros shows five. -/
theorem check_measures_number_nine_bits :
    let w := ofDigest .zero 9
    5 ≤ w.bits ∧ w.check 651 = true ∧ { w with bits := 5 }.check 651 = true := by
  intro w
  have hbits : 5 ≤ w.bits := by decide
  have hcheck : w.check 651 = true := by decide +kernel
  exact ⟨hbits, hcheck, (check_measures_number.2.2.2 w 651 5 hbits).2 hcheck⟩

end ProofOfWork
end StarkVerifier
