import StarkVerifier.Proofs.Field.Algebra
import StarkVerifier.Proofs.UInt256

/-!
# Powers and inverses

The modulus is prime, so every element but zero has exactly one inverse, and the power by two less than
the modulus is it. Main statement: `inverse_exact`.
-/

namespace StarkVerifier.Felt

/-! ## Square and multiply -/

/-- The bits of the exponent from the highest down: a square for each, and a product where it is set. -/
def squareAndMultiply (a : Felt) (e : UInt256) : Felt :=
  (List.range e.bitLength).reverse.foldl
    (fun power i => if e.testBit i then power.square * a else power.square) 1

theorem pow_shiftRight (a : Felt) (n i : Nat) :
    a ^ (n >>> i) =
      if n.testBit i then (a ^ (n >>> (i + 1))).square * a else (a ^ (n >>> (i + 1))).square := by
  have hbit : n >>> i = 2 * (n >>> (i + 1)) + (n.testBit i).toNat := by
    rw [Nat.shiftRight_succ, Nat.toNat_testBit, ← Nat.shiftRight_eq_div_pow]
    omega
  rw [hbit, square, ← pow_two, ← pow_mul, Nat.mul_comm]
  cases n.testBit i with
  | false => rfl
  | true => exact pow_succ a _

/-- By induction on the bits to come: those gone by are the exponent of the power so far. -/
theorem foldl_squareAndMultiply (a : Felt) (n k : Nat) :
    (List.range k).reverse.foldl
        (fun power i => if n.testBit i then power.square * a else power.square) (a ^ (n >>> k)) =
      a ^ n := by
  induction k with
  | zero => rfl
  | succ k ih =>
      rw [List.range_succ, List.reverse_append, List.reverse_singleton, List.singleton_append,
        List.foldl_cons, ← pow_shiftRight, ih]

theorem squareAndMultiply_eq (a : Felt) (e : UInt256) : squareAndMultiply a e = a ^ e.toNat := by
  have hgone : e.toNat >>> e.bitLength = 0 := by
    rw [Nat.shiftRight_eq_div_pow, UInt256.bitLength_eq_size]
    exact Nat.div_eq_of_lt (Nat.lt_size_self _)
  have hfold := foldl_squareAndMultiply a e.toNat e.bitLength
  rw [hgone, pow_zero] at hfold
  simp only [squareAndMultiply, UInt256.testBit_eq, hfold]

/-- Two less than the modulus. -/
def inverseExponent : UInt256 :=
  ⟨0xffffffffffffffff, 0xffffffffffffffff, 0xffffffffffffffff, 0x0800000000000010⟩

theorem inverse_eq_squareAndMultiply {a : Felt} (h : a ≠ 0) :
    a.inverse = .ok (squareAndMultiply a inverseExponent) := by
  rw [inverse, if_neg h, squareAndMultiply_eq]
  rfl

/-! ## Inverses -/

theorem inverse_zero : Felt.inverse 0 = .error .divisionByZero := if_pos rfl

theorem inverse_eq_error_iff {a : Felt} : a.inverse = .error .divisionByZero ↔ a = 0 := by
  by_cases h : a = 0
  · rw [h, inverse_zero]
    exact iff_of_true rfl rfl
  · rw [inverse_eq_ok h]
    exact iff_of_false (by simp) h

theorem inverse_eq_ok_iff {a b : Felt} : a.inverse = .ok b ↔ a * b = 1 := by
  by_cases h : a = 0
  · rw [h, inverse_zero, zero_mul]
    exact iff_of_false (by simp) zero_ne_one
  · rw [inverse_eq_ok h, Except.ok.injEq]
    constructor
    · rintro rfl
      exact mul_inv_cancel₀ h
    · intro hmul
      exact mul_left_cancel₀ h ((mul_inv_cancel₀ h).trans hmul.symm)

theorem exists_inverse {a : Felt} (h : a ≠ 0) : ∃ b, a.inverse = .ok b :=
  ⟨a⁻¹, inverse_eq_ok h⟩

/-- Inverses are undone by inverses. -/
theorem inverse_comm {a b : Felt} : a.inverse = .ok b ↔ b.inverse = .ok a := by
  rw [inverse_eq_ok_iff, inverse_eq_ok_iff, mul_comm]

theorem inverse_mul {a b a' b' : Felt} (ha : a.inverse = .ok a') (hb : b.inverse = .ok b') :
    (a * b).inverse = .ok (a' * b') := by
  rw [inverse_eq_ok_iff] at ha hb ⊢
  rw [mul_mul_mul_comm, ha, hb, one_mul]

/-- The modulus is prime. Only zero has no inverse, and it is refused; every other element has one inverse,
on both sides. The inverse of the inverse is the element, and that of a product the product of the
inverses. -/
theorem inverse_exact :
    (modulus = 2 ^ 251 + 17 * 2 ^ 192 + 1 ∧ modulus.Prime) ∧
    (∀ a : Felt, a.inverse = .error .divisionByZero ↔ a = 0) ∧
    (∀ a : Felt, a ≠ 0 → ∃ b, a.inverse = .ok b ∧ (a * b = 1 ∧ b * a = 1) ∧
      ∀ c, a * c = 1 ∨ c * a = 1 → c = b) ∧
    (∀ a : Felt, a ≠ 0 → (a.inverse >>= Felt.inverse) = .ok a) ∧
    ∀ a b : Felt, a ≠ 0 → b ≠ 0 → ∃ a' b', a.inverse = .ok a' ∧ b.inverse = .ok b' ∧
      (a * b).inverse = .ok (a' * b') := by
  refine ⟨⟨by decide, prime_modulus⟩, fun a => inverse_eq_error_iff, fun a ha => ?_, fun a ha => ?_,
    fun a b ha hb => ?_⟩
  · obtain ⟨b, hb⟩ := exists_inverse ha
    have hmul : a * b = 1 := inverse_eq_ok_iff.mp hb
    refine ⟨b, hb, ⟨hmul, mul_comm a b ▸ hmul⟩, fun c hc => ?_⟩
    have hc' : a * c = 1 := hc.elim id fun h => mul_comm c a ▸ h
    exact Except.ok.inj ((inverse_eq_ok_iff.mpr hc').symm.trans hb)
  · obtain ⟨b, hb⟩ := exists_inverse ha
    rw [hb]
    exact inverse_comm.mp hb
  · obtain ⟨a', ha'⟩ := exists_inverse ha
    obtain ⟨b', hb'⟩ := exists_inverse hb
    exact ⟨a', b', ha', hb', inverse_mul ha' hb'⟩

end StarkVerifier.Felt
