import StarkVerifier.Fibonacci
import StarkVerifier.Proofs.Field.Encoding
import StarkVerifier.Proofs.TwoPower

/-!
# Claims and their spelling

A claim is read back from its public inputs, and its trace is the shortest that reaches its index.
-/

namespace StarkVerifier.FibonacciClaim

theorem length_toPublicInputs (c : FibonacciClaim) : c.toPublicInputs.length = 64 := by
  simp [toPublicInputs, c.value.length_toBytes, Bytes.length_ofWord]

theorem ofPublicInputs_toPublicInputs (c : FibonacciClaim) :
    ofPublicInputs c.toPublicInputs = .ok c := by
  have hvalue : c.toPublicInputs.take 32 = c.value.toBytes := by
    rw [toPublicInputs, List.append_assoc]
    exact List.take_left' c.value.length_toBytes
  have hrest : c.toPublicInputs.drop 32 = List.replicate 24 0 ++ Bytes.ofWord c.index := by
    rw [toPublicInputs, List.append_assoc]
    exact List.drop_left' c.value.length_toBytes
  have hindex : c.toPublicInputs.drop 56 = Bytes.ofWord c.index := by
    rw [show 56 = 32 + 24 by rfl, ← List.drop_drop, hrest]
    exact List.drop_left' List.length_replicate
  have hlength := c.length_toPublicInputs
  have hempty : ¬c.toPublicInputs.isEmpty = true := by
    rw [List.isEmpty_iff]
    intro hnil
    rw [hnil] at hlength
    simp at hlength
  have hzeros : ((c.toPublicInputs.drop 32).take 24).all (· = 0) = true := by
    rw [hrest, List.take_left' List.length_replicate]
    decide
  rw [ofPublicInputs, if_neg hempty, if_neg (by rw [hlength]; decide), hvalue, Felt.ofBytes_toBytes]
  simp only [hzeros, if_true, hindex, Bytes.toWord_ofWord]

/-! ## Length of the trace -/

/-- Lengths of traces that reach an index. -/
def traceLengths (index : Nat) : Set Nat := {n | n.isPowerOfTwo ∧ 2 ≤ n ∧ index < n}

theorem isLeast_traceLengths (index : Nat) :
    IsLeast (traceLengths index) (max 2 (nextTwoPower (index + 1))) := by
  obtain ⟨k, hk⟩ := isPowerOfTwo_nextTwoPower (index + 1)
  have hindex : index < nextTwoPower (index + 1) := le_nextTwoPower (index + 1)
  refine ⟨⟨?_, Nat.le_max_left _ _, Nat.lt_of_lt_of_le hindex (Nat.le_max_right _ _)⟩, ?_⟩
  · rw [hk]
    rcases Nat.eq_zero_or_pos k with rfl | hpos
    · exact ⟨1, rfl⟩
    · exact ⟨k, Nat.max_eq_right (Nat.pow_le_pow_right Nat.two_pos hpos)⟩
  · rintro m ⟨⟨j, rfl⟩, htwo, hreach⟩
    exact Nat.max_le.mpr ⟨htwo, nextTwoPower_le_two_pow_iff.mpr hreach⟩

/-- A power of two above an index fits into a word if the index has 63 bits. -/
theorem max_nextTwoPower_lt_iff {index : Nat} :
    max 2 (nextTwoPower (index + 1)) < 2 ^ 64 ↔ index < 2 ^ 63 := by
  obtain ⟨k, hk⟩ := isPowerOfTwo_nextTwoPower (index + 1)
  have hfits : nextTwoPower (index + 1) < 2 ^ 64 ↔ nextTwoPower (index + 1) ≤ 2 ^ 63 := by
    rw [hk, Nat.pow_lt_pow_iff_right Nat.one_lt_two, Nat.pow_le_pow_iff_right Nat.one_lt_two]
    exact Nat.lt_succ_iff
  have hreach : nextTwoPower (index + 1) ≤ 2 ^ 63 ↔ index < 2 ^ 63 := nextTwoPower_le_two_pow_iff
  rw [Nat.max_lt, hfits, hreach]
  exact and_iff_right (by decide)

theorem traceLength_eq_ok_iff {c : FibonacciClaim} {n : Nat} :
    c.traceLength = .ok n ↔ c.index.toNat < 2 ^ 63 ∧ IsLeast (traceLengths c.index.toNat) n := by
  have hleast := isLeast_traceLengths c.index.toNat
  simp only [traceLength, max_nextTwoPower_lt_iff]
  by_cases h : c.index.toNat < 2 ^ 63
  · rw [if_pos h, Except.ok.injEq]
    constructor
    · rintro rfl
      exact ⟨h, hleast⟩
    · rintro ⟨-, hn⟩
      exact hleast.unique hn
  · rw [if_neg h]
    simp only [reduceCtorEq, false_iff, not_and]
    intro hlt
    exact absurd hlt h

theorem traceLength_eq_error {c : FibonacciClaim} (h : 2 ^ 63 ≤ c.index.toNat) :
    c.traceLength = .error (.publicInputs (.indexTooLarge c.index.toNat)) := by
  simp only [traceLength, max_nextTwoPower_lt_iff]
  exact if_neg (Nat.not_lt.mpr h)

theorem exists_traceLength_eq_two_pow {c : FibonacciClaim} {n : Nat} (h : c.traceLength = .ok n) :
    ∃ k, n = 2 ^ k ∧ 1 ≤ k ∧ k ≤ 63 := by
  obtain ⟨hindex, ⟨⟨k, rfl⟩, htwo, -⟩, hleast⟩ := traceLength_eq_ok_iff.mp h
  have hlargest : 2 ^ k ≤ 2 ^ 63 := hleast ⟨⟨63, rfl⟩, by decide, hindex⟩
  exact ⟨k, rfl, (Nat.pow_le_pow_iff_right Nat.one_lt_two (n := 1)).mp htwo,
    (Nat.pow_le_pow_iff_right Nat.one_lt_two).mp hlargest⟩

theorem index_lt_traceLength {c : FibonacciClaim} {n : Nat} (h : c.traceLength = .ok n) :
    c.index.toNat < n :=
  (traceLength_eq_ok_iff.mp h).2.1.2.2

end FibonacciClaim
end StarkVerifier
