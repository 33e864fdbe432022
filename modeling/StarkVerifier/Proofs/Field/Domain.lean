import Mathlib.RingTheory.RootsOfUnity.PrimitiveRoots
import StarkVerifier.Field.Basic
import StarkVerifier.Proofs.Field.Algebra
import StarkVerifier.Proofs.TwoPower

/-!
# Evaluation domains

The generator of a domain of size `2 ^ k` has that order, and in bit-reversed order neighbours are
negatives of each other with a common square in the domain of half the size.
-/

namespace StarkVerifier

theorem Felt.residue_generator : Felt.residue Felt.generator = 3 := by
  rw [Felt.generator, Felt.residue_ofWord]
  rfl

/-- Three is no square. -/
theorem Felt.generator_pow_half : Felt.generator ^ ((modulus - 1) / 2) = -1 := by
  apply Felt.residue_injective
  rw [Felt.residue_pow, Felt.residue_generator, three_pow_half, Felt.residue_neg, Felt.residue_one]

theorem Felt.neg_one_ne_one : (-1 : Felt) ≠ 1 := by decide

theorem Felt.generator_ne_zero : Felt.generator ≠ 0 := by
  intro hzero
  have hresidue := Felt.residue_generator
  rw [hzero, Felt.residue_zero] at hresidue
  exact absurd hresidue (by decide)

/-- The order of three is no power of two. -/
theorem Felt.generator_pow_two_pow_ne_one {k : Nat} (h : k ≤ 191) : Felt.generator ^ 2 ^ k ≠ 1 := by
  intro hone
  obtain ⟨m, hm⟩ : 2 ^ k ∣ (modulus - 1) / 2 := by
    have hhalf : (modulus - 1) / 2 = 2 ^ 191 * (5 * (7 * (98714381 * 166848103))) := by decide
    rw [hhalf]
    exact Dvd.dvd.mul_right (Nat.pow_dvd_pow 2 h) _
  have hpow := Felt.generator_pow_half
  rw [hm, pow_mul, hone, one_pow] at hpow
  exact Felt.neg_one_ne_one hpow.symm

/-- A number with many zero bits loses nothing when it is shifted. -/
theorem shiftRight_add_mul_two_pow {k j m : Nat} (h : k + j ≤ m) (odd : Nat) :
    (2 ^ m * odd) >>> (k + j) * 2 ^ j = (2 ^ m * odd) >>> k := by
  obtain ⟨i, rfl⟩ := Nat.exists_eq_add_of_le h
  have hsplit : 2 ^ (k + j + i) * odd = 2 ^ k * (2 ^ j * (2 ^ i * odd)) := by ring
  have hboth : 2 ^ (k + j) = 2 ^ k * 2 ^ j := Nat.pow_add 2 k j
  rw [hsplit, Nat.shiftRight_eq_div_pow, Nat.shiftRight_eq_div_pow,
    Nat.mul_div_cancel_left _ (Nat.two_pow_pos k), hboth, ← Nat.mul_assoc,
    Nat.mul_div_cancel_left _ (Nat.mul_pos (Nat.two_pow_pos k) (Nat.two_pow_pos j)), Nat.mul_comm]

/-- The order of the group is an odd number times a power of two above the size of any domain. -/
theorem modulus_sub_one_shiftRight {k j : Nat} (h : k + j ≤ 192) :
    (modulus - 1) >>> (k + j) * 2 ^ j = (modulus - 1) >>> k := by
  rw [modulus_sub_one]
  exact shiftRight_add_mul_two_pow h _

namespace EvalDomain

/-- The domains that there are. -/
structure Valid (d : EvalDomain) : Prop where
  logSize_pos : 0 < d.logSize
  logSize_le : d.logSize ≤ 63
  generator_eq : d.generator = Felt.generator ^ ((modulus - 1) >>> d.logSize)

theorem ofLogSize_eq_ok_iff {k : Nat} {d : EvalDomain} :
    ofLogSize k = .ok d ↔ d.logSize = k ∧ d.Valid := by
  unfold ofLogSize
  by_cases h : k = 0 ∨ 63 < k
  · rw [if_pos h]
    simp only [reduceCtorEq, false_iff, not_and]
    rintro rfl ⟨hpos, hle, -⟩
    omega
  · rw [if_neg h, Except.ok.injEq]
    constructor
    · rintro rfl
      exact ⟨rfl, by simp only; omega, by simp only; omega, rfl⟩
    · rintro ⟨rfl, hvalid⟩
      rw [← hvalid.generator_eq]

theorem exists_ofLogSize {k : Nat} (hpos : 1 ≤ k) (hle : k ≤ 63) : ∃ d, ofLogSize k = .ok d := by
  have hrange : ¬(k = 0 ∨ 63 < k) := by omega
  exact ⟨_, if_neg hrange⟩

theorem exists_ofSize {size : Nat} (htwo : isTwoPower size = true) (hlt : size < 2 ^ 64) (hne : size ≠ 1) :
    ∃ d, EvalDomain.ofSize size = .ok d ∧ d.Valid ∧ d.size = size := by
  have hlog := log2_lt_of_lt_two_pow (by decide) hlt
  have hpos : 1 ≤ size.log2 := by
    rw [Nat.one_le_iff_ne_zero]
    intro hzero
    rw [isTwoPower_iff, hzero] at htwo
    exact hne htwo
  obtain ⟨d, hd⟩ := EvalDomain.exists_ofLogSize hpos (show size.log2 ≤ 63 by omega)
  obtain ⟨hsize, hvalid⟩ := EvalDomain.ofLogSize_eq_ok_iff.mp hd
  refine ⟨d, ?_, hvalid, ?_⟩
  · rw [EvalDomain.ofSize, if_pos htwo, hd]
  · rw [EvalDomain.size, hsize, ← isTwoPower_iff.mp htwo]

namespace Valid

variable {d : EvalDomain}

theorem generator_pow_half (h : d.Valid) : d.generator ^ 2 ^ (d.logSize - 1) = -1 := by
  have hpos := h.logSize_pos
  have hle := h.logSize_le
  have hexponent : (modulus - 1) >>> d.logSize * 2 ^ (d.logSize - 1) = (modulus - 1) / 2 := by
    have hshift := modulus_sub_one_shiftRight (show 1 + (d.logSize - 1) ≤ 192 by omega)
    rwa [Nat.add_sub_cancel' hpos] at hshift
  rw [h.generator_eq, ← pow_mul, hexponent, Felt.generator_pow_half]

/-- The generator of a smaller domain is a power of that of a larger one. -/
theorem generator_pow_div {e : EvalDomain} (h : d.Valid) (he : e.Valid) (hle : e.logSize ≤ d.logSize) :
    d.generator ^ (d.size / e.size) = e.generator := by
  have hd := h.logSize_le
  have hexponent : (modulus - 1) >>> d.logSize * 2 ^ (d.logSize - e.logSize) =
      (modulus - 1) >>> e.logSize := by
    have hshift := modulus_sub_one_shiftRight
      (show e.logSize + (d.logSize - e.logSize) ≤ 192 by omega)
    rwa [Nat.add_sub_cancel' hle] at hshift
  rw [size, size, two_pow_div_two_pow hle, h.generator_eq, ← pow_mul, hexponent, ← he.generator_eq]

theorem isPrimitiveRoot (h : d.Valid) : IsPrimitiveRoot d.generator d.size := by
  have hhalf := h.generator_pow_half
  have hsucc : d.logSize = d.logSize - 1 + 1 := (Nat.sub_add_cancel h.logSize_pos).symm
  have hone : d.generator ^ 2 ^ d.logSize = 1 := by
    rw [hsucc, Nat.pow_succ, pow_mul, hhalf, neg_one_sq]
  have horder : orderOf d.generator = 2 ^ d.logSize := by
    rw [hsucc]
    refine orderOf_eq_prime_pow ?_ ?_
    · rw [hhalf]
      exact Felt.neg_one_ne_one
    · rwa [← hsucc]
  rw [size, ← horder]
  exact IsPrimitiveRoot.orderOf d.generator

theorem generator_ne_zero (h : d.Valid) : d.generator ≠ 0 :=
  h.isPrimitiveRoot.ne_zero (Nat.pos_iff_ne_zero.mp (Nat.two_pow_pos _))

theorem element_eq (h : d.Valid) (i : Nat) : d.element i = d.generator ^ i := by
  rw [element]
  exact (pow_eq_pow_mod i h.isPrimitiveRoot.pow_eq_one).symm

theorem element_eq_element_iff (h : d.Valid) {i j : Nat} :
    d.element i = d.element j ↔ i ≡ j [MOD d.size] := by
  have hlt (i : Nat) : i % d.size < d.size := Nat.mod_lt i (Nat.two_pow_pos _)
  constructor
  · exact h.isPrimitiveRoot.pow_inj (hlt i) (hlt j)
  · intro hmod
    rw [element, element, hmod]

theorem inverseElement_eq (h : d.Valid) (i : Nat) : d.inverseElement i = (d.generator ^ i)⁻¹ := by
  have hlt : i % d.size < d.size := Nat.mod_lt _ (Nat.two_pow_pos _)
  have hone := h.isPrimitiveRoot.pow_eq_one
  rw [inverseElement, h.element_eq]
  apply eq_inv_of_mul_eq_one_left
  rw [pow_eq_pow_mod i hone, ← pow_add, Nat.sub_add_cancel hlt.le, hone]

end Valid

/-! ## Bit-reversed order -/

/-- Point number `i` of the layer of length `2 ^ log`. -/
def point (d : EvalDomain) (log i : Nat) : Felt :=
  (d.generator ^ (d.size / 2 ^ log)) ^ bitReverse log i

namespace Valid

variable {d : EvalDomain} {log : Nat}

theorem isPrimitiveRoot_layer (h : d.Valid) (hlog : log ≤ d.logSize) :
    IsPrimitiveRoot (d.generator ^ (d.size / 2 ^ log)) (2 ^ log) := by
  have hdvd : d.size = d.size / 2 ^ log * 2 ^ log :=
    (Nat.div_mul_cancel (Nat.pow_dvd_pow 2 hlog)).symm
  exact h.isPrimitiveRoot.pow (Nat.two_pow_pos _) hdvd

theorem bitReversedElement_eq (h : d.Valid) (i : Nat) :
    d.bitReversedElement i = d.point d.logSize i := by
  rw [bitReversedElement, h.element_eq, point, size, Nat.div_self (Nat.two_pow_pos _), pow_one]

theorem point_pow (h : d.Valid) (hlog : log ≤ d.logSize) (i : Nat) :
    d.point log i ^ 2 ^ log = 1 := by
  rw [point, ← pow_mul, Nat.mul_comm, pow_mul, (h.isPrimitiveRoot_layer hlog).pow_eq_one, one_pow]

theorem point_ne_zero (h : d.Valid) (log i : Nat) : d.point log i ≠ 0 :=
  pow_ne_zero _ (pow_ne_zero _ h.generator_ne_zero)

/-- The points of a layer are distinct. -/
theorem point_inj (h : d.Valid) (hlog : log ≤ d.logSize) {i j : Nat} (hi : i < 2 ^ log)
    (hj : j < 2 ^ log) (heq : d.point log i = d.point log j) : i = j := by
  have hreverse := (h.isPrimitiveRoot_layer hlog).pow_inj (bitReverse_lt log i) (bitReverse_lt log j) heq
  rw [← bitReverse_bitReverse hi, hreverse, bitReverse_bitReverse hj]

/-- The square of a layer's root is the root of the next layer. -/
theorem root_sq (hlog : log + 1 ≤ d.logSize) :
    (d.generator ^ (d.size / 2 ^ (log + 1))) ^ 2 = d.generator ^ (d.size / 2 ^ log) := by
  rw [size, two_pow_div_two_pow hlog, two_pow_div_two_pow (by omega), ← pow_mul, ← Nat.pow_succ]
  congr 2
  omega

/-- Neighbours are negatives of each other. -/
theorem point_two_mul_add_one (h : d.Valid) (hlog : log + 1 ≤ d.logSize) (i : Nat) :
    d.point (log + 1) (2 * i + 1) = -d.point (log + 1) (2 * i) := by
  have hroot := h.isPrimitiveRoot_layer hlog
  rw [Nat.pow_succ] at hroot
  have hhalf : (d.generator ^ (d.size / 2 ^ (log + 1))) ^ 2 ^ log = -1 := by
    rw [← pow_mul]
    have hexponent : d.size / 2 ^ (log + 1) * 2 ^ log = 2 ^ (d.logSize - 1) := by
      rw [size, two_pow_div_two_pow hlog, ← Nat.pow_add]
      congr 1
      omega
    rw [hexponent, h.generator_pow_half]
  rw [point, point, bitReverse_two_mul, bitReverse_two_mul_add_one, pow_add, hhalf, neg_one_mul]

/-- The common square of two neighbours is a point of the next layer. -/
theorem point_two_mul_sq (hlog : log + 1 ≤ d.logSize) (i : Nat) :
    d.point (log + 1) (2 * i) ^ 2 = d.point log i := by
  rw [point, point, bitReverse_two_mul, ← pow_mul, Nat.mul_comm, pow_mul, root_sq hlog]

/-- The first point of a coset, raised to the coset's size, is the coset's point in a smaller layer. -/
theorem point_mul_two_pow_pow {step : Nat} (hlog : log ≤ d.logSize) (hstep : step ≤ log) (c : Nat) :
    d.point log (c * 2 ^ step) ^ 2 ^ step = d.point (log - step) c := by
  induction step generalizing log with
  | zero => rw [Nat.pow_zero, Nat.mul_one, pow_one, Nat.sub_zero]
  | succ step ih =>
      obtain ⟨log, rfl⟩ : ∃ k, log = k + 1 := ⟨log - 1, by omega⟩
      have hplace : c * 2 ^ (step + 1) = 2 * (c * 2 ^ step) := by ring
      rw [hplace, Nat.pow_succ', pow_mul, point_two_mul_sq hlog, ih (by omega) (by omega),
        Nat.add_sub_add_right]

end Valid
end EvalDomain
end StarkVerifier
