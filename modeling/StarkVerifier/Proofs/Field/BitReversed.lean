import Mathlib.Data.Set.Card
import StarkVerifier.Proofs.Field.Domain

/-!
# The structure of a domain

A domain has as many elements as its size says, each once within one period of the indices, and in
bit-reversed order each once too. There a pair of neighbours is an element and its negative, and their
square is the element of half the index in the domain of half the size. Main statement:
`EvalDomain.bitReversed_structure`.
-/

namespace StarkVerifier

/-- Reversal permutes the numbers of its width. -/
theorem bijOn_bitReverse (bits : Nat) :
    Set.BijOn (bitReverse bits) (Set.Iio (2 ^ bits)) (Set.Iio (2 ^ bits)) := by
  have hinvolutive : Set.LeftInvOn (bitReverse bits) (bitReverse bits) (Set.Iio (2 ^ bits)) :=
    fun _ hi => bitReverse_bitReverse hi
  have hmaps : Set.MapsTo (bitReverse bits) (Set.Iio (2 ^ bits)) (Set.Iio (2 ^ bits)) :=
    fun i _ => bitReverse_lt bits i
  exact Set.InvOn.bijOn ⟨hinvolutive, hinvolutive⟩ hmaps hmaps

namespace EvalDomain
namespace Valid

variable {d e : EvalDomain}

/-- One period of the indices lists every element once. -/
theorem bijOn_element (h : d.Valid) :
    Set.BijOn d.element (Set.Iio d.size) (Set.range d.element) := by
  refine ⟨fun i _ => ⟨i, rfl⟩, fun i hi j hj heq => ?_, ?_⟩
  · exact Nat.ModEq.eq_of_lt_of_lt (h.element_eq_element_iff.mp heq) hi hj
  · rintro x ⟨i, rfl⟩
    exact ⟨i % d.size, Nat.mod_lt i (Nat.two_pow_pos _),
      h.element_eq_element_iff.mpr (Nat.mod_modEq i d.size)⟩

theorem ncard_range_element (h : d.Valid) : (Set.range d.element).ncard = d.size := by
  rw [← h.bijOn_element.image_eq, h.bijOn_element.injOn.ncard_image, ← Finset.coe_range,
    Set.ncard_coe_finset, Finset.card_range]

theorem bijOn_bitReversedElement (h : d.Valid) :
    Set.BijOn d.bitReversedElement (Set.Iio d.size) (Set.range d.element) :=
  h.bijOn_element.comp (bijOn_bitReverse d.logSize)

theorem element_mul_inverseElement (h : d.Valid) (i : Nat) :
    d.element i * d.inverseElement i = 1 := by
  rw [h.element_eq, h.inverseElement_eq, mul_inv_cancel₀ (pow_ne_zero i h.generator_ne_zero)]

theorem bitReversedElement_two_mul (h : d.Valid) (j : Nat) :
    d.bitReversedElement (2 * j) = -d.bitReversedElement (2 * j + 1) := by
  obtain ⟨log, hlog⟩ : ∃ log, d.logSize = log + 1 :=
    ⟨d.logSize - 1, (Nat.sub_add_cancel h.logSize_pos).symm⟩
  rw [h.bitReversedElement_eq, h.bitReversedElement_eq, hlog, h.point_two_mul_add_one hlog.ge, neg_neg]

/-- The points of a layer are those of the domain of its size. -/
theorem point_eq_bitReversedElement (h : d.Valid) (he : e.Valid) (hle : e.logSize ≤ d.logSize) (i : Nat) :
    d.point e.logSize i = e.bitReversedElement i := by
  have hroot := h.generator_pow_div he hle
  rw [size, size] at hroot
  rw [bitReversedElement, he.element_eq, point, size, hroot]

theorem bitReversedElement_two_mul_sq (h : d.Valid) (he : e.Valid) (hlog : d.logSize = e.logSize + 1)
    (j : Nat) : d.bitReversedElement (2 * j) ^ 2 = e.bitReversedElement j := by
  rw [h.bitReversedElement_eq, hlog, point_two_mul_sq hlog.ge,
    h.point_eq_bitReversedElement he (by omega)]

end Valid

/-- For all sizes that there are: the order of the generator, when elements are equal, their inverses, and
the bit-reversed order with its pairs. -/
theorem bitReversed_structure {k : Nat} (hpos : 1 ≤ k) (hle : k ≤ 63) :
    ∃ d, ofLogSize k = .ok d ∧ d.size = 2 ^ k ∧ orderOf d.generator = 2 ^ k ∧
      (∀ i j, d.element i = d.element j ↔ i ≡ j [MOD 2 ^ k]) ∧
      (∀ i, d.element i * d.inverseElement i = 1) ∧
      (∀ i m, (bitReverse k i).testBit m = (decide (m < k) && i.testBit (k - 1 - m))) ∧
      (∀ i < 2 ^ k, bitReverse k i < 2 ^ k ∧ bitReverse k (bitReverse k i) = i) ∧
      (Set.range d.element).ncard = 2 ^ k ∧
      Set.BijOn d.bitReversedElement (Set.Iio (2 ^ k)) (Set.range d.element) ∧
      (∀ j, d.bitReversedElement (2 * j) = -d.bitReversedElement (2 * j + 1)) ∧
      (2 ≤ k → ∃ e, ofLogSize (k - 1) = .ok e ∧
        ∀ j, d.bitReversedElement (2 * j) ^ 2 = e.bitReversedElement j) := by
  obtain ⟨d, hd⟩ := exists_ofLogSize hpos hle
  obtain ⟨rfl, h⟩ := ofLogSize_eq_ok_iff.mp hd
  refine ⟨d, hd, rfl, h.isPrimitiveRoot.eq_orderOf.symm, fun i j => h.element_eq_element_iff,
    h.element_mul_inverseElement, testBit_bitReverse d.logSize,
    fun i hi => ⟨bitReverse_lt d.logSize i, bitReverse_bitReverse hi⟩, h.ncard_range_element,
    h.bijOn_bitReversedElement, h.bitReversedElement_two_mul, fun htwo => ?_⟩
  obtain ⟨e, he⟩ := exists_ofLogSize (show 1 ≤ d.logSize - 1 by omega) (by omega)
  obtain ⟨hlog, hvalid⟩ := ofLogSize_eq_ok_iff.mp he
  exact ⟨e, he, h.bitReversedElement_two_mul_sq hvalid (by omega)⟩

/-- Indices at the size of the largest domain and beyond it. -/
theorem bitReversed_structure_largest :
    (1 ≤ 63 ∧ 63 ≤ 63) ∧ ∃ d e, ofLogSize 63 = .ok d ∧ ofLogSize 62 = .ok e ∧
      orderOf d.generator = 2 ^ 63 ∧ d.element (2 ^ 63 + 8) = d.element 8 ∧
      d.element (2 ^ 63) * d.inverseElement (2 ^ 63) = 1 ∧
      bitReverse 63 (bitReverse 63 6) = 6 ∧
      Set.BijOn d.bitReversedElement (Set.Iio (2 ^ 63)) (Set.range d.element) ∧
      d.bitReversedElement 6 = -d.bitReversedElement 7 ∧
      d.bitReversedElement 6 ^ 2 = e.bitReversedElement 3 := by
  obtain ⟨d, hd, -, horder, helement, hinverse, -, hreverse, -, hbij, hpair, hsquare⟩ :=
    bitReversed_structure (show 1 ≤ 63 by decide) (show 63 ≤ 63 by decide)
  obtain ⟨e, he, hhalf⟩ := hsquare (by decide)
  exact ⟨by decide, d, e, hd, he, horder, (helement _ _).mpr (by decide), hinverse _,
    (hreverse 6 (by decide)).2, hbij, hpair 3, hhalf 3⟩

end EvalDomain
end StarkVerifier
