import Mathlib.Data.Set.Function
import StarkVerifier.Proofs.Field.Encoding

/-!
# Arithmetic modulo the modulus

The numbers that elements stand for are the numbers below the modulus, one element for each, and every
operation on elements is the operation on integers, reduced. Main statement: `canonical_arithmetic`.
-/

namespace StarkVerifier.Felt

/-! ## Words that hold elements -/

/-- The words that constructors and operations make. Bytes, text and files are read through the number
they spell, and powers, sums and products over lists are made of the three operations. -/
inductive Held : UInt256 → Prop
  | zero : Held ⟨0, 0, 0, 0⟩
  | one : Held Montgomery.one
  | ofWord (w : UInt64) : Held (Montgomery.mul (.ofWord w) Montgomery.square)
  | ofCanonical {x : UInt256} (h : x.lt Montgomery.modulusWords = true) :
      Held (Montgomery.mul x Montgomery.square)
  | add {a b : UInt256} (ha : Held a) (hb : Held b) : Held (Montgomery.add a b)
  | sub {a b : UInt256} (ha : Held a) (hb : Held b) : Held (Montgomery.sub a b)
  | mul {a b : UInt256} (ha : Held a) (hb : Held b) : Held (Montgomery.mul a b)

theorem Held.toNat_lt {w : UInt256} (h : Held w) : w.toNat < modulus := by
  induction h with
  | zero => decide
  | one => exact Montgomery.toNat_one_lt
  | ofWord w => exact Montgomery.toNat_mul_lt _ Montgomery.toNat_square_lt
  | ofCanonical h => exact Montgomery.toNat_mul_lt _ Montgomery.toNat_square_lt
  | add _ _ iha ihb =>
      rw [Montgomery.toNat_add iha ihb]
      exact Nat.mod_lt _ prime_modulus.pos
  | sub _ _ iha ihb =>
      rw [Montgomery.toNat_sub iha ihb]
      exact Nat.mod_lt _ prime_modulus.pos
  | mul _ _ _ ihb => exact Montgomery.toNat_mul_lt _ ihb

theorem held_mont (a : Felt) : Held a.mont := by
  have h : Held (ofUInt256 a.toUInt256).mont := by
    rw [ofUInt256, mont_mk]
    exact .ofCanonical a.toUInt256_lt
  rwa [ofUInt256_toUInt256] at h

theorem held_iff {w : UInt256} : Held w ↔ w.toNat < modulus := by
  constructor
  · exact Held.toNat_lt
  · intro h
    exact held_mont (Felt.mk w h)

/-! ## The numbers elements stand for -/

theorem bijOn_toUInt256 : Set.BijOn toUInt256 Set.univ {x | x.toNat < modulus} := by
  refine ⟨fun a _ => a.toNat_lt, fun a _ b _ h => ?_, fun x hx => ?_⟩
  · exact toNat_injective (congrArg UInt256.toNat h)
  · exact ⟨ofUInt256 x, trivial, toUInt256_ofUInt256 hx⟩

/-! ## Lists -/

theorem residue_sum (as : List Felt) : residue as.sum = (as.map residue).sum := by
  induction as with
  | nil => exact residue_zero
  | cons a as ih => rw [List.sum_cons, residue_add, ih, List.map_cons, List.sum_cons]

theorem residue_prod (as : List Felt) : residue as.prod = (as.map residue).prod := by
  induction as with
  | nil => exact residue_one
  | cons a as ih => rw [List.prod_cons, residue_mul, ih, List.map_cons, List.prod_cons]

theorem product_eq (as : List Felt) : Felt.product as = as.prod := by
  rw [Felt.product, List.prod_eq_foldl]

/-! ## The operations -/

/-- Elements are held in reduced words and stand for the numbers below the modulus, one each. Every
operation on them is the operation on integers modulo the modulus. -/
theorem canonical_arithmetic :
    (∀ w : UInt256, Held w ↔ w.toNat < modulus) ∧
    Set.BijOn toUInt256 Set.univ {x | x.toNat < modulus} ∧
    (∀ a b : Felt, (a = b ↔ a.toNat = b.toNat) ∧ (a = 0 ↔ a.toNat = 0)) ∧
    (∀ a b : Felt, ((a + b).toNat : ℤ) = (a.toNat + b.toNat) % modulus ∧
      ((a - b).toNat : ℤ) = (a.toNat - b.toNat) % modulus ∧
      ((-a).toNat : ℤ) = -a.toNat % modulus ∧
      ((a * b).toNat : ℤ) = a.toNat * b.toNat % modulus ∧
      (a.square.toNat : ℤ) = a.toNat ^ 2 % modulus) ∧
    (∀ (a : Felt) (n : Nat), ((a ^ n).toNat : ℤ) = a.toNat ^ n % modulus) ∧
    (∀ as : List Felt, ((Felt.sum as).toNat : ℤ) = (as.map fun a => (a.toNat : ℤ)).sum % modulus ∧
      ((Felt.product as).toNat : ℤ) = (as.map fun a => (a.toNat : ℤ)).prod % modulus) ∧
    ∀ w : UInt64, ((ofWord w).toNat : ℤ) = w.toNat % modulus := by
  refine ⟨fun w => held_iff, bijOn_toUInt256, fun a b => ⟨?_, ?_⟩, fun a b => ⟨?_, ?_, ?_, ?_, ?_⟩,
    fun a n => ?_, fun as => ⟨?_, ?_⟩, fun w => ?_⟩
  · exact toNat_injective.eq_iff.symm
  · have hzero : (0 : Felt).toNat = 0 := by decide
    rw [← toNat_injective.eq_iff, hzero]
  · exact toNat_eq_emod (by rw [residue_add, residue, residue]; push_cast; rfl)
  · exact toNat_eq_emod (by rw [residue_sub, residue, residue]; push_cast; rfl)
  · exact toNat_eq_emod (by rw [residue_neg, residue]; push_cast; rfl)
  · exact toNat_eq_emod (by rw [residue_mul, residue, residue]; push_cast; rfl)
  · exact toNat_eq_emod (by rw [square, residue_mul, residue, ← pow_two]; push_cast; rfl)
  · exact toNat_eq_emod (by rw [residue_pow, residue]; push_cast; rfl)
  · refine toNat_eq_emod ?_
    rw [sum_eq, residue_sum, Int.cast_list_sum, List.map_map]
    exact congrArg List.sum (List.map_congr_left fun a _ => (Int.cast_natCast a.toNat).symm)
  · refine toNat_eq_emod ?_
    rw [product_eq, residue_prod, Int.cast_list_prod, List.map_map]
    exact congrArg List.prod (List.map_congr_left fun a _ => (Int.cast_natCast a.toNat).symm)
  · exact toNat_eq_emod (by rw [residue_ofWord, Int.cast_natCast])

end StarkVerifier.Felt
