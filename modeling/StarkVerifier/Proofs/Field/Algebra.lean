import Mathlib.Algebra.Field.IsField
import Mathlib.FieldTheory.Finite.Basic
import Mathlib.NumberTheory.LucasPrimality
import Mathlib.Tactic.NormNum.Prime
import Mathlib.Tactic.ReduceModChar
import StarkVerifier.Field.Basic

/-!
# Elements are residues

The modulus is prime, and each operation on elements is the operation of `ZMod modulus` on the numbers they
stand for. Elements are therefore a field, and `inverse` is its inverse.
-/

namespace StarkVerifier

/-!
## The modulus is prime

Lucas's test with the witness three, whose powers also give the roots of unity of the evaluation
domains: `three_pow_half` says that three is no square.
-/

theorem modulus_sub_one : modulus - 1 = 2 ^ 192 * (5 * (7 * (98714381 * 166848103))) := by
  decide +kernel

theorem prime_dvd_modulus_sub_one {q : Nat} (hq : q.Prime) (hdvd : q ∣ modulus - 1) :
    q ∈ [2, 5, 7, 98714381, 166848103] := by
  have prime_five : Nat.Prime 5 := by norm_num
  have prime_seven : Nat.Prime 7 := by norm_num
  have prime_third : Nat.Prime 98714381 := by norm_num
  have prime_fourth : Nat.Prime 166848103 := by norm_num
  rw [modulus_sub_one] at hdvd
  rcases hq.dvd_mul.mp hdvd with h | h
  · simp [(Nat.prime_dvd_prime_iff_eq hq Nat.prime_two).mp (hq.dvd_of_dvd_pow h)]
  rcases hq.dvd_mul.mp h with h | h
  · simp [(Nat.prime_dvd_prime_iff_eq hq prime_five).mp h]
  rcases hq.dvd_mul.mp h with h | h
  · simp [(Nat.prime_dvd_prime_iff_eq hq prime_seven).mp h]
  rcases hq.dvd_mul.mp h with h | h
  · simp [(Nat.prime_dvd_prime_iff_eq hq prime_third).mp h]
  · simp [(Nat.prime_dvd_prime_iff_eq hq prime_fourth).mp h]

theorem three_pow_modulus_sub_one : (3 : ZMod modulus) ^ (modulus - 1) = 1 := by
  unfold modulus
  norm_num only
  reduce_mod_char

theorem three_pow_ne_one {q : Nat} (hq : q ∈ [2, 5, 7, 98714381, 166848103]) :
    (3 : ZMod modulus) ^ ((modulus - 1) / q) ≠ 1 := by
  simp only [List.mem_cons, List.not_mem_nil, or_false] at hq
  unfold modulus
  rcases hq with rfl | rfl | rfl | rfl | rfl <;> norm_num only <;> reduce_mod_char <;>
    decide +kernel

theorem prime_modulus : modulus.Prime :=
  lucas_primality modulus 3 three_pow_modulus_sub_one fun _ hq hdvd =>
    three_pow_ne_one (prime_dvd_modulus_sub_one hq hdvd)

instance : Fact modulus.Prime := ⟨prime_modulus⟩

theorem three_pow_half : (3 : ZMod modulus) ^ ((modulus - 1) / 2) = -1 := by
  unfold modulus
  norm_num only
  reduce_mod_char

theorem UInt512.toNat_low (w : UInt256) :
    UInt512.toNat ⟨w, ⟨0, 0, 0, 0⟩⟩ = w.toNat := by
  have hz : UInt256.toNat ⟨0, 0, 0, 0⟩ = 0 := rfl
  rw [UInt512.toNat, hz, Nat.mul_zero, Nat.add_zero]

namespace Felt

/-! ## Montgomery form -/

theorem modulus_lt : modulus < 2 ^ 256 := by decide

/-- What Montgomery form multiplies by. -/
def radix : ZMod modulus := (2 ^ 256 : Nat)

theorem radix_ne_zero : radix ≠ 0 := by
  rw [radix, Ne, ZMod.natCast_eq_zero_iff]
  intro hdvd
  have hle := Nat.le_of_dvd two_pos (prime_modulus.dvd_of_dvd_pow hdvd)
  exact absurd hle (by decide)

theorem toNat_low_lt (a : Felt) : UInt512.toNat ⟨a.mont, ⟨0, 0, 0, 0⟩⟩ < modulus * 2 ^ 256 := by
  rw [UInt512.toNat_low]
  exact lt_of_lt_of_le a.mont_lt (Nat.le_mul_of_pos_right _ (Nat.two_pow_pos 256))

theorem toNat_lt (a : Felt) : a.toNat < modulus :=
  Montgomery.toNat_reduce_lt a.toNat_low_lt

theorem toNat_mul_mod (a : Felt) : a.toNat * 2 ^ 256 % modulus = a.mont.toNat := by
  have h := Montgomery.reduce_mul_mod a.toNat_low_lt
  rw [UInt512.toNat_low, Nat.mod_eq_of_lt a.mont_lt] at h
  exact h

/-- The residue class of the number that an element stands for. -/
def residue (a : Felt) : ZMod modulus := a.toNat

/-- The words of an element hold its number in Montgomery form. -/
theorem residue_mont (a : Felt) : (a.mont.toNat : ZMod modulus) = residue a * radix := by
  rw [← toNat_mul_mod, ZMod.natCast_mod, Nat.cast_mul, residue, radix]

theorem residue_eq_iff {a : Felt} {r : ZMod modulus} :
    residue a = r ↔ (a.mont.toNat : ZMod modulus) = r * radix := by
  rw [residue_mont, mul_left_inj' radix_ne_zero]

theorem residue_injective : Function.Injective residue := by
  intro a b h
  rw [residue_eq_iff, ← residue_mont, ZMod.natCast_eq_natCast_iff'] at h
  rw [Nat.mod_eq_of_lt a.mont_lt, Nat.mod_eq_of_lt b.mont_lt, UInt256.toNat_inj] at h
  cases a
  cases b
  simpa using h

/-! ## Operations -/

theorem residue_zero : residue 0 = 0 := by
  rw [residue_eq_iff, zero_mul]
  rfl

theorem residue_one : residue 1 = 1 := by
  rw [residue_eq_iff]
  have h : ((1 : Felt).mont.toNat) = 2 ^ 256 % modulus := by decide
  rw [h, ZMod.natCast_mod, one_mul, radix]

theorem residue_add (a b : Felt) : residue (a + b) = residue a + residue b := by
  have h : (a + b).mont.toNat = _ := Montgomery.toNat_add a.mont_lt b.mont_lt
  rw [residue_eq_iff, h, ZMod.natCast_mod, Nat.cast_add, residue_mont, residue_mont, add_mul]

theorem residue_sub (a b : Felt) : residue (a - b) = residue a - residue b := by
  have h : (a - b).mont.toNat = _ := Montgomery.toNat_sub a.mont_lt b.mont_lt
  rw [residue_eq_iff, h, ZMod.natCast_mod, Nat.cast_add, Nat.cast_sub b.mont_lt.le, ZMod.natCast_self,
    residue_mont, residue_mont]
  ring

theorem residue_neg (a : Felt) : residue (-a) = -residue a := by
  have h : -a = 0 - a := rfl
  rw [h, residue_sub, residue_zero, zero_sub]

/-- A Montgomery product with the second factor reduced. -/
theorem montgomery_mul (x : UInt256) {y : UInt256} (hy : y.toNat < modulus) :
    ((Montgomery.mul x y).toNat : ZMod modulus) * radix = x.toNat * y.toNat := by
  have h := (ZMod.natCast_eq_natCast_iff' _ _ modulus).mpr (Montgomery.mul_mod x hy)
  rw [radix, ← Nat.cast_mul, ← Nat.cast_mul, h]

theorem mont_mk (w : UInt256) (h : w.toNat < modulus) : (Felt.mk w h).mont = w := rfl

theorem mul_def (a b : Felt) :
    a * b = ⟨Montgomery.mul a.mont b.mont, Montgomery.toNat_mul_lt a.mont b.mont_lt⟩ := rfl

theorem residue_mul (a b : Felt) : residue (a * b) = residue a * residue b := by
  have h := montgomery_mul a.mont b.mont_lt
  refine residue_eq_iff.mpr (mul_right_cancel₀ radix_ne_zero ?_)
  rw [mul_def, mont_mk, h, residue_mont, residue_mont]
  ring

theorem residue_ofUInt256 (x : UInt256) : residue (ofUInt256 x) = x.toNat := by
  have h := montgomery_mul x Montgomery.toNat_square_lt
  have hs : Montgomery.square.toNat = 2 ^ 256 * 2 ^ 256 % modulus := by decide
  refine residue_eq_iff.mpr (mul_right_cancel₀ radix_ne_zero ?_)
  rw [ofUInt256, mont_mk, h, hs, ZMod.natCast_mod, Nat.cast_mul, ← radix, mul_assoc]

theorem residue_ofNat (n : Nat) : residue (ofNat n) = n := by
  rw [ofNat, residue_ofUInt256, UInt256.toNat_ofNat,
    Nat.mod_eq_of_lt ((Nat.mod_lt n prime_modulus.pos).trans modulus_lt), ZMod.natCast_mod]

theorem residue_ofWord (w : UInt64) : residue (ofWord w) = w.toNat := by
  rw [ofWord, residue_ofUInt256, UInt256.toNat_ofWord]

theorem residue_powBits (a : Felt) (n bits : Nat) :
    residue (powBits a n bits) = residue a ^ (n % 2 ^ bits) := by
  induction bits generalizing n with
  | zero => simp [powBits, residue_one, Nat.mod_one]
  | succ bits ih =>
      have hmod : n % 2 ^ (bits + 1) = 2 * (n / 2 % 2 ^ bits) + n % 2 := by
        rw [pow_succ', Nat.mod_mul]
        omega
      rw [powBits]
      by_cases h : n % 2 = 1
      · simp only [h, if_true, residue_mul, ih, hmod]
        ring
      · have h0 : n % 2 = 0 := by omega
        simp only [h0, zero_ne_one, if_false, residue_mul, ih, hmod]
        ring

theorem residue_pow (a : Felt) (n : Nat) : residue (a ^ n) = residue a ^ n := by
  have h : a ^ n = powBits a n (if n = 0 then 0 else n.log2 + 1) := rfl
  rw [h, residue_powBits]
  split
  · next h0 => simp [h0]
  · rw [Nat.mod_eq_of_lt Nat.lt_log2_self]


/-! ## The field -/

instance : NatCast Felt := ⟨ofNat⟩

instance : IntCast Felt := ⟨fun n => ofNat (n % modulus).toNat⟩

instance : SMul Nat Felt := ⟨fun n a => (n : Felt) * a⟩

instance : SMul ℤ Felt := ⟨fun n a => (n : Felt) * a⟩

theorem residue_natCast (n : Nat) : residue n = n := residue_ofNat n

theorem residue_intCast (n : ℤ) : residue n = n := by
  have h : (n : Felt) = ofNat (n % modulus).toNat := rfl
  have hpos : (0 : ℤ) ≤ n % modulus := Int.emod_nonneg _ (by exact_mod_cast prime_modulus.ne_zero)
  rw [h, residue_ofNat, ← Int.cast_natCast, Int.toNat_of_nonneg hpos, ZMod.intCast_mod]

instance : CommRing Felt :=
  residue_injective.commRing residue residue_zero residue_one residue_add residue_mul residue_neg
    residue_sub (fun n a => by rw [nsmul_eq_mul, ← residue_natCast, ← residue_mul]; rfl)
    (fun n a => by rw [zsmul_eq_mul, ← residue_intCast, ← residue_mul]; rfl) residue_pow
    residue_natCast residue_intCast

/-- Two less than the order of the group undoes a factor. -/
theorem mul_pow_modulus_sub_two {a : Felt} (h : a ≠ 0) : a * a ^ (modulus - 2) = 1 := by
  have hr : residue a ≠ 0 := fun h0 => h (residue_injective (by rw [h0, residue_zero]))
  apply residue_injective
  rw [residue_mul, residue_pow, residue_one, ← pow_succ', ← ZMod.pow_card_sub_one_eq_one hr]
  congr 1

theorem isField : IsField Felt where
  exists_pair_ne := ⟨0, 1, by decide⟩
  mul_comm := mul_comm
  mul_inv_cancel h := ⟨_, mul_pow_modulus_sub_two h⟩

noncomputable instance : Field Felt := isField.toField

theorem inverse_eq_ok {a : Felt} (h : a ≠ 0) : a.inverse = .ok a⁻¹ := by
  have hmul := mul_pow_modulus_sub_two h
  -- the exponent is named so that no unifier computes the power
  obtain ⟨n, hn⟩ : ∃ n, n = modulus - 2 := ⟨_, rfl⟩
  rw [← hn] at hmul
  have hinv : a ^ n = a⁻¹ := eq_inv_of_mul_eq_one_right hmul
  rw [inverse, if_neg h, ← hinv, hn]

theorem natCast_ne_zero {n : Nat} (hpos : n ≠ 0) (hlt : n < modulus) : (n : Felt) ≠ 0 := by
  intro hzero
  have hresidue := congrArg residue hzero
  rw [residue_natCast, residue_zero, ZMod.natCast_eq_zero_iff] at hresidue
  exact absurd (Nat.le_of_dvd (Nat.pos_of_ne_zero hpos) hresidue) (by omega)

theorem sum_eq (as : List Felt) : Felt.sum as = as.sum := by
  rw [Felt.sum, List.sum_eq_foldl]

end Felt
end StarkVerifier
