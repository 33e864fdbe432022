import Mathlib.LinearAlgebra.Lagrange
import Mathlib.RingTheory.RootsOfUnity.PrimitiveRoots
import StarkVerifier.Proofs.Field.Polynomial

/-!
# Polynomials on the powers of a root of unity

Interpolation of one value for each power, the coefficients from the values, and division of a polynomial
that vanishes at all powers.
-/

namespace StarkVerifier.Felt

open Polynomial

variable {w : Felt} {n : Nat}

theorem injOn_pow (hw : IsPrimitiveRoot w n) : Set.InjOn (fun r => w ^ r) (Finset.range n) := by
  intro r hr s hs h
  rw [Finset.coe_range, Set.mem_Iio] at hr hs
  exact hw.pow_inj hr hs h

/-- Polynomials below the degree are equal when they agree at every power. -/
theorem eq_of_eval_pow_eq (hw : IsPrimitiveRoot w n) {f g : Felt[X]} (hf : f.degree < n)
    (hg : g.degree < n) (h : ∀ r < n, f.eval (w ^ r) = g.eval (w ^ r)) : f = g := by
  refine eq_of_degrees_lt_of_eval_index_eq (Finset.range n) (injOn_pow hw) ?_ ?_ fun r hr => ?_
  · rwa [Finset.card_range]
  · rwa [Finset.card_range]
  · exact h r (Finset.mem_range.mp hr)

/-- The polynomial below degree `n` that takes the given values at the powers. -/
noncomputable def interpolant (w : Felt) (n : Nat) (values : Nat → Felt) : Felt[X] :=
  Lagrange.interpolate (Finset.range n) (fun r => w ^ r) values

theorem eval_interpolant (hw : IsPrimitiveRoot w n) (values : Nat → Felt) {r : Nat} (hr : r < n) :
    (interpolant w n values).eval (w ^ r) = values r :=
  Lagrange.eval_interpolate_at_node values (injOn_pow hw) (Finset.mem_range.mpr hr)

theorem degree_interpolant_lt (hw : IsPrimitiveRoot w n) (values : Nat → Felt) :
    (interpolant w n values).degree < n := by
  have h := Lagrange.degree_interpolate_lt values (injOn_pow hw)
  rwa [Finset.card_range] at h

theorem interpolant_eq (hw : IsPrimitiveRoot w n) {values : Nat → Felt} {f : Felt[X]}
    (hf : f.degree < n) (h : ∀ r < n, f.eval (w ^ r) = values r) : interpolant w n values = f :=
  eq_of_eval_pow_eq hw (degree_interpolant_lt hw values) hf fun r hr => by
    rw [eval_interpolant hw values hr, h r hr]

/-! ## Coefficients from values -/

/-- Powers of the powers cancel unless they are undone by the same power. -/
theorem sum_pow_mul_inv_pow (hw : IsPrimitiveRoot w n) {m k : Nat} (hm : m < n) (hk : k < n) :
    ∑ r ∈ Finset.range n, (w ^ r) ^ m * (w ^ (r * k))⁻¹ = if m = k then (n : Felt) else 0 := by
  have hne (i : Nat) : w ^ i ≠ 0 := pow_ne_zero i (hw.ne_zero (by omega))
  have hterm (r : Nat) : (w ^ r) ^ m * (w ^ (r * k))⁻¹ = (w ^ m * (w ^ k)⁻¹) ^ r := by
    rw [mul_pow, inv_pow, ← pow_mul, ← pow_mul, ← pow_mul, Nat.mul_comm r m, Nat.mul_comm r k]
  rw [Finset.sum_congr rfl fun r _ => hterm r]
  by_cases h : m = k
  · rw [if_pos h, h, mul_inv_cancel₀ (hne k)]
    simp only [one_pow, Finset.sum_const, Finset.card_range, nsmul_eq_mul, mul_one]
  · -- a power other than one runs through a whole number of its periods
    have hratio : w ^ m * (w ^ k)⁻¹ ≠ 1 := fun hone =>
      h (hw.pow_inj hm hk ((mul_inv_eq_one₀ (hne k)).mp hone))
    have hperiod : (w ^ m * (w ^ k)⁻¹) ^ n = 1 := by
      rw [mul_pow, inv_pow, ← pow_mul, ← pow_mul, Nat.mul_comm m, Nat.mul_comm k, pow_mul, pow_mul,
        hw.pow_eq_one, one_pow, one_pow, inv_one, mul_one]
    have hsum := geom_sum_mul (w ^ m * (w ^ k)⁻¹) n
    rw [hperiod, sub_self] at hsum
    rw [if_neg h]
    exact (mul_eq_zero.mp hsum).resolve_right (sub_ne_zero.mpr hratio)

/-- The values at all powers, weighted with the inverses of a power, single out its coefficient. -/
theorem sum_evalPoly_mul_inv_pow (hw : IsPrimitiveRoot w n) (a : Nat → Felt) {k : Nat} (hk : k < n) :
    ∑ r ∈ Finset.range n, evalPoly ((List.range n).map a) (w ^ r) * (w ^ (r * k))⁻¹ = a k * n := by
  calc ∑ r ∈ Finset.range n, evalPoly ((List.range n).map a) (w ^ r) * (w ^ (r * k))⁻¹
      = ∑ r ∈ Finset.range n, ∑ m ∈ Finset.range n, a m * ((w ^ r) ^ m * (w ^ (r * k))⁻¹) := by
        refine Finset.sum_congr rfl fun r _ => ?_
        rw [evalPoly_map_range, Finset.sum_mul]
        exact Finset.sum_congr rfl fun m _ => mul_assoc _ _ _
    _ = ∑ m ∈ Finset.range n, a m * if m = k then (n : Felt) else 0 := by
        rw [Finset.sum_comm]
        refine Finset.sum_congr rfl fun m hm => ?_
        rw [← Finset.mul_sum, sum_pow_mul_inv_pow hw (Finset.mem_range.mp hm) hk]
    _ = a k * n := by
        rw [Finset.sum_eq_single_of_mem k (Finset.mem_range.mpr hk), if_pos rfl]
        intro m _ hm
        rw [if_neg hm, mul_zero]

/-! ## Division -/

/-- The polynomial divided by the one that vanishes at all powers. -/
noncomputable def groupQuotient (n : Nat) (f : Felt[X]) : Felt[X] := f /ₘ (X ^ n - C 1)

theorem mul_groupQuotient (hn : n ≠ 0) (hw : IsPrimitiveRoot w n) {f : Felt[X]}
    (h : ∀ r < n, f.eval (w ^ r) = 0) : (X ^ n - C 1) * groupQuotient n f = f := by
  have hmonic : (X ^ n - C (1 : Felt)).Monic := monic_X_pow_sub_C 1 hn
  have hdivision := modByMonic_add_div f (X ^ n - C 1)
  have hdegree : (f %ₘ (X ^ n - C 1)).degree < n := by
    have hlt := degree_modByMonic_lt f hmonic
    rwa [degree_X_pow_sub_C (Nat.pos_of_ne_zero hn)] at hlt
  -- the remainder has more zeros than its degree allows
  have hzero : f %ₘ (X ^ n - C 1) = 0 := by
    apply eq_of_eval_pow_eq hw hdegree (degree_zero_lt n)
    intro r hr
    have heval := congrArg (eval (w ^ r)) hdivision
    rw [eval_add, eval_mul, eval_sub, eval_pow, eval_X, eval_C, ← pow_mul, Nat.mul_comm, pow_mul,
      hw.pow_eq_one, one_pow, sub_self, zero_mul, add_zero, h r hr] at heval
    rw [heval, eval_zero]
  rwa [hzero, zero_add] at hdivision

theorem degree_groupQuotient_lt (hn : n ≠ 0) (hw : IsPrimitiveRoot w n) {f : Felt[X]} {k : Nat}
    (h : ∀ r < n, f.eval (w ^ r) = 0) (hf : f.degree < (k + n : Nat)) :
    (groupQuotient n f).degree < k := by
  apply degree_lt_of_mul_eq (monic_X_pow_sub_C 1 hn) (mul_groupQuotient hn hw h)
  rwa [natDegree_X_pow_sub_C]

theorem eval_groupQuotient (hn : n ≠ 0) (hw : IsPrimitiveRoot w n) {f : Felt[X]}
    (h : ∀ r < n, f.eval (w ^ r) = 0) {x : Felt} (hx : x ^ n ≠ 1) :
    (groupQuotient n f).eval x = f.eval x * (x ^ n - 1)⁻¹ := by
  have heval := congrArg (eval x) (mul_groupQuotient hn hw h)
  rw [eval_mul, eval_sub, eval_pow, eval_X, eval_C] at heval
  have hne : x ^ n - 1 ≠ 0 := sub_ne_zero.mpr hx
  rw [← heval, mul_comm (x ^ n - 1), mul_assoc, mul_inv_cancel₀ hne, mul_one]

/-! ## Degrees -/

theorem degree_mul_lt {a b : Nat} {f g : Felt[X]} (hf : f.degree < (a + 1 : Nat))
    (hg : g.degree < b) : (f * g).degree < (a + b : Nat) := by
  by_cases hzero : f * g = 0
  · rw [hzero]
    exact degree_zero_lt (a + b)
  · obtain ⟨hf0, hg0⟩ := mul_ne_zero_iff.mp hzero
    have hfn := (natDegree_lt_iff_degree_lt hf0).mpr hf
    have hgn := (natDegree_lt_iff_degree_lt hg0).mpr hg
    apply (natDegree_lt_iff_degree_lt hzero).mp
    rw [natDegree_mul hf0 hg0]
    omega

/-- The argument of a polynomial scaled. -/
noncomputable def scaled (a : Felt) (f : Felt[X]) : Felt[X] := f.comp (C a * X)

theorem eval_scaled (a : Felt) (f : Felt[X]) (x : Felt) : (scaled a f).eval x = f.eval (a * x) := by
  rw [scaled, eval_comp, eval_mul, eval_C, eval_X]

theorem scaled_injective {a : Felt} (ha : a ≠ 0) : Function.Injective (scaled a) := by
  intro f g h
  ext m
  have hcoeff := congrArg (coeff · m) h
  simp only [scaled, comp_C_mul_X_coeff] at hcoeff
  exact mul_right_cancel₀ (pow_ne_zero m ha) hcoeff

theorem degree_scaled_lt {a : Felt} {f : Felt[X]} (h : f.degree < n) : (scaled a f).degree < n := by
  rw [degree_lt_iff_coeff_zero] at h ⊢
  intro m hm
  rw [scaled, comp_C_mul_X_coeff, h m hm, zero_mul]

end StarkVerifier.Felt
