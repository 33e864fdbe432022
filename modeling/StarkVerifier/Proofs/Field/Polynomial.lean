import Mathlib.Algebra.Polynomial.Div
import Mathlib.Algebra.Polynomial.Expand
import Mathlib.RingTheory.Polynomial.DegreeLT
import StarkVerifier.Field.Basic
import StarkVerifier.Proofs.Field.Algebra

/-!
# Polynomials

Lists of coefficients as polynomials of bounded degree, their even and odd parts, and division by the
polynomial of one point.
-/

namespace StarkVerifier.Felt

open Polynomial

/-! ## Degrees below a bound -/

theorem degree_zero_lt (n : Nat) : (0 : Felt[X]).degree < n :=
  lt_of_eq_of_lt degree_zero (WithBot.bot_lt_coe n)

theorem degree_add_lt_of_lt {n : Nat} {f g : Felt[X]} (hf : f.degree < n) (hg : g.degree < n) :
    (f + g).degree < n :=
  lt_of_le_of_lt (degree_add_le f g) (max_lt hf hg)

theorem degree_sub_lt_of_lt {n : Nat} {f g : Felt[X]} (hf : f.degree < n) (hg : g.degree < n) :
    (f - g).degree < n :=
  lt_of_le_of_lt (degree_sub_le f g) (max_lt hf hg)

theorem degree_const_lt (c : Felt) (n : Nat) : (C c).degree < (n + 1 : Nat) :=
  lt_of_le_of_lt degree_C_le (by exact_mod_cast n.succ_pos)

theorem degree_C_mul_lt {n : Nat} {f : Felt[X]} (c : Felt) (hf : f.degree < n) :
    (C c * f).degree < n := by
  rw [← smul_eq_C_mul]
  exact lt_of_le_of_lt (degree_smul_le c f) hf

/-! ## Lists of coefficients -/

/-- The first `n` coefficients. -/
noncomputable def coefficients (n : Nat) (f : Felt[X]) : List Felt := (List.range n).map f.coeff

@[simp] theorem length_coefficients (n : Nat) (f : Felt[X]) : (coefficients n f).length = n := by
  rw [coefficients, List.length_map, List.length_range]

theorem map_getD_range (as : List Felt) :
    (List.range as.length).map (fun m => as[m]?.getD 0) = as := by
  refine List.ext_getElem (by rw [List.length_map, List.length_range]) fun m h _ => ?_
  rw [List.length_map, List.length_range] at h
  rw [List.getElem_map, List.getElem_range, List.getElem?_eq_getElem h, Option.getD_some]

theorem evalPoly_map_range (a : Nat → Felt) (n : Nat) (x : Felt) :
    evalPoly ((List.range n).map a) x = ∑ i ∈ Finset.range n, a i * x ^ i := by
  induction n generalizing a with
  | zero => rw [List.range_zero, List.map_nil, Finset.range_zero, Finset.sum_empty, evalPoly,
      List.foldr_nil]
  | succ n ih =>
      have htail := ih fun i => a (i + 1)
      have hsum : ∑ i ∈ Finset.range n, a (i + 1) * x ^ i * x =
          ∑ i ∈ Finset.range n, a (i + 1) * x ^ (i + 1) :=
        Finset.sum_congr rfl fun i _ => by rw [pow_succ, mul_assoc]
      rw [evalPoly] at htail ⊢
      rw [List.range_succ_eq_map, List.map_cons, List.map_map, List.foldr_cons,
        Finset.sum_range_succ', Function.comp_def, htail, Finset.sum_mul, hsum, pow_zero, mul_one]

theorem eval_eq_sum {n : Nat} {f : Felt[X]} (h : f.degree < n) (x : Felt) :
    f.eval x = ∑ i ∈ Finset.range n, f.coeff i * x ^ i := by
  by_cases hzero : f = 0
  · simp [hzero]
  · exact eval_eq_sum_range' ((natDegree_lt_iff_degree_lt hzero).mpr h) x

theorem evalPoly_coefficients {n : Nat} {f : Felt[X]} (h : f.degree < n) (x : Felt) :
    evalPoly (coefficients n f) x = f.eval x := by
  rw [coefficients, evalPoly_map_range, eval_eq_sum h]

/-! ## Even and odd parts -/

/-- The coefficients at even places. -/
noncomputable def evenPart (f : Felt[X]) : Felt[X] := contract 2 f

/-- The coefficients at odd places. -/
noncomputable def oddPart (f : Felt[X]) : Felt[X] := contract 2 f.divX

theorem eq_even_add_odd (f : Felt[X]) : f = expand Felt 2 (evenPart f) + X * expand Felt 2 (oddPart f) := by
  ext n
  rw [coeff_add, evenPart, oddPart, coeff_expand Nat.two_pos]
  cases n with
  | zero => simp [coeff_contract]
  | succ n =>
      rw [coeff_X_mul, coeff_expand Nat.two_pos, coeff_contract (by decide), coeff_contract (by decide),
        coeff_divX]
      by_cases heven : 2 ∣ n + 1
      · have hodd : ¬2 ∣ n := by omega
        rw [if_pos heven, if_neg hodd, Nat.div_mul_cancel heven, add_zero]
      · have hodd : 2 ∣ n := by omega
        rw [if_neg heven, if_pos hodd, Nat.div_mul_cancel hodd, zero_add]

theorem eval_eq_even_add_odd (f : Felt[X]) (x : Felt) :
    f.eval x = (evenPart f).eval (x ^ 2) + x * (oddPart f).eval (x ^ 2) := by
  conv_lhs => rw [eq_even_add_odd f]
  rw [eval_add, eval_mul, eval_X, expand_eval, expand_eval]

theorem degree_evenPart_lt {n : Nat} {f : Felt[X]} (h : f.degree < (2 * n : Nat)) :
    (evenPart f).degree < n := by
  rw [degree_lt_iff_coeff_zero] at h ⊢
  intro m hm
  rw [evenPart, coeff_contract (by decide)]
  exact h (m * 2) (by omega)

theorem degree_oddPart_lt {n : Nat} {f : Felt[X]} (h : f.degree < (2 * n : Nat)) :
    (oddPart f).degree < n := by
  rw [degree_lt_iff_coeff_zero] at h ⊢
  intro m hm
  rw [oddPart, coeff_contract (by decide), coeff_divX]
  exact h (m * 2 + 1) (by omega)

/-! ## Quotients -/

/-- What is left of a polynomial after its value at a point is taken away and the point divided out. -/
noncomputable def quotientAt (f : Felt[X]) (a : Felt) : Felt[X] := (f - C (f.eval a)) /ₘ (X - C a)

theorem mul_quotientAt (f : Felt[X]) (a : Felt) :
    (X - C a) * quotientAt f a = f - C (f.eval a) := by
  apply mul_divByMonic_eq_iff_isRoot.mpr
  rw [IsRoot, eval_sub, eval_C, sub_self]

theorem eval_quotientAt (f : Felt[X]) {a x : Felt} (h : x ≠ a) :
    (quotientAt f a).eval x = (f.eval x - f.eval a) * (x - a)⁻¹ := by
  have heval := congrArg (eval x) (mul_quotientAt f a)
  rw [eval_mul, eval_sub, eval_X, eval_C, eval_sub, eval_C] at heval
  have hne : x - a ≠ 0 := sub_ne_zero.mpr h
  rw [← heval, mul_comm (x - a), mul_assoc, mul_inv_cancel₀ hne, mul_one]

/-- A quotient is smaller by the degree of the divisor. -/
theorem degree_lt_of_mul_eq {n : Nat} {divisor quotient f : Felt[X]} (hmonic : divisor.Monic)
    (h : divisor * quotient = f) (hf : f.degree < (n + divisor.natDegree : Nat)) :
    quotient.degree < n := by
  by_cases hzero : quotient = 0
  · rw [hzero]
    exact degree_zero_lt n
  · have hne : f ≠ 0 := h ▸ mul_ne_zero hmonic.ne_zero hzero
    have hdegree := natDegree_mul hmonic.ne_zero hzero
    rw [h] at hdegree
    have hlt := (natDegree_lt_iff_degree_lt hne).mpr hf
    exact (natDegree_lt_iff_degree_lt hzero).mp (by omega)

theorem degree_quotientAt_lt {n : Nat} {f : Felt[X]} (h : f.degree < (n + 1 : Nat)) (a : Felt) :
    (quotientAt f a).degree < n := by
  apply degree_lt_of_mul_eq (monic_X_sub_C a) (mul_quotientAt f a)
  rw [natDegree_X_sub_C]
  exact degree_sub_lt_of_lt h (degree_const_lt _ n)

end StarkVerifier.Felt
