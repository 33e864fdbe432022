import StarkVerifier.Proofs.Field.Interpolation

/-!
# Poles

A sum of simple fractions that agrees with a polynomial of low degree at many points is no fraction at
all: over the common denominator there are more zeros than the degree allows. Main statement:
`eq_zero_of_eval_eq_sum_fractions`.
-/

namespace StarkVerifier.Felt

open Polynomial
open Lagrange (nodal)

variable {poles points : Finset Felt} {r : Felt → Felt} {n : Nat}

/-- A sum of fractions with residues `r`, times the common denominator. -/
noncomputable def numerator (poles : Finset Felt) (r : Felt → Felt) : Felt[X] :=
  ∑ p ∈ poles, C (r p) * nodal (poles.erase p) id

theorem degree_numerator_lt (poles : Finset Felt) (r : Felt → Felt) :
    (numerator poles r).degree < poles.card := by
  refine mem_degreeLT.mp (Submodule.sum_mem _ fun p hp => mem_degreeLT.mpr ?_)
  apply degree_C_mul_lt
  rw [Lagrange.degree_nodal]
  exact_mod_cast Finset.card_erase_lt_of_mem hp

theorem eval_numerator {x : Felt} (hx : x ∉ poles) :
    (numerator poles r).eval x = (nodal poles id).eval x * ∑ p ∈ poles, r p * (x - p)⁻¹ := by
  rw [numerator, eval_finsetSum, Finset.mul_sum]
  refine Finset.sum_congr rfl fun p hp => ?_
  have hne : x - p ≠ 0 := sub_ne_zero.mpr fun heq => hx (heq ▸ hp)
  rw [Lagrange.nodal_eq_mul_nodal_erase hp, eval_mul, eval_mul, eval_C, eval_sub, eval_X, eval_C, id]
  field_simp

/-- At a pole only its own fraction counts. -/
theorem eval_numerator_pole {p : Felt} (hp : p ∈ poles) :
    (numerator poles r).eval p = r p * (nodal (poles.erase p) id).eval p := by
  rw [numerator, eval_finsetSum, Finset.sum_eq_single_of_mem p hp, eval_mul, eval_C]
  intro q _ hne
  have hmem : p ∈ poles.erase q := Finset.mem_erase.mpr ⟨hne.symm, hp⟩
  have hzero : (nodal (poles.erase q) id).eval p = 0 := Lagrange.eval_nodal_at_node (v := id) hmem
  rw [eval_mul, hzero, mul_zero]

theorem eq_zero_of_eval_eq_sum_fractions {f : Felt[X]} (hf : f.degree < n)
    (hroom : poles.card + n ≤ points.card) (hfree : ∀ x ∈ points, x ∉ poles)
    (h : ∀ x ∈ points, f.eval x = ∑ p ∈ poles, r p * (x - p)⁻¹) {p : Felt} (hp : p ∈ poles) : r p = 0 := by
  have hzero : nodal poles id * f - numerator poles r = 0 := by
    refine eq_zero_of_degree_lt_of_eval_finset_eq_zero points ?_ fun x hx => ?_
    · have hnodal : (nodal poles id : Felt[X]).degree < (poles.card + 1 : Nat) := by
        rw [Lagrange.degree_nodal]
        exact_mod_cast Nat.lt_succ_self _
      have hnumerator : (numerator poles r).degree < (poles.card + n : Nat) :=
        lt_of_lt_of_le (degree_numerator_lt poles r) (by exact_mod_cast Nat.le_add_right _ n)
      refine lt_of_lt_of_le (degree_sub_lt_of_lt (degree_mul_lt hnodal hf) hnumerator) ?_
      exact_mod_cast hroom
    · rw [eval_sub, eval_mul, eval_numerator (hfree x hx), h x hx, sub_self]
  have heval := congrArg (eval p) hzero
  have hnode : (nodal poles id).eval p = 0 := Lagrange.eval_nodal_at_node (v := id) hp
  have hothers : (nodal (poles.erase p) id).eval p ≠ 0 :=
    Lagrange.eval_nodal_not_at_node fun q hq heq => (Finset.mem_erase.mp hq).1 heq.symm
  rw [eval_sub, eval_mul, hnode, zero_mul, zero_sub, eval_zero, neg_eq_zero, eval_numerator_pole hp]
    at heval
  exact (mul_eq_zero.mp heval).resolve_right hothers

end StarkVerifier.Felt
