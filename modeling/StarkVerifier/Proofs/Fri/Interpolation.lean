import Mathlib.LinearAlgebra.Lagrange
import StarkVerifier.Proofs.Fri.Folding

/-!
# Folding a coset interpolates

The values on a coset belong to one polynomial of degree below the coset's size, and they fold to that
polynomial's value at the challenge, times the size. Any other polynomial with these values folds to the
same, by way of its parts.

Main statement: `foldCoset_interpolates`.
-/

namespace StarkVerifier.Fri

open Polynomial Felt

variable {d : EvalDomain} {values : List Felt} {step log start c : Nat}

/-! ## Parts -/

/-- The coefficients at the places that leave the remainder `m` when divided by `width`. -/
noncomputable def part (width m : Nat) (f : Felt[X]) : Felt[X] := contract width (divX^[m] f)

theorem coeff_divX_iterate (m j : Nat) (f : Felt[X]) : (divX^[m] f).coeff j = f.coeff (j + m) := by
  induction m generalizing f with
  | zero => rfl
  | succ m ih => rw [Function.iterate_succ_apply, ih, coeff_divX, Nat.add_assoc]

theorem coeff_part {width : Nat} (hwidth : width ≠ 0) (m j : Nat) (f : Felt[X]) :
    (part width m f).coeff j = f.coeff (j * width + m) := by
  rw [part, coeff_contract hwidth, coeff_divX_iterate]

/-- Folding weighs the parts by the powers of the challenge. -/
theorem foldMany_eq_sum_parts (step : Nat) (challenge : Felt) (f : Felt[X]) :
    foldMany step challenge f =
      C (2 ^ step) * ∑ m ∈ Finset.range (2 ^ step), C (challenge ^ m) * part (2 ^ step) m f := by
  ext j
  rw [mixes_foldMany step challenge f j, coeff_C_mul, finsetSum_coeff, Nat.cast_pow, Nat.cast_two]
  refine congrArg _ (Finset.sum_congr rfl fun m _ => ?_)
  rw [coeff_C_mul, coeff_part (Nat.two_pow_pos step).ne', mul_comm]

/-- Below the degree of its width a polynomial folds to a constant. -/
theorem foldMany_of_degree_lt {f : Felt[X]} (challenge : Felt) (h : f.degree < (2 ^ step : Nat)) :
    foldMany step challenge f = C (2 ^ step * f.eval challenge) := by
  ext j
  rw [mixes_foldMany step challenge f j, coeff_C, Nat.cast_pow, Nat.cast_two]
  cases j with
  | zero =>
      rw [if_pos rfl, eval_eq_sum h]
      simp only [Nat.zero_mul, Nat.zero_add]
  | succ j =>
      have hzero : ∀ m ∈ Finset.range (2 ^ step), f.coeff ((j + 1) * 2 ^ step + m) * challenge ^ m = 0 := by
        intro m _
        have hplace : 2 ^ step ≤ (j + 1) * 2 ^ step + m :=
          Nat.le_add_right_of_le (Nat.le_mul_of_pos_left _ j.succ_pos)
        rw [degree_lt_iff_coeff_zero] at h
        rw [h _ hplace, zero_mul]
      rw [if_neg j.succ_ne_zero, Finset.sum_eq_zero hzero, mul_zero]

/-! ## Values on a coset -/

/-- The polynomial has the values at the points from place `start` of the layer on. -/
def AgreesOn (d : EvalDomain) (log start : Nat) (values : List Felt) (f : Felt[X]) : Prop :=
  ∀ j (hj : j < values.length), f.eval (d.point log (start + j)) = values[j]

theorem agreesOn_iff_segment {f : Felt[X]} :
    AgreesOn d log start values f ↔ segment d log f start values.length = values := by
  have hget (j : Nat) (hj : j < (segment d log f start values.length).length) :
      (segment d log f start values.length)[j] = f.eval (d.point log (start + j)) := by
    simp only [segment, List.getElem_map, List.getElem_range', Nat.one_mul]
  constructor
  · intro h
    refine List.ext_getElem (length_segment log f start values.length) fun j hj hj' => ?_
    rw [hget j hj, h j hj']
  · intro h j hj
    have hj' : j < (segment d log f start values.length).length := by rwa [length_segment]
    rw [← hget j hj', List.getElem_of_eq h]

/-- As many values as points determine one polynomial below that degree. -/
theorem existsUnique_agreesOn (hd : d.Valid) (hlog : log ≤ d.logSize)
    (hend : start + values.length ≤ 2 ^ log) :
    ∃! f : Felt[X], f.degree < values.length ∧ AgreesOn d log start values f := by
  have hnodes : Set.InjOn (fun j => d.point log (start + j)) (Finset.range values.length) := by
    intro i hi j hj heq
    rw [Finset.coe_range, Set.mem_Iio] at hi hj
    exact Nat.add_left_cancel (hd.point_inj hlog (by omega) (by omega) heq)
  have hcard : (Finset.range values.length).card = values.length := Finset.card_range _
  refine ⟨Lagrange.interpolate (Finset.range values.length) (fun j => d.point log (start + j))
    fun j => values[j]?.getD 0, ⟨?_, ?_⟩, ?_⟩
  · have hdegree := Lagrange.degree_interpolate_lt (fun j => values[j]?.getD 0) hnodes
    rwa [hcard] at hdegree
  · intro j hj
    rw [Lagrange.eval_interpolate_at_node _ hnodes (Finset.mem_range.mpr hj),
      List.getElem?_eq_getElem hj, Option.getD_some]
  · rintro f ⟨hdegree, hagrees⟩
    refine Lagrange.eq_interpolate_of_eval_eq _ hnodes (by rwa [hcard]) fun j hj => ?_
    have hj' := Finset.mem_range.mp hj
    rw [hagrees j hj', List.getElem?_eq_getElem hj', Option.getD_some]

/-! ## Folding -/

theorem coset_bounds (hdomain : 2 ^ log ≤ d.size) (hc : c < 2 ^ log / 2 ^ step) :
    log ≤ d.logSize ∧ step ≤ log ∧ c < 2 ^ (log - step) := by
  have hwidth := (Nat.div_pos_iff.mp (Nat.zero_lt_of_lt hc)).2
  have hstep : step ≤ log := (Nat.pow_le_pow_iff_right Nat.one_lt_two).mp hwidth
  exact ⟨(Nat.pow_le_pow_iff_right Nat.one_lt_two).mp hdomain, hstep, by rwa [← two_pow_div_two_pow hstep]⟩

theorem foldCoset_of_agreesOn (hd : d.Valid) (hvalues : values.length = 2 ^ step)
    (hdomain : 2 ^ log ≤ d.size) (hc : c < 2 ^ log / 2 ^ step) {f : Felt[X]}
    (hf : AgreesOn d log (c * 2 ^ step) values f) (challenge : Felt) :
    foldCoset values challenge c (2 ^ log) d =
      .ok ((foldMany step challenge f).eval (d.point log (c * 2 ^ step) ^ 2 ^ step)) := by
  obtain ⟨hlog, hstep, hplace⟩ := coset_bounds hdomain hc
  rw [agreesOn_iff_segment, hvalues] at hf
  rw [← hf, foldCoset_segment hd hlog hstep hplace, EvalDomain.Valid.point_mul_two_pow_pow hlog hstep]

/-- Folding accepts the values on a coset of a layer, and only these, and takes them to the value at the
challenge of the one polynomial of degree below their number that has them, times that number; by the
parts of any polynomial that has them it is the same. -/
theorem foldCoset_interpolates {k : Nat} (hd : EvalDomain.ofLogSize k = .ok d) {challenge v : Felt}
    {layerLength : Nat} :
    foldCoset values challenge c layerLength d = .ok v ↔
      ∃ step log, values.length = 2 ^ step ∧ layerLength = 2 ^ log ∧ layerLength ≤ d.size ∧
        c < 2 ^ log / 2 ^ step ∧
        (∃! Q : Felt[X], Q.degree < (2 ^ step : Nat) ∧ AgreesOn d log (c * 2 ^ step) values Q) ∧
        (∀ Q : Felt[X], Q.degree < (2 ^ step : Nat) → AgreesOn d log (c * 2 ^ step) values Q →
          v = 2 ^ step * Q.eval challenge) ∧
        ∀ f : Felt[X], AgreesOn d log (c * 2 ^ step) values f →
          v = 2 ^ step * ∑ m ∈ Finset.range (2 ^ step), challenge ^ m *
            (part (2 ^ step) m f).eval (d.point log (c * 2 ^ step) ^ 2 ^ step) := by
  obtain ⟨-, hvalid⟩ := EvalDomain.ofLogSize_eq_ok_iff.mp hd
  constructor
  · intro h
    have hfits : cosetFits d c values.length layerLength = true := by
      by_contra hfits
      rw [foldCoset, if_neg hfits] at h
      exact absurd h (by simp)
    obtain ⟨step, log, hvalues, rfl, hdomain, hc⟩ := cosetFits_iff.mp hfits
    have hend : c * 2 ^ step + values.length ≤ 2 ^ log := by
      rw [hvalues]
      exact coset_end_le hc
    have hunique := existsUnique_agreesOn hvalid (coset_bounds hdomain hc).1 hend
    have hfold {f : Felt[X]} (hf : AgreesOn d log (c * 2 ^ step) values f) :
        v = (foldMany step challenge f).eval (d.point log (c * 2 ^ step) ^ 2 ^ step) :=
      Except.ok.inj (h.symm.trans (foldCoset_of_agreesOn hvalid hvalues hdomain hc hf challenge))
    refine ⟨step, log, hvalues, rfl, hdomain, hc, by rwa [hvalues] at hunique, ?_, ?_⟩
    · intro Q hdegree hQ
      rw [hfold hQ, foldMany_of_degree_lt challenge hdegree, eval_C]
    · intro f hf
      rw [hfold hf, foldMany_eq_sum_parts, eval_mul, eval_C, eval_finsetSum]
      simp only [eval_mul, eval_C]
  · rintro ⟨step, log, hvalues, rfl, hdomain, hc, ⟨Q, ⟨hdegree, hQ⟩, -⟩, hv, -⟩
    rw [foldCoset_of_agreesOn hvalid hvalues hdomain hc hQ, foldMany_of_degree_lt challenge hdegree,
      eval_C, hv Q hdegree hQ]

/-- The second pair of a layer of four folds by the line through its two values. -/
theorem foldCoset_interpolates_pair :
    ∃ d, EvalDomain.ofLogSize 3 = .ok d ∧ ∃ v, foldCoset [1, 2] 5 1 4 d = .ok v ∧
      ∀ Q : Felt[X], Q.degree < (2 : Nat) → Q.eval (d.point 2 2) = 1 → Q.eval (d.point 2 3) = 2 →
        v = 2 * Q.eval 5 := by
  let d : EvalDomain := ⟨Felt.generator ^ ((modulus - 1) >>> 3), 3⟩
  have hd : EvalDomain.ofLogSize 3 = .ok d := rfl
  have hfits : cosetFits d 1 ([1, 2] : List Felt).length 4 = true := by rfl
  have hfold : foldCoset [1, 2] 5 1 4 d = .ok _ := if_pos hfits
  refine ⟨d, hd, _, hfold, fun Q hdegree hfirst hsecond => ?_⟩
  obtain ⟨step, log, hstep, hlog, -, -, -, hline, -⟩ := (foldCoset_interpolates hd).mp hfold
  obtain rfl : 1 = step := Nat.pow_right_injective le_rfl hstep
  obtain rfl : 2 = log := Nat.pow_right_injective le_rfl hlog
  have hagrees : AgreesOn d 2 2 [1, 2] Q := by
    intro j hj
    cases j with
    | zero => exact hfirst
    | succ j =>
        obtain rfl : j = 0 := Nat.lt_one_iff.mp (Nat.lt_of_succ_lt_succ hj)
        exact hsecond
  have hvalue := hline Q hdegree hagrees
  rwa [pow_one] at hvalue

end StarkVerifier.Fri
