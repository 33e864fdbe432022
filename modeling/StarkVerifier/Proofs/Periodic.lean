import StarkVerifier.ConstraintSystem
import StarkVerifier.Proofs.Field.Domain
import StarkVerifier.Proofs.Field.Interpolation
import StarkVerifier.Proofs.Result

/-!
# Periodic columns

The coefficients of a column are those of the polynomial that takes its values on the domain of one
period, so the column repeats its values down a trace of any length, and its values on one period lead back to
its coefficients. Main statement: `PeriodicColumn.columns_repeat`.
-/

namespace StarkVerifier.PeriodicColumn

open Felt

variable {d : EvalDomain} {coefficients : List Felt} {w : Felt}

/-! ## One period -/

/-- The element whose powers are the rows of one period, one where there is only one row. -/
def periodRoot (period : Nat) : Except FieldError Felt :=
  if period = 1 then .ok 1 else return (← EvalDomain.ofSize period).generator

/-- The values that coefficients take on one period. -/
def rowValues (coefficients : List Felt) (w : Felt) : List Felt :=
  (List.range coefficients.length).map fun r => evalPoly coefficients (w ^ r)

@[simp] theorem length_rowValues : (rowValues coefficients w).length = coefficients.length := by
  rw [rowValues, List.length_map, List.length_range]

theorem transform_map_range (hd : d.Valid) (v : Nat → Felt) (k : Nat) :
    transform d ((List.range d.size).map v) k =
      ∑ r ∈ Finset.range d.size, v r * (d.generator ^ (r * k))⁻¹ := by
  have hlength : ((List.range d.size).map v).length = d.size := by
    rw [List.length_map, List.length_range]
  have hrows : ((List.range d.size).map v).zipIdx = (List.range d.size).map fun r => (v r, r) := by
    rw [List.zipIdx_eq_zip_range', hlength, ← List.range_eq_range']
    have h := List.zip_map' (f := v) (g := id) (l := List.range d.size)
    rwa [List.map_id] at h
  have hterm (r : Nat) :
      v r * d.inverseElement (r * k % d.size) = v r * (d.generator ^ (r * k))⁻¹ := by
    rw [hd.inverseElement_eq, ← pow_eq_pow_mod _ hd.isPrimitiveRoot.pow_eq_one]
  rw [transform, sum_eq, hlength, hrows, List.map_map]
  exact congrArg List.sum (List.map_congr_left fun r _ => hterm r)

/-- The transform of the values is the list of coefficients, as many times as there are rows. -/
theorem transform_rowValues (hd : d.Valid) (hlength : coefficients.length = d.size) {k : Nat}
    (hk : k < d.size) :
    transform d (rowValues coefficients d.generator) k = coefficients[k]?.getD 0 * d.size := by
  have hcoefficients := map_getD_range coefficients
  rw [hlength] at hcoefficients
  have hsum := sum_evalPoly_mul_inv_pow hd.isPrimitiveRoot (fun m => coefficients[m]?.getD 0) hk
  rw [hcoefficients] at hsum
  rw [rowValues, hlength, transform_map_range hd, hsum]

theorem ofValues_of_length_one {values : List Felt} (h : values.length = 1) :
    ofValues values = .ok ⟨values⟩ := by
  have htwo : (!isTwoPower 1) = false := by decide
  rw [ofValues, h, htwo]
  rfl

theorem ofValues_of_ofSize {values : List Felt} {period : Nat} {scale : Felt}
    (hlength : values.length = period) (hne : period ≠ 1) (htwo : isTwoPower period = true)
    (hd : EvalDomain.ofSize period = .ok d) (hscale : (ofNat period).inverse = .ok scale) :
    ofValues values = .ok ⟨(List.range period).map fun k => transform d values k * scale⟩ := by
  rw [ofValues, hlength, htwo, hd, hscale]
  simp only [Bool.not_true, Bool.false_eq_true, if_false, if_neg hne, ok_bind]
  rfl

/-- The coefficients are found again from the values that they take. -/
theorem ofValues_rowValues (htwo : isTwoPower coefficients.length = true)
    (hlt : coefficients.length < 2 ^ 64) (hw : periodRoot coefficients.length = .ok w) :
    ofValues (rowValues coefficients w) = .ok ⟨coefficients⟩ := by
  by_cases hone : coefficients.length = 1
  · have hsame : rowValues coefficients w = coefficients := by
      obtain ⟨a, rfl⟩ := List.length_eq_one_iff.mp hone
      simp [rowValues, evalPoly]
    rw [hsame, ofValues_of_length_one hone]
  · obtain ⟨d, hd, hvalid, hsize⟩ := EvalDomain.exists_ofSize htwo hlt hone
    have hroot : w = d.generator := by
      rw [periodRoot, if_neg hone, hd] at hw
      exact (Except.ok.inj hw).symm
    have hcast : (coefficients.length : Felt) ≠ 0 := by
      have hpos : coefficients.length ≠ 0 := by
        rw [← hsize]
        exact Nat.ne_of_gt (Nat.two_pow_pos _)
      exact natCast_ne_zero hpos (Nat.lt_trans hlt (by decide))
    have hscale : (ofNat coefficients.length).inverse = .ok (coefficients.length : Felt)⁻¹ :=
      inverse_eq_ok hcast
    rw [ofValues_of_ofSize length_rowValues hone htwo hd hscale]
    have hentry (k : Nat) (hk : k < coefficients.length) :
        transform d (rowValues coefficients w) k * (coefficients.length : Felt)⁻¹ =
          coefficients[k]?.getD 0 := by
      rw [hroot, transform_rowValues hvalid hsize.symm (hsize ▸ hk), hsize, mul_assoc,
        mul_inv_cancel₀ hcast, mul_one]
    have hlist : ((List.range coefficients.length).map fun k =>
        transform d (rowValues coefficients w) k * (coefficients.length : Felt)⁻¹) = coefficients := by
      conv_rhs => rw [← map_getD_range coefficients]
      exact List.map_congr_left fun k hk => hentry k (List.mem_range.mp hk)
    rw [hlist]

/-- Every list of values is taken by some coefficients, those of the interpolating polynomial. -/
theorem exists_rowValues {values : List Felt} (hw : IsPrimitiveRoot w values.length) :
    ∃ coefficients, coefficients.length = values.length ∧ rowValues coefficients w = values := by
  obtain ⟨f, hf⟩ : ∃ f, f = interpolant w values.length fun r => values[r]?.getD 0 := ⟨_, rfl⟩
  have hdegree : f.degree < values.length := hf ▸ degree_interpolant_lt hw _
  refine ⟨Felt.coefficients values.length f, length_coefficients _ _, ?_⟩
  rw [rowValues, length_coefficients]
  conv_rhs => rw [← map_getD_range values]
  refine List.map_congr_left fun r hr => ?_
  rw [evalPoly_coefficients hdegree, hf, eval_interpolant hw _ (List.mem_range.mp hr)]

/-! ## Down the trace -/

section

variable {trace : EvalDomain} {period : Nat}

/-- A power takes the rows of the trace to those of the period. -/
theorem periodRoot_eq (htrace : trace.Valid) (htwo : isTwoPower period = true)
    (hle : period ≤ trace.size) :
    periodRoot period = .ok (trace.generator ^ (trace.size / period)) := by
  by_cases hone : period = 1
  · rw [periodRoot, if_pos hone, hone, Nat.div_one, htrace.isPrimitiveRoot.pow_eq_one]
  · have hsize : trace.size < 2 ^ 64 :=
      Nat.pow_lt_pow_right Nat.one_lt_two (Nat.lt_succ_of_le htrace.logSize_le)
    obtain ⟨d, hd, hvalid, rfl⟩ := EvalDomain.exists_ofSize htwo (Nat.lt_of_le_of_lt hle hsize) hone
    have hlog : d.logSize ≤ trace.logSize := (Nat.pow_le_pow_iff_right Nat.one_lt_two).mp hle
    rw [periodRoot, if_neg hone, hd, htrace.generator_pow_div hvalid hlog]
    rfl

theorem isPrimitiveRoot_periodRoot (htrace : trace.Valid) (htwo : isTwoPower period = true)
    (hle : period ≤ trace.size) : IsPrimitiveRoot (trace.generator ^ (trace.size / period)) period := by
  rw [isTwoPower_iff.mp htwo] at hle ⊢
  exact htrace.isPrimitiveRoot_layer ((Nat.pow_le_pow_iff_right Nat.one_lt_two).mp hle)

/-- Down the trace a column goes through its period again and again. -/
theorem evaluate_element (htrace : trace.Valid) (htwo : isTwoPower coefficients.length = true)
    (hle : coefficients.length ≤ trace.size) (hw : periodRoot coefficients.length = .ok w) (r : Nat) :
    ∃ v, (rowValues coefficients w)[r % coefficients.length]? = some v ∧
      evaluate ⟨coefficients⟩ (trace.element r) trace.size = .ok v := by
  have hroot : w = trace.generator ^ (trace.size / coefficients.length) := by
    rw [periodRoot_eq htrace htwo hle] at hw
    exact (Except.ok.inj hw).symm
  have hperiod : w ^ coefficients.length = 1 := by
    rw [hroot, (isPrimitiveRoot_periodRoot htrace htwo hle).pow_eq_one]
  have hpos : 0 < coefficients.length := by
    rw [isTwoPower_iff.mp htwo]
    exact Nat.two_pow_pos _
  have hrow : trace.element r ^ (trace.size / coefficients.length) = w ^ (r % coefficients.length) := by
    rw [htrace.element_eq, ← pow_mul, Nat.mul_comm, pow_mul, ← hroot, pow_eq_pow_mod r hperiod]
  have hlong : isTwoPower trace.size = true ∧ period ⟨coefficients⟩ ≤ trace.size :=
    ⟨isTwoPower_two_pow _, hle⟩
  refine ⟨evalPoly coefficients (w ^ (r % coefficients.length)), ?_, ?_⟩
  · rw [rowValues, List.getElem?_map, List.getElem?_range (Nat.mod_lt r hpos), Option.map_some]
  · rw [evaluate, if_pos hlong, ← hrow]
    rfl

end

/-- A column made from the values of one period repeats them down every trace that is long enough, and a
column made from the values that coefficients take has these coefficients. -/
theorem columns_repeat :
    (∀ (values : List Felt) (n : Nat), isTwoPower values.length = true → isTwoPower n = true →
      max values.length 2 ≤ n → n ≤ 2 ^ 63 →
        ∃ column trace, ofValues values = .ok column ∧ EvalDomain.ofSize n = .ok trace ∧
          ∀ r, ∃ v, values[r % values.length]? = some v ∧
            column.evaluate (trace.element r) n = .ok v) ∧
    ∀ coefficients : List Felt, isTwoPower coefficients.length = true →
      coefficients.length < 2 ^ 64 →
        ∃ w, periodRoot coefficients.length = .ok w ∧ orderOf w = coefficients.length ∧
          ofValues (rowValues coefficients w) = .ok ⟨coefficients⟩ := by
  constructor
  · intro values n htwo hn hle hlarge
    obtain ⟨trace, htrace, hvalid, rfl⟩ :=
      EvalDomain.exists_ofSize hn (Nat.lt_of_le_of_lt hlarge (by decide)) (by omega)
    have hshort : values.length ≤ trace.size := Nat.le_trans (Nat.le_max_left _ _) hle
    have hlt : values.length < 2 ^ 64 := by omega
    obtain ⟨coefficients, hlength, hvalues⟩ :=
      exists_rowValues (isPrimitiveRoot_periodRoot hvalid htwo hshort)
    have hw := periodRoot_eq hvalid htwo hshort
    rw [← hlength] at htwo hshort hlt hw hvalues ⊢
    refine ⟨⟨coefficients⟩, trace, ?_, htrace, fun r => ?_⟩
    · rw [← hvalues]
      exact ofValues_rowValues htwo hlt hw
    · rw [← hvalues]
      exact evaluate_element hvalid htwo hshort hw r
  · intro coefficients htwo hlt
    obtain ⟨trace, htrace⟩ := EvalDomain.exists_ofLogSize (show 1 ≤ 63 by decide) (Nat.le_refl 63)
    obtain ⟨hlog, hvalid⟩ := EvalDomain.ofLogSize_eq_ok_iff.mp htrace
    have hle : coefficients.length ≤ trace.size := by
      rw [isTwoPower_iff.mp htwo, EvalDomain.size, hlog]
      exact Nat.pow_le_pow_right Nat.two_pos
        (Nat.le_of_lt_succ (log2_lt_of_lt_two_pow (by decide) hlt))
    have hw := periodRoot_eq hvalid htwo hle
    exact ⟨_, hw, (isPrimitiveRoot_periodRoot hvalid htwo hle).eq_orderOf.symm,
      ofValues_rowValues htwo hlt hw⟩

/-- Row 30 of 32 has the third value of four, and two coefficients are found again. -/
theorem columns_repeat_four_values :
    (∃ column trace, ofValues [5, 9, 11, 0] = .ok column ∧ EvalDomain.ofSize 32 = .ok trace ∧
      column.evaluate (trace.element 30) 32 = .ok 11) ∧
    ∃ w, periodRoot 2 = .ok w ∧ orderOf w = 2 ∧ ofValues (rowValues [7, 3] w) = .ok ⟨[7, 3]⟩ := by
  constructor
  · obtain ⟨column, trace, hcolumn, htrace, hrows⟩ :=
      columns_repeat.1 [5, 9, 11, 0] 32 rfl rfl (by decide) (by decide)
    obtain ⟨v, hv, hevaluate⟩ := hrows 30
    obtain rfl : 11 = v := Option.some.inj hv
    exact ⟨column, trace, hcolumn, htrace, hevaluate⟩
  · exact columns_repeat.2 [7, 3] rfl (by decide)

end StarkVerifier.PeriodicColumn
