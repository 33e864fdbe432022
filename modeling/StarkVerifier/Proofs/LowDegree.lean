import StarkVerifier.Proofs.Composition
import StarkVerifier.Proofs.Field.Poles

/-!
# When the composition has low degree

Each claim adds to the composition a polynomial of low degree and, if it is wrong, a fraction with a pole
at its point. Over the whole domain no polynomial of low degree hides a pole, so the composition has low
degree exactly when at each sample point the errors of the claims cancel.

Main statement: `deepComposition_low_degree_iff`.
-/

namespace StarkVerifier

open Polynomial Felt

/-! ## Sums of terms -/

namespace PointClaim

variable {claims : List PointClaim} {poles points : Finset Felt} {n : Nat}

/-- By how much the claims at a point are wrong together. -/
noncomputable def excessAt (claims : List PointClaim) (s : Felt) : Felt :=
  ((claims.filter (·.point = s)).map excess).sum

theorem excessAt_cons (k : PointClaim) (claims : List PointClaim) (s : Felt) :
    excessAt (k :: claims) s = (if k.point = s then k.excess else 0) + excessAt claims s := by
  rw [excessAt, List.filter_cons]
  by_cases h : k.point = s
  · simp only [h, decide_true, if_true, List.map_cons, List.sum_cons, excessAt]
  · simp only [h, decide_false, Bool.false_eq_true, if_false, zero_add, excessAt]

/-- The fractions of the terms, collected by their poles. -/
theorem sum_term_eq {x : Felt} (hpoles : ∀ k ∈ claims, k.point ∈ poles) (hx : x ∉ poles) :
    (claims.map (·.term x)).sum =
      (claims.map quotient).sum.eval x + ∑ s ∈ poles, excessAt claims s * (x - s)⁻¹ := by
  induction claims with
  | nil => simp [excessAt]
  | cons k claims ih =>
      rw [List.forall_mem_cons] at hpoles
      have hfree : x ≠ k.point := fun heq => hx (heq ▸ hpoles.1)
      have hown : ∑ s ∈ poles, (if k.point = s then k.excess else 0) * (x - s)⁻¹ =
          k.excess * (x - k.point)⁻¹ := by
        rw [Finset.sum_eq_single_of_mem k.point hpoles.1, if_pos rfl]
        intro s _ hne
        rw [if_neg hne.symm, zero_mul]
      simp only [List.map_cons, List.sum_cons, excessAt_cons, add_mul, Finset.sum_add_distrib, eval_add]
      rw [ih hpoles.2, hown, term_eq hfree]
      ring

/-- On enough points the terms add up to a polynomial of low degree exactly if no pole is left. -/
theorem exists_low_degree_iff (hdegree : ∀ k ∈ claims, k.polynomial.degree < (n + 1 : Nat))
    (hpoles : ∀ k ∈ claims, k.point ∈ poles) (hfree : ∀ x ∈ points, x ∉ poles)
    (hroom : poles.card + (n + 1) ≤ points.card) :
    (∃ G : Felt[X], G.degree < (n + 1 : Nat) ∧ ∀ x ∈ points, G.eval x = (claims.map (·.term x)).sum) ↔
      ∀ s ∈ poles, excessAt claims s = 0 := by
  have hquotients : (claims.map quotient).sum.degree < (n + 1 : Nat) :=
    lt_trans (degree_sum_quotient_lt hdegree) (by exact_mod_cast n.lt_succ_self)
  constructor
  · rintro ⟨G, hG, hagrees⟩ s hs
    refine eq_zero_of_eval_eq_sum_fractions (degree_sub_lt_of_lt hG hquotients) hroom hfree ?_ hs
    intro x hx
    rw [eval_sub, hagrees x hx, sum_term_eq hpoles (hfree x hx), add_sub_cancel_left]
  · intro hexcess
    refine ⟨(claims.map quotient).sum, hquotients, fun x hx => ?_⟩
    have hnone : ∑ s ∈ poles, excessAt claims s * (x - s)⁻¹ = 0 :=
      Finset.sum_eq_zero fun s hs => by rw [hexcess s hs, zero_mul]
    rw [sum_term_eq hpoles (hfree x hx), hnone, add_zero]

end PointClaim

/-! ## The composition on the whole domain -/

/-- The points at which columns are claimed to have values. -/
def Parameters.samplePoints (p : Parameters) (w z : Felt) : Finset Felt :=
  insert (z ^ p.constraintDegree) (p.traceLayout.map fun o => w ^ o.row * z).toFinset

theorem Oods.point_mem_samplePoints {p : Parameters} {w : Felt} {oods : Oods}
    {columns pieces : List Felt[X]} {coefficients : List Felt} {k : PointClaim}
    (hk : k ∈ oods.claims p w columns pieces coefficients) : k.point ∈ p.samplePoints w oods.point := by
  rw [Parameters.samplePoints, Finset.mem_insert, List.mem_toFinset, List.mem_map]
  rcases point_of_mem_claims hk with ⟨o, ho, hcell⟩ | hpiece
  · exact Or.inr ⟨o, ho, hcell.symm⟩
  · exact Or.inl hpiece

/-- Rows of the columns at every point of the domain. -/
noncomputable def rowsOf (p : Parameters) (d : EvalDomain) (columns : List Felt[X]) : List (List Felt) :=
  (List.range p.evalSize).map fun q => rowAt columns (d.queryPoint q)

/-- The values of a polynomial at every point of the domain. -/
noncomputable def valuesOf (p : Parameters) (d : EvalDomain) (f : Felt[X]) : List Felt :=
  (List.range p.evalSize).map fun q => f.eval (d.queryPoint q)

def queryPoints (p : Parameters) (d : EvalDomain) : Finset Felt :=
  (Finset.range p.evalSize).image d.queryPoint

theorem eq_valuesOf_iff {p : Parameters} {d : EvalDomain} {v : Felt → Felt} {f : Felt[X]} :
    (List.range p.evalSize).map (fun q => v (d.queryPoint q)) = valuesOf p d f ↔
      ∀ x ∈ queryPoints p d, f.eval x = v x := by
  rw [valuesOf, List.map_inj_left, queryPoints, Finset.forall_mem_image]
  simp only [List.mem_range, Finset.mem_range, eq_comm]

theorem card_queryPoints {p : Parameters} (hp : p.Valid) {d : EvalDomain} (hd : p.evalDomain = .ok d) :
    (queryPoints p d).card = p.evalSize := by
  obtain ⟨hlog, hvalid⟩ := Parameters.evalDomain_eq_ok_iff.mp hd
  have hsize : p.evalSize = d.size := by rw [hp.evalSize_eq_two_pow, ← hlog, EvalDomain.size]
  rw [queryPoints, Finset.card_image_of_injOn, Finset.card_range]
  intro q hq r hr heq
  rw [Finset.coe_range, Set.mem_Iio, hsize] at hq hr
  exact hvalid.queryPoint_inj hq hr heq

/-- Query points are on the coset that the sample points are off. -/
theorem queryPoints_disjoint {p : Parameters} {d : EvalDomain} (hd : p.evalDomain = .ok d)
    {samples : Finset Felt} (hoff : ∀ s ∈ samples, ∀ i : Nat, s ≠ Felt.generator * d.generator ^ i) :
    ∀ x ∈ queryPoints p d, x ∉ samples := by
  intro x hx hmem
  obtain ⟨q, -, rfl⟩ := Finset.mem_image.mp hx
  refine hoff _ hmem (bitReverse d.logSize q) ?_
  rw [EvalDomain.queryPoint, EvalDomain.bitReversedElement,
    (Parameters.evalDomain_eq_ok_iff.mp hd).2.element_eq]

section

variable {p : Parameters} {d : EvalDomain} {w : Felt} {columns pieces : List Felt[X]} {oods : Oods}
  {coefficients : List Felt}

/-- The composition at `x`, if the rows are those of the columns. -/
noncomputable def compositionAt (p : Parameters) (w : Felt) (columns pieces : List Felt[X]) (oods : Oods)
    (coefficients : List Felt) (x : Felt) : Felt :=
  ((oods.claims p w columns pieces coefficients).map (·.term x)).sum

theorem deepComposition_rowsOf (hd : p.evalDomain = .ok d) (hw : p.traceGenerator = .ok w)
    (hcolumns : columns.length = p.traceColumns) (hpieces : pieces.length = p.constraintDegree)
    (htraceValues : oods.traceValues.length = p.traceLayout.length)
    (hconstraintValues : oods.constraintValues.length = p.constraintDegree)
    (hcount : coefficients.length = p.oodsCoefficientCount)
    (hfree : ∀ x ∈ queryPoints p d, x ∉ p.samplePoints w oods.point) :
    deepComposition p (List.range p.evalSize) (rowsOf p d columns) (rowsOf p d pieces) oods coefficients =
      .ok ((List.range p.evalSize).map fun q =>
        compositionAt p w columns pieces oods coefficients (d.queryPoint q)) := by
  have hquery (q : Nat) (hq : q ∈ List.range p.evalSize) : d.queryPoint q ∈ queryPoints p d :=
    Finset.mem_image_of_mem _ (Finset.mem_range.mpr (List.mem_range.mp hq))
  refine deepComposition_eq_sum_terms hd hw hcolumns hpieces htraceValues hconstraintValues hcount ?_ ?_
  · intro q hq o ho heq
    refine hfree _ (hquery q hq) ?_
    rw [heq, Parameters.samplePoints]
    exact Finset.mem_insert_of_mem (List.mem_toFinset.mpr (List.mem_map_of_mem ho))
  · intro q hq heq
    refine hfree _ (hquery q hq) ?_
    rw [heq, Parameters.samplePoints]
    exact Finset.mem_insert_self _ _

/-- With valid parameters, columns below the length of the trace and no sample point on the domain, the
composition over the whole domain succeeds, whatever is claimed. If the sample points leave room enough,
its values are those of a polynomial below the length of the trace exactly when at every sample point the
weighted errors of the claims cancel; if all claims are right, there is one more degree to spare. -/
theorem deepComposition_low_degree_iff (hvalid : p.validate = .ok ())
    (hcolumns : columns.length = p.traceColumns) (hpieces : pieces.length = p.constraintDegree)
    (hcolumnDegrees : ∀ f ∈ columns, f.degree < p.traceLength)
    (hpieceDegrees : ∀ f ∈ pieces, f.degree < p.traceLength)
    (htraceValues : oods.traceValues.length = p.traceLayout.length)
    (hconstraintValues : oods.constraintValues.length = p.constraintDegree)
    (hcount : coefficients.length = p.oodsCoefficientCount) :
    ∃ d w, p.evalDomain = .ok d ∧ p.traceGenerator = .ok w ∧
      ((∀ s ∈ p.samplePoints w oods.point, ∀ i : Nat, s ≠ Felt.generator * d.generator ^ i) →
        ∃ values,
          deepComposition p (List.range p.evalSize) (rowsOf p d columns) (rowsOf p d pieces) oods
            coefficients = .ok values ∧
          ((p.samplePoints w oods.point).card ≤ p.evalSize - p.traceLength →
            ((∃ G : Felt[X], G.degree < p.traceLength ∧ values = valuesOf p d G) ↔
              ∀ s ∈ p.samplePoints w oods.point,
                PointClaim.excessAt (oods.claims p w columns pieces coefficients) s = 0)) ∧
          ((∀ k ∈ oods.claims p w columns pieces coefficients, k.claimed = k.polynomial.eval k.point) →
            ∃ G : Felt[X], G.degree < (p.traceLength - 1 : Nat) ∧ values = valuesOf p d G)) := by
  have hp := Parameters.validate_eq_ok_iff.mp hvalid
  obtain ⟨d, hd⟩ : ∃ d, p.evalDomain = .ok d := ⟨_, hp.evalDomain_eq⟩
  obtain ⟨w, hw⟩ : ∃ w, p.traceGenerator = .ok w := ⟨_, hp.traceGenerator_eq⟩
  refine ⟨d, w, hd, hw, fun hoff => ?_⟩
  have hfree := queryPoints_disjoint hd hoff
  -- a trace has rows, so that the bound on the degrees is a successor
  obtain ⟨n, hn⟩ : ∃ n, p.traceLength = n + 1 :=
    Nat.exists_eq_add_of_le' (Nat.le_of_succ_le hp.two_le_traceLength)
  rw [hn] at hcolumnDegrees hpieceDegrees ⊢
  have hdegrees (k : PointClaim) (hk : k ∈ oods.claims p w columns pieces coefficients) :
      k.polynomial.degree < (n + 1 : Nat) := Oods.degree_polynomial_lt hcolumnDegrees hpieceDegrees hk
  refine ⟨_, deepComposition_rowsOf hd hw hcolumns hpieces htraceValues hconstraintValues hcount hfree,
    fun hroom => ?_, fun hright => ?_⟩
  · have hpoints : (p.samplePoints w oods.point).card + (n + 1) ≤ (queryPoints p d).card := by
      have hlength : n + 1 ≤ p.evalSize := by
        rw [← hn, Parameters.evalSize]
        exact Nat.le_mul_of_pos_right _ (Nat.lt_of_lt_of_le Nat.two_pos hp.two_le_blowup)
      rw [card_queryPoints hp hd]
      exact Nat.add_le_of_le_sub hlength hroom
    simp only [eq_valuesOf_iff]
    exact PointClaim.exists_low_degree_iff hdegrees (fun k hk => Oods.point_mem_samplePoints hk) hfree
      hpoints
  · refine ⟨_, PointClaim.degree_sum_quotient_lt hdegrees, eq_valuesOf_iff.mpr fun x hx => ?_⟩
    refine (PointClaim.sum_term_of_right hright fun k hk heq => ?_).symm
    exact hfree x hx (heq ▸ Oods.point_mem_samplePoints hk)

end

/-- Two wrong claims at one point, of which the errors cancel, go unnoticed. -/
theorem deepComposition_low_degree_cancelling :
    Parameters.smallest.validate = .ok () ∧ ∃ d, Parameters.smallest.evalDomain = .ok d ∧
      ∃ G : Felt[X], G.degree < (2 : Nat) ∧
        deepComposition .smallest (List.range 4) (rowsOf .smallest d [X + C 3]) (rowsOf .smallest d [C 5])
          ⟨0, [2], [6]⟩ [1, 1] = .ok (valuesOf .smallest d G) := by
  have hvalid : Parameters.smallest.validate = .ok () := by rfl
  have hcolumns : ∀ f ∈ [(X + C 3 : Felt[X])], f.degree < (2 : Nat) := by
    simp only [List.mem_singleton, forall_eq, degree_X_add_C]
    exact_mod_cast (by decide : 1 < 2)
  have hpieces : ∀ f ∈ [(C 5 : Felt[X])], f.degree < (2 : Nat) := by
    simp only [List.mem_singleton, forall_eq]
    exact degree_const_lt 5 1
  have htraceValues : (⟨0, [2], [6]⟩ : Oods).traceValues.length =
    Parameters.smallest.traceLayout.length := rfl
  have hcount : ([1, 1] : List Felt).length = Parameters.smallest.oodsCoefficientCount := rfl
  obtain ⟨d, w, hd, -, hcomposition⟩ := deepComposition_low_degree_iff hvalid rfl rfl hcolumns hpieces
    htraceValues rfl hcount
  have hsamples : Parameters.smallest.samplePoints w 0 = {0} := by
    simp [Parameters.samplePoints, Parameters.smallest]
  have hg := (Parameters.evalDomain_eq_ok_iff.mp hd).2.generator_ne_zero
  rw [hsamples] at hcomposition
  simp only [Finset.mem_singleton, forall_eq] at hcomposition
  obtain ⟨values, hvalues, hiff, -⟩ := hcomposition fun i =>
    (mul_ne_zero Felt.generator_ne_zero (pow_ne_zero i hg)).symm
  have hexcess : PointClaim.excessAt
      (Oods.claims ⟨0, [2], [6]⟩ .smallest w [X + C 3] [C 5] [1, 1]) 0 = 0 := by
    have hsum : (3 - 2 : Felt) + (5 - 6) = 0 := by ring
    simpa [PointClaim.excessAt, PointClaim.excess, Oods.claims, Oods.cellClaims, Oods.pieceClaims,
      Parameters.smallest] using hsum
  obtain ⟨G, hdegree, rfl⟩ := (hiff (by decide)).mpr hexcess
  exact ⟨hvalid, d, hd, G, hdegree, hvalues⟩

end StarkVerifier
