import StarkVerifier.Fibonacci
import StarkVerifier.Proofs.Fibonacci.Claim
import StarkVerifier.Proofs.Field.Interpolation
import StarkVerifier.Proofs.Verifier.Phases

/-!
# The constraints of a true claim

On columns that hold the sequence every constraint vanishes where it has to, so that the combined
constraints are a polynomial below the length of the trace. Main statements: `combine_eq_ok` and
`degree_compositionPolynomial_lt`.
-/

namespace StarkVerifier.Fibonacci

open Polynomial Felt Verifier

/-- The sequence that begins with one and the given second term. -/
def term (second : Felt) : Nat → Felt
  | 0 => 1
  | 1 => second
  | r + 2 => term second (r + 1) + term second r

/-- The columns hold the sequence on the trace domain, and the claim is true of it. -/
structure HoldsSequence (w : Felt) (n : Nat) (claim : FibonacciClaim) (second : Felt)
    (column0 column1 : Felt[X]) : Prop where
  degree0 : column0.degree < n
  degree1 : column1.degree < n
  eval0 : ∀ r < n, column0.eval (w ^ r) = term second r
  eval1 : ∀ r < n, column1.eval (w ^ r) = term second (r + 1)
  index_lt : claim.index.toNat < n
  value_eq : claim.value = term second claim.index.toNat

/-- The column that holds the sequence from the given term on. -/
noncomputable def column (w : Felt) (n : Nat) (second : Felt) (start : Nat) : Felt[X] :=
  interpolant w n fun r => term second (r + start)

theorem degree_column_lt {w : Felt} {n : Nat} (hw : IsPrimitiveRoot w n) (second : Felt) (start : Nat) :
    (column w n second start).degree < n :=
  degree_interpolant_lt hw _

theorem holdsSequence_column {w : Felt} {n : Nat} (hw : IsPrimitiveRoot w n) (second : Felt)
    {index : UInt64} (hindex : index.toNat < n) :
    HoldsSequence w n ⟨term second index.toNat, index⟩ second (column w n second 0)
      (column w n second 1) where
  degree0 := degree_column_lt hw second 0
  degree1 := degree_column_lt hw second 1
  eval0 _ hr := eval_interpolant hw _ hr
  eval1 _ hr := eval_interpolant hw _ hr
  index_lt := hindex
  value_eq := rfl

/-! ## Quotients -/

/-- The second column in a row is the first in the next, except in the last row. -/
noncomputable def shiftConstraint (w : Felt) (n : Nat) (column0 column1 : Felt[X]) : Felt[X] :=
  (scaled w column0 - column1) * (X - C (w ^ (n - 1)))

/-- The second column in the next row is the sum of a row, except in the last row. -/
noncomputable def sumConstraint (w : Felt) (n : Nat) (column0 column1 : Felt[X]) : Felt[X] :=
  (scaled w column1 - column0 - column1) * (X - C (w ^ (n - 1)))

/-- The four constraints divided by what they vanish on, each with its adjustment of degree. -/
noncomputable def quotients (w : Felt) (n index : Nat) (column0 column1 : Felt[X]) :
    List (Felt[X] × Felt[X]) :=
  [(groupQuotient n (shiftConstraint w n column0 column1), X ^ (n - 1)),
    (groupQuotient n (sumConstraint w n column0 column1), X ^ (n - 1)),
    (quotientAt column0 1, X), (quotientAt column0 (w ^ index), X)]

/-- `weighted` for polynomials. -/
noncomputable def weightedSum : List Felt → List (Felt[X] × Felt[X]) → Felt[X]
  | c0 :: c1 :: coefficients, (quotient, adjustment) :: constraints =>
    (C c0 + C c1 * adjustment) * quotient + weightedSum coefficients constraints
  | _, _ => 0

/-- What the constraints combine to. -/
noncomputable def compositionPolynomial (w : Felt) (n index : Nat) (column0 column1 : Felt[X])
    (coefficients : List Felt) : Felt[X] :=
  weightedSum coefficients (quotients w n index column0 column1)

theorem eval_weightedSum (coefficients : List Felt) (constraints : List (Felt[X] × Felt[X]))
    (x : Felt) :
    (weightedSum coefficients constraints).eval x =
      weighted coefficients (constraints.map fun c => (c.1.eval x, c.2.eval x)) := by
  induction constraints generalizing coefficients with
  | nil => simp [weightedSum, weighted]
  | cons c constraints ih =>
      rcases coefficients with _ | ⟨c0, _ | ⟨c1, coefficients⟩⟩
      · simp [weightedSum, weighted]
      · simp [weightedSum, weighted]
      · rw [weightedSum, eval_add, eval_mul, eval_add, eval_C, eval_mul, eval_C, ih, List.map_cons,
          weighted]

theorem degree_weightedSum_lt {n : Nat} {constraints : List (Felt[X] × Felt[X])}
    (h : ∀ c ∈ constraints, ∀ c0 c1 : Felt, ((C c0 + C c1 * c.2) * c.1).degree < n)
    (coefficients : List Felt) : (weightedSum coefficients constraints).degree < n := by
  fun_induction weightedSum coefficients constraints with
  | case1 c0 c1 coefficients quotient adjustment constraints ih =>
      rw [List.forall_mem_cons] at h
      exact degree_add_lt_of_lt (h.1 c0 c1) (ih h.2)
  | case2 => exact degree_zero_lt n

section

variable {w : Felt} {n : Nat} {claim : FibonacciClaim} {second : Felt} {column0 column1 : Felt[X]}

theorem eval_scaled_pow (a : Felt) (f : Felt[X]) (r : Nat) :
    (scaled a f).eval (a ^ r) = f.eval (a ^ (r + 1)) := by
  rw [eval_scaled, pow_succ']

/-- A constraint on neighbouring rows vanishes on the domain, the last row being exempt. -/
theorem eval_mul_exempt_eq_zero {f : Felt[X]} (h : ∀ r, r + 1 < n → f.eval (w ^ r) = 0) :
    ∀ r < n, (f * (X - C (w ^ (n - 1)))).eval (w ^ r) = 0 := by
  intro r hr
  rw [eval_mul, eval_sub, eval_X, eval_C]
  by_cases hlast : r + 1 < n
  · rw [h r hlast, zero_mul]
  · rw [show n - 1 = r by omega, sub_self, mul_zero]

theorem HoldsSequence.shift_eq_zero (h : HoldsSequence w n claim second column0 column1) :
    ∀ r < n, (shiftConstraint w n column0 column1).eval (w ^ r) = 0 := by
  apply eval_mul_exempt_eq_zero
  intro r hr
  rw [eval_sub, eval_scaled_pow, h.eval0 (r + 1) hr, h.eval1 r (by omega), sub_self]

theorem HoldsSequence.sum_eq_zero (h : HoldsSequence w n claim second column0 column1) :
    ∀ r < n, (sumConstraint w n column0 column1).eval (w ^ r) = 0 := by
  apply eval_mul_exempt_eq_zero
  intro r hr
  rw [eval_sub, eval_sub, eval_scaled_pow, h.eval1 (r + 1) hr, h.eval0 r (by omega),
    h.eval1 r (by omega)]
  show term second (r + 1) + term second r - term second r - term second (r + 1) = 0
  ring

/-- A transition, divided, is a constant. -/
theorem degree_groupQuotient_exempt_lt (hn : n ≠ 0) (hw : IsPrimitiveRoot w n) {f : Felt[X]}
    (hf : f.degree < n) (h : ∀ r < n, (f * (X - C (w ^ (n - 1)))).eval (w ^ r) = 0) :
    (groupQuotient n (f * (X - C (w ^ (n - 1))))).degree < (1 : Nat) := by
  apply degree_groupQuotient_lt hn hw h
  rw [mul_comm]
  refine degree_mul_lt ?_ hf
  rw [degree_X_sub_C]
  exact_mod_cast Nat.one_lt_two

theorem degree_adjustment_lt {adjustment : Felt[X]} {k : Nat} (h : adjustment.degree < (k + 1 : Nat))
    (c0 c1 : Felt) : (C c0 + C c1 * adjustment).degree < (k + 1 : Nat) :=
  degree_add_lt_of_lt (degree_const_lt c0 k) (degree_C_mul_lt c1 h)

theorem degree_compositionPolynomial_lt (hn : n ≠ 0) (hw : IsPrimitiveRoot w n)
    (h : HoldsSequence w n claim second column0 column1) (coefficients : List Felt) :
    (compositionPolynomial w n claim.index.toNat column0 column1 coefficients).degree < n := by
  have hpow : ((X : Felt[X]) ^ (n - 1)).degree < (n - 1 + 1 : Nat) := by
    rw [degree_X_pow]
    exact_mod_cast Nat.lt_succ_self (n - 1)
  have hX : (X : Felt[X]).degree < (1 + 1 : Nat) := by
    rw [degree_X]
    exact_mod_cast Nat.one_lt_two
  have hpred : n - 1 + 1 = n := by omega
  have hcolumn0 : column0.degree < (n - 1 + 1 : Nat) := hpred.symm ▸ h.degree0
  -- each quotient leaves exactly the room that its adjustment takes up
  refine degree_weightedSum_lt ?_ coefficients
  simp only [quotients, List.forall_mem_cons, List.not_mem_nil, false_implies, implies_true, and_true]
  refine ⟨fun c0 c1 => ?_, fun c0 c1 => ?_, fun c0 c1 => ?_, fun c0 c1 => ?_⟩
  · have hquotient := degree_groupQuotient_exempt_lt hn hw
      (degree_sub_lt_of_lt (degree_scaled_lt h.degree0) h.degree1) h.shift_eq_zero
    have hdegree := degree_mul_lt (degree_adjustment_lt hpow c0 c1) hquotient
    rwa [hpred] at hdegree
  · have hquotient := degree_groupQuotient_exempt_lt hn hw
      (degree_sub_lt_of_lt (degree_sub_lt_of_lt (degree_scaled_lt h.degree1) h.degree0) h.degree1) h.sum_eq_zero
    have hdegree := degree_mul_lt (degree_adjustment_lt hpow c0 c1) hquotient
    rwa [hpred] at hdegree
  · have hdegree := degree_mul_lt (degree_adjustment_lt hX c0 c1) (degree_quotientAt_lt hcolumn0 1)
    rwa [Nat.add_comm, hpred] at hdegree
  · have hdegree := degree_mul_lt (degree_adjustment_lt hX c0 c1)
      (degree_quotientAt_lt hcolumn0 (w ^ claim.index.toNat))
    rwa [Nat.add_comm, hpred] at hdegree

theorem HoldsSequence.eval_shift (h : HoldsSequence w n claim second column0 column1) (hn : n ≠ 0)
    (hw : IsPrimitiveRoot w n) {z : Felt} (hz : z ^ n ≠ 1) :
    (groupQuotient n (shiftConstraint w n column0 column1)).eval z =
      (column0.eval (w * z) - column1.eval z) * ((z - w ^ (n - 1)) * (z ^ n - 1)⁻¹) := by
  rw [eval_groupQuotient hn hw h.shift_eq_zero hz, shiftConstraint, eval_mul, eval_sub, eval_scaled,
    eval_sub, eval_X, eval_C, mul_assoc]

theorem HoldsSequence.eval_sum (h : HoldsSequence w n claim second column0 column1) (hn : n ≠ 0)
    (hw : IsPrimitiveRoot w n) {z : Felt} (hz : z ^ n ≠ 1) :
    (groupQuotient n (sumConstraint w n column0 column1)).eval z =
      (column1.eval (w * z) - column0.eval z - column1.eval z) *
        ((z - w ^ (n - 1)) * (z ^ n - 1)⁻¹) := by
  rw [eval_groupQuotient hn hw h.sum_eq_zero hz, sumConstraint, eval_mul, eval_sub, eval_sub,
    eval_scaled, eval_sub, eval_X, eval_C, mul_assoc]

end

/-! ## The combined constraints -/

/-- The four constraints at a point, each divided by what vanishes where it has to hold, with its
adjustment of degree. -/
noncomputable def dividedConstraints (w : Felt) (n : Nat) (claim : FibonacciClaim)
    (z here0 next0 here1 next1 : Felt) : List (Felt × Felt) :=
  [((next0 - here1) * ((z - w ^ (n - 1)) * (z ^ n - 1)⁻¹), z ^ (n - 1)),
    ((next1 - here0 - here1) * ((z - w ^ (n - 1)) * (z ^ n - 1)⁻¹), z ^ (n - 1)),
    ((here0 - 1) * (z - 1)⁻¹, z), ((here0 - claim.value) * (z - w ^ claim.index.toNat)⁻¹, z)]

theorem pow_pow_eq_one {w : Felt} {n : Nat} (hw : IsPrimitiveRoot w n) (r : Nat) : (w ^ r) ^ n = 1 := by
  rw [← pow_mul, Nat.mul_comm, pow_mul, hw.pow_eq_one, one_pow]

theorem ne_pow_of_offDomain {w z : Felt} {n : Nat} (hw : IsPrimitiveRoot w n) (hz : z ^ n ≠ 1)
    (r : Nat) : z ≠ w ^ r := by
  rintro rfl
  exact hz (pow_pow_eq_one hw r)

/-- Off the trace domain nothing is divided by zero. -/
theorem combine_offDomain {inputs : Bytes} {claim : FibonacciClaim} {p : Parameters} {w : Felt}
    (hclaim : FibonacciClaim.ofPublicInputs inputs = .ok claim) (hgenerator : p.traceGenerator = .ok w)
    (hw : IsPrimitiveRoot w p.traceLength) {coefficients : List Felt}
    (hcount : coefficients.length = 8) {z : Felt} (hz : z ^ p.traceLength ≠ 1)
    (here0 next0 here1 next1 : Felt) (constraintValues : List Felt) :
    combine inputs p ⟨z, [here0, next0, here1, next1], constraintValues⟩ coefficients =
      .ok (weighted coefficients
        (dividedConstraints w p.traceLength claim z here0 next0 here1 next1)) := by
  have hone : z ≠ 1 := by
    rintro rfl
    exact hz (one_pow _)
  have hindex := ne_pow_of_offDomain hw hz claim.index.toNat
  simp only [combine, bind_eq_ok_iff, exists_unit_iff, expectLength_eq_ok_iff, mapError_eq_ok_iff,
    pure_eq_ok_iff]
  exact ⟨claim, hclaim, hcount, w, hgenerator, _, inverse_eq_ok (sub_ne_zero.mpr hz), _,
    inverse_eq_ok (sub_ne_zero.mpr hone), _, inverse_eq_ok (sub_ne_zero.mpr hindex), rfl⟩

/-- The drawn coefficients do not matter where every constraint vanishes. -/
theorem weighted_of_zero {constraints : List (Felt × Felt)} (h : ∀ c ∈ constraints, c.1 = 0)
    (coefficients : List Felt) : weighted coefficients constraints = 0 := by
  fun_induction weighted coefficients constraints with
  | case1 c0 c1 coefficients quotient adjustment constraints ih =>
      obtain ⟨hquotient, hrest⟩ := List.forall_mem_cons.mp h
      rw [show quotient = 0 from hquotient, mul_zero, zero_add, ih hrest]
  | case2 => rfl

/-- The row 1, 0 and the row 0, 1 after it satisfy every constraint of a claim of 1. -/
theorem combine_vanishing {inputs : Bytes} {claim : FibonacciClaim} {p : Parameters} {w : Felt}
    (hclaim : FibonacciClaim.ofPublicInputs inputs = .ok claim) (hvalue : claim.value = 1)
    (hgenerator : p.traceGenerator = .ok w) (hw : IsPrimitiveRoot w p.traceLength)
    {coefficients : List Felt} (hcount : coefficients.length = 8) {z : Felt} (hz : z ^ p.traceLength ≠ 1)
    (constraintValues : List Felt) :
    combine inputs p ⟨z, [1, 0, 0, 1], constraintValues⟩ coefficients = .ok 0 := by
  have hzero : ∀ c ∈ dividedConstraints w p.traceLength claim z 1 0 0 1, c.1 = 0 := by
    simp only [dividedConstraints, hvalue, List.forall_mem_cons, sub_self, zero_mul, true_and]
    exact List.forall_mem_nil _
  rw [combine_offDomain hclaim hgenerator hw hcount hz, weighted_of_zero hzero]

/-- Off the trace domain the program combines the constraints of a true claim without fault, and to the
values of one polynomial. -/
theorem combine_eq_ok {inputs : Bytes} {claim : FibonacciClaim} {p : Parameters} {w second : Felt}
    {column0 column1 : Felt[X]} (hclaim : FibonacciClaim.ofPublicInputs inputs = .ok claim)
    (hn : p.traceLength ≠ 0) (hgenerator : p.traceGenerator = .ok w)
    (hw : IsPrimitiveRoot w p.traceLength)
    (h : HoldsSequence w p.traceLength claim second column0 column1) {coefficients : List Felt}
    (hcount : coefficients.length = 8) {z : Felt} (hz : z ^ p.traceLength ≠ 1)
    (constraintValues : List Felt) :
    combine inputs p ⟨z, [column0.eval z, column0.eval (w * z), column1.eval z, column1.eval (w * z)],
        constraintValues⟩ coefficients =
      .ok ((compositionPolynomial w p.traceLength claim.index.toNat column0 column1
        coefficients).eval z) := by
  have hone : z ≠ 1 := by
    rintro rfl
    exact hz (one_pow _)
  have hindex := ne_pow_of_offDomain hw hz claim.index.toNat
  have hstart : column0.eval 1 = 1 := by
    have h0 := h.eval0 0 (Nat.pos_of_ne_zero hn)
    rwa [pow_zero] at h0
  rw [combine_offDomain hclaim hgenerator hw hcount hz, compositionPolynomial, eval_weightedSum]
  simp only [quotients, dividedConstraints, List.map_cons, List.map_nil, eval_pow, eval_X,
    h.eval_shift hn hw hz, h.eval_sum hn hw hz, eval_quotientAt _ hone, eval_quotientAt _ hindex,
    hstart, h.eval0 _ h.index_lt, h.value_eq]

/-! ## Runs for a claim -/

section

variable {config : FibonacciConfig} {proof : Proof}

/-- A proof with the right numbers of values and layers passes the set-up. -/
theorem setUp_toPublicInputs {claim : FibonacciClaim} {n : Nat}
    (hinputs : proof.publicInputs = claim.toPublicInputs) (hlength : claim.traceLength = .ok n)
    (hvalid : (parameters config n).Valid) (hshapes : proof.checkShapes (parameters config n) = .ok ()) :
    setUp (program config) proof =
      .ok (parameters config n, .ofSeed claim.toPublicInputs, (parameters config n).domain) := by
  have hstart : start config claim.toPublicInputs =
      .ok (parameters config n, .ofSeed claim.toPublicInputs) := by
    simp only [start, bind_eq_ok_iff, pure_eq_ok_iff]
    exact ⟨claim, FibonacciClaim.ofPublicInputs_toPublicInputs claim, n, hlength, rfl⟩
  have hne : claim.toPublicInputs ≠ [] :=
    List.ne_nil_of_length_pos (by rw [FibonacciClaim.length_toPublicInputs]; decide)
  rw [setUp_eq_ok_iff, hinputs]
  exact ⟨hne, hstart, Parameters.validate_eq_ok_iff.mpr hvalid, hshapes, hvalid.evalDomain_eq⟩

/-- Off the trace domain the values of `combine_vanishing` pass the out-of-domain check. -/
theorem checkOods_vanishing {p : Parameters} {coin : Coin} {d : EvalDomain} {claim : FibonacciClaim}
    (hsetUp : setUp (program config) proof = .ok (p, coin, d))
    (hclaim : FibonacciClaim.ofPublicInputs proof.publicInputs = .ok claim) (hvalue : claim.value = 1)
    (htrace : proof.traceOods = [1, 0, 0, 1]) (hconstraint : proof.constraintOods = [0])
    (hz : (Transcript.oods p coin proof).point ^ p.traceLength ≠ 1) :
    checkOods (program config) proof p coin = .ok () := by
  obtain ⟨-, hstart, -⟩ := setUp_eq_ok_iff.mp hsetUp
  simp only [program, start, bind_eq_ok_iff, pure_eq_ok_iff, Prod.mk.injEq] at hstart
  obtain ⟨_, -, n, -, rfl, -⟩ := hstart
  have hgenerator := (valid_of_setUp hsetUp).1.traceGenerator_eq
  have hw := (valid_of_setUp hsetUp).1.isPrimitiveRoot_traceGenerator hgenerator
  rw [checkOods_eq_ok_iff, claimedOods, htrace, hconstraint, evalPoly, List.foldr_cons, List.foldr_nil,
    zero_mul, zero_add]
  exact combine_vanishing hclaim hvalue hgenerator hw (length_constraintCoefficients _ coin proof) hz [0]

end

end StarkVerifier.Fibonacci
