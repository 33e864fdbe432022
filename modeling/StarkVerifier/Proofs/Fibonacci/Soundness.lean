import StarkVerifier.Proofs.Fibonacci.Claim
import StarkVerifier.Proofs.Fibonacci.Composition

/-!
# The constraints hold of true claims only

When the constraints combine to polynomials of low degree whatever the coefficients are, each of them
vanishes where it has to, so that the columns hold the sequence and the claim is true of it. Main
statement: `combine_low_degree_iff`.
-/

namespace StarkVerifier.Fibonacci

open Polynomial Felt

/-! ## Fractions that are polynomials -/

/-- The query points lie outside the trace domain, and there are more of them than the degree. -/
theorem eq_of_eval_eq_offDomain {p : Parameters} (h : p.Valid) {f g : Felt[X]}
    (hf : f.degree < p.evalSize) (hg : g.degree < p.evalSize)
    (heval : ∀ x : Felt, x ^ p.traceLength ≠ 1 → f.eval x = g.eval x) : f = g := by
  obtain ⟨hlog, hd⟩ := Parameters.evalDomain_eq_ok_iff.mp h.evalDomain_eq
  have hroot : IsPrimitiveRoot p.domain.generator p.evalSize := by
    rw [h.evalSize_eq_two_pow, ← hlog]
    exact hd.isPrimitiveRoot
  have hoff (r : Nat) : (Felt.generator * p.domain.generator ^ r) ^ p.traceLength ≠ 1 := by
    intro hone
    have hsize : (Felt.generator * p.domain.generator ^ r) ^ p.evalSize = 1 := by
      rw [Parameters.evalSize, pow_mul, hone, one_pow]
    rw [mul_pow, ← pow_mul, Nat.mul_comm, pow_mul, hroot.pow_eq_one, one_pow, mul_one,
      h.evalSize_eq_two_pow] at hsize
    exact generator_pow_two_pow_ne_one (by have := hd.logSize_le; omega) hsize
  apply scaled_injective generator_ne_zero
  apply eq_of_eval_pow_eq hroot (degree_scaled_lt hf) (degree_scaled_lt hg)
  intro r _
  rw [eval_scaled, eval_scaled, heval _ (hoff r)]

/-- A fraction that is a polynomial off the trace domain has no pole there: its numerator vanishes with
its denominator. -/
theorem eval_eq_zero_of_fraction {p : Parameters} (h : p.Valid)
    {numerator denominator quotient : Felt[X]}
    (hnumerator : numerator.degree < (p.traceLength + p.traceLength : Nat))
    (hdenominator : denominator.degree < (p.traceLength + 1 : Nat))
    (hquotient : quotient.degree < p.traceLength)
    (hne : ∀ x : Felt, x ^ p.traceLength ≠ 1 → denominator.eval x ≠ 0)
    (heval : ∀ x : Felt, x ^ p.traceLength ≠ 1 →
      quotient.eval x = numerator.eval x * (denominator.eval x)⁻¹) {x : Felt}
    (hx : denominator.eval x = 0) : numerator.eval x = 0 := by
  have hroom : p.traceLength + p.traceLength ≤ p.evalSize := by
    have := Nat.mul_le_mul_left p.traceLength h.two_le_blowup
    unfold Parameters.evalSize
    omega
  have hproduct : denominator * quotient = numerator := by
    apply eq_of_eval_eq_offDomain h
    · exact (degree_mul_lt hdenominator hquotient).trans_le (by exact_mod_cast hroom)
    · exact hnumerator.trans_le (by exact_mod_cast hroom)
    · intro y hy
      rw [eval_mul, heval y hy, mul_left_comm, mul_inv_cancel₀ (hne y hy), mul_one]
  rw [← hproduct, eval_mul, hx, zero_mul]

/-! ## One constraint after the other -/

/-- The coefficients that leave only the constraint of the given number. -/
def pick (number : Nat) : List Felt := (List.replicate 8 0).set (2 * number) 1

theorem weighted_pick {constraints : List (Felt × Felt)} {number : Nat}
    (hlength : constraints.length = 4) (hnumber : number < 4) :
    weighted (pick number) constraints = (constraints[number]?.getD 0).1 := by
  obtain ⟨c0, c1, c2, c3, rfl⟩ : ∃ c0 c1 c2 c3, constraints = [c0, c1, c2, c3] := by
    match constraints, hlength with
    | [c0, c1, c2, c3], _ => exact ⟨c0, c1, c2, c3, rfl⟩
  interval_cases number <;> simp [pick, weighted]

/-- What the four constraints ask of the columns. -/
structure MeetsConstraints (w : Felt) (n : Nat) (claim : FibonacciClaim) (column0 column1 : Felt[X]) :
    Prop where
  start : column0.eval 1 = 1
  claimed : column0.eval (w ^ claim.index.toNat) = claim.value
  shift : ∀ r, r + 1 < n → column0.eval (w ^ (r + 1)) = column1.eval (w ^ r)
  sum : ∀ r, r + 1 < n → column1.eval (w ^ (r + 1)) = column1.eval (w ^ r) + column0.eval (w ^ r)

section

variable {p : Parameters} {w : Felt} {claim : FibonacciClaim} {column0 column1 : Felt[X]}

/-- A transition that divides without remainder holds in every row but the last. -/
theorem eval_eq_zero_of_transition (h : p.Valid) (hw : IsPrimitiveRoot w p.traceLength)
    {f quotient : Felt[X]} (hf : f.degree < p.traceLength) (hquotient : quotient.degree < p.traceLength)
    (heval : ∀ z : Felt, z ^ p.traceLength ≠ 1 → quotient.eval z =
      f.eval z * ((z - w ^ (p.traceLength - 1)) * (z ^ p.traceLength - 1)⁻¹)) {r : Nat}
    (hr : r + 1 < p.traceLength) : f.eval (w ^ r) = 0 := by
  have hn : p.traceLength ≠ 0 := by omega
  have hlast : (f * (X - C (w ^ (p.traceLength - 1))) : Felt[X]).degree <
      (p.traceLength + p.traceLength : Nat) := by
    rw [mul_comm]
    refine degree_mul_lt ?_ hf
    rw [degree_X_sub_C]
    exact_mod_cast (by omega : 1 < p.traceLength + 1)
  have hvanishing : (X ^ p.traceLength - C 1 : Felt[X]).degree < (p.traceLength + 1 : Nat) := by
    rw [degree_X_pow_sub_C (Nat.pos_of_ne_zero hn)]
    exact_mod_cast Nat.lt_succ_self _
  have hzero := eval_eq_zero_of_fraction h hlast hvanishing hquotient (x := w ^ r)
    (fun x hx => by
      rw [eval_sub, eval_pow, eval_X, eval_C]
      exact sub_ne_zero.mpr hx)
    (fun x hx => by
      rw [heval x hx, eval_mul, eval_sub, eval_X, eval_C, eval_sub, eval_pow, eval_X, eval_C,
        mul_assoc])
    (by rw [eval_sub, eval_pow, eval_X, eval_C, pow_pow_eq_one hw, sub_self])
  rw [eval_mul, eval_sub, eval_X, eval_C] at hzero
  refine (mul_eq_zero.mp hzero).resolve_right (sub_ne_zero.mpr fun hpow => ?_)
  have := hw.pow_inj (by omega) (by omega) hpow
  omega

/-- A boundary constraint that divides without remainder holds in its row. -/
theorem eval_eq_of_boundary (h : p.Valid) {f quotient : Felt[X]} {a value : Felt}
    (ha : a ^ p.traceLength = 1) (hf : f.degree < p.traceLength)
    (hquotient : quotient.degree < p.traceLength)
    (heval : ∀ z : Felt, z ^ p.traceLength ≠ 1 → quotient.eval z = (f.eval z - value) * (z - a)⁻¹) :
    f.eval a = value := by
  have hpos : 0 < p.traceLength := by have := h.two_le_traceLength; omega
  have hnumerator : (f - C value).degree < (p.traceLength + p.traceLength : Nat) := by
    refine (degree_sub_lt_of_lt hf ((degree_const_lt value 0).trans_le ?_)).trans_le ?_
    · exact_mod_cast hpos
    · exact_mod_cast Nat.le_add_right _ _
  have hdenominator : (X - C a : Felt[X]).degree < (p.traceLength + 1 : Nat) := by
    rw [degree_X_sub_C]
    exact_mod_cast (by omega : 1 < p.traceLength + 1)
  have hzero := eval_eq_zero_of_fraction h hnumerator hdenominator hquotient (x := a)
    (fun x hx => by
      rw [eval_sub, eval_X, eval_C]
      refine sub_ne_zero.mpr fun hxa => hx ?_
      rw [hxa, ha])
    (fun x hx => by rw [heval x hx, eval_sub, eval_C, eval_sub, eval_X, eval_C])
    (by rw [eval_sub, eval_X, eval_C, sub_self])
  rw [eval_sub, eval_C] at hzero
  exact sub_eq_zero.mp hzero

/-- Each constraint alone is a polynomial of low degree, so each of them holds. -/
theorem meetsConstraints_of_combine {inputs : Bytes} (h : p.Valid)
    (hgenerator : p.traceGenerator = .ok w)
    (hclaim : FibonacciClaim.ofPublicInputs inputs = .ok claim)
    (h0 : column0.degree < p.traceLength) (h1 : column1.degree < p.traceLength)
    {constraintValues : List Felt}
    (hcombine : ∀ coefficients : List Felt, coefficients.length = 8 →
      ∃ H : Felt[X], H.degree < p.traceLength ∧ ∀ z : Felt, z ^ p.traceLength ≠ 1 →
        combine inputs p ⟨z, [column0.eval z, column0.eval (w * z), column1.eval z,
          column1.eval (w * z)], constraintValues⟩ coefficients = .ok (H.eval z)) :
    MeetsConstraints w p.traceLength claim column0 column1 := by
  have hw := h.isPrimitiveRoot_traceGenerator hgenerator
  have hpicked : ∀ number < 4, ∃ H : Felt[X], H.degree < p.traceLength ∧
      ∀ z : Felt, z ^ p.traceLength ≠ 1 → H.eval z = ((dividedConstraints w p.traceLength claim z
        (column0.eval z) (column0.eval (w * z)) (column1.eval z)
        (column1.eval (w * z)))[number]?.getD 0).1 := by
    intro number hnumber
    obtain ⟨H, hdegree, heval⟩ := hcombine (pick number) (by simp [pick])
    refine ⟨H, hdegree, fun z hz => ?_⟩
    have hz' := heval z hz
    rw [combine_offDomain hclaim hgenerator hw (by simp [pick]) hz, Except.ok.injEq,
      weighted_pick rfl hnumber] at hz'
    exact hz'.symm
  have hshift : (scaled w column0 - column1).degree < p.traceLength :=
    degree_sub_lt_of_lt (degree_scaled_lt h0) h1
  have hsum : (scaled w column1 - column0 - column1).degree < p.traceLength :=
    degree_sub_lt_of_lt (degree_sub_lt_of_lt (degree_scaled_lt h1) h0) h1
  obtain ⟨H0, hH0, heval0⟩ := hpicked 0 (by decide)
  obtain ⟨H1, hH1, heval1⟩ := hpicked 1 (by decide)
  obtain ⟨H2, hH2, heval2⟩ := hpicked 2 (by decide)
  obtain ⟨H3, hH3, heval3⟩ := hpicked 3 (by decide)
  refine ⟨eval_eq_of_boundary h (one_pow _) h0 hH2 heval2,
    eval_eq_of_boundary h (pow_pow_eq_one hw _) h0 hH3 heval3, fun r hr => ?_, fun r hr => ?_⟩
  · have hzero := eval_eq_zero_of_transition h hw hshift hH0
      (fun z hz => by rw [heval0 z hz, eval_sub, eval_scaled]; rfl) hr
    rw [eval_sub, eval_scaled_pow] at hzero
    exact sub_eq_zero.mp hzero
  · have hzero := eval_eq_zero_of_transition h hw hsum hH1
      (fun z hz => by rw [heval1 z hz, eval_sub, eval_sub, eval_scaled]; rfl) hr
    rw [eval_sub, eval_sub, eval_scaled_pow, sub_sub] at hzero
    rw [sub_eq_zero.mp hzero, add_comm]

end

/-! ## The sequence -/

/-- Row by row the constraints leave the columns no other values than the sequence. -/
theorem MeetsConstraints.eval_eq {w : Felt} {n : Nat} {claim : FibonacciClaim}
    {column0 column1 : Felt[X]} (h : MeetsConstraints w n claim column0 column1) :
    ∀ r < n, column0.eval (w ^ r) = term (column1.eval 1) r ∧
      column1.eval (w ^ r) = term (column1.eval 1) (r + 1) := by
  intro r
  induction r with
  | zero =>
      intro _
      rw [pow_zero, h.start]
      exact ⟨rfl, rfl⟩
  | succ r ih =>
      intro hr
      obtain ⟨hhere, hnext⟩ := ih (by omega)
      exact ⟨(h.shift r hr).trans hnext, by rw [h.sum r hr, hhere, hnext, term]⟩

/-- The constraints combine to a polynomial below the length of the trace, whatever the coefficients
are, exactly when the columns hold the sequence that begins with one and the claim is true of it. -/
theorem combine_low_degree_iff {config : FibonacciConfig} {claim : FibonacciClaim} {n : Nat}
    {column0 column1 : Felt[X]} (hn : claim.traceLength = .ok n)
    (hvalid : (parameters config n).validate = .ok ()) (h0 : column0.degree < n)
    (h1 : column1.degree < n) (constraintValues : List Felt) :
    ∃ w, (parameters config n).traceGenerator = .ok w ∧
      ((∀ coefficients : List Felt, coefficients.length = 8 →
          ∃ H : Felt[X], H.degree < n ∧ ∀ z : Felt, z ^ n ≠ 1 →
            combine claim.toPublicInputs (parameters config n) ⟨z, [column0.eval z,
              column0.eval (w * z), column1.eval z, column1.eval (w * z)], constraintValues⟩
              coefficients = .ok (H.eval z)) ↔
        (∀ r < n, column0.eval (w ^ r) = term (column1.eval 1) r ∧
            column1.eval (w ^ r) = term (column1.eval 1) (r + 1)) ∧
          claim.value = term (column1.eval 1) claim.index.toNat) := by
  have h := Parameters.validate_eq_ok_iff.mp hvalid
  have hw := h.isPrimitiveRoot_traceGenerator h.traceGenerator_eq
  have hclaim := claim.ofPublicInputs_toPublicInputs
  have hindex := FibonacciClaim.index_lt_traceLength hn
  refine ⟨_, h.traceGenerator_eq, fun hcombine => ?_, fun ⟨hrows, hvalue⟩ coefficients hcount => ?_⟩
  · have hmeets := meetsConstraints_of_combine h h.traceGenerator_eq hclaim h0 h1 hcombine
    have hrows := hmeets.eval_eq
    exact ⟨hrows, hmeets.claimed.symm.trans (hrows _ hindex).1⟩
  · have hholds : HoldsSequence _ n claim (column1.eval 1) column0 column1 :=
      ⟨h0, h1, fun r hr => (hrows r hr).1, fun r hr => (hrows r hr).2, hindex, hvalue⟩
    have hn0 : n ≠ 0 := Nat.ne_of_gt (Nat.zero_lt_of_lt hindex)
    exact ⟨_, degree_compositionPolynomial_lt hn0 hw hholds coefficients, fun z hz =>
      combine_eq_ok hclaim hn0 h.traceGenerator_eq hw hholds hcount hz constraintValues⟩

/-- The columns of 1, 2, 3, 5, 8, 13, 21, 34 and the claim that the sixth term is 13. -/
theorem combine_low_degree_sixth_term :
    let claim : FibonacciClaim := ⟨13, 5⟩
    claim.traceLength = .ok 8 ∧ (parameters {} 8).validate = .ok () ∧
      ∃ column0 column1 : Felt[X], column0.degree < (8 : Nat) ∧ column1.degree < (8 : Nat) ∧
        ∃ w, (parameters {} 8).traceGenerator = .ok w ∧
          ∀ coefficients : List Felt, coefficients.length = 8 →
            ∃ H : Felt[X], H.degree < (8 : Nat) ∧ ∀ z : Felt, z ^ 8 ≠ 1 →
              combine claim.toPublicInputs (parameters {} 8) ⟨z, [column0.eval z,
                column0.eval (w * z), column1.eval z, column1.eval (w * z)], []⟩ coefficients =
                  .ok (H.eval z) := by
  intro claim
  have hn : (⟨13, 5⟩ : FibonacciClaim).traceLength = .ok 8 := by rfl
  have hvalid : (parameters {} 8).validate = .ok () := by rfl
  have h := Parameters.validate_eq_ok_iff.mp hvalid
  have hw : IsPrimitiveRoot _ 8 := h.isPrimitiveRoot_traceGenerator h.traceGenerator_eq
  have h0 := degree_column_lt hw 2 0
  have h1 := degree_column_lt hw 2 1
  have hsecond := eval_interpolant hw (fun r => term 2 (r + 1)) (r := 0) (by decide)
  rw [pow_zero] at hsecond
  refine ⟨hn, hvalid, _, _, h0, h1, ?_⟩
  obtain ⟨w, hgenerator, hiff⟩ := combine_low_degree_iff hn hvalid h0 h1 []
  refine ⟨w, hgenerator, hiff.mpr ?_⟩
  obtain rfl := Except.ok.inj (h.traceGenerator_eq.symm.trans hgenerator)
  rw [column, column, hsecond]
  exact ⟨fun r hr => ⟨eval_interpolant hw _ hr, eval_interpolant hw _ hr⟩, by decide +kernel⟩

end StarkVerifier.Fibonacci
