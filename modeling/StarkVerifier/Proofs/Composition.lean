import StarkVerifier.ConstraintSystem
import StarkVerifier.Proofs.Field.Domain
import StarkVerifier.Proofs.Field.Polynomial
import StarkVerifier.Proofs.Parameters

/-!
# The composition of rows of polynomials

When the rows are the values of polynomials, the composition is the sum of one term for each value that
is claimed of them at an out-of-domain point. If the claims are right every term is a quotient without
remainder, so that the composition is a polynomial of low degree. Main statements:
`deepComposition_eq_sum_terms`, `deepComposition_rowsAt`.
-/

namespace StarkVerifier

open Polynomial Felt

/-! ## Claims about polynomials -/

/-- The value that a polynomial is claimed to have at a point, with the claim's weight. -/
structure PointClaim where
  polynomial : Felt[X]
  point : Felt
  claimed : Felt
  weight : Felt

namespace PointClaim

/-- What the claim adds to the composition at `x`. -/
noncomputable def term (k : PointClaim) (x : Felt) : Felt :=
  k.weight * (k.polynomial.eval x - k.claimed) * (x - k.point)⁻¹

/-- By how much the claim is wrong, by its weight. -/
noncomputable def excess (k : PointClaim) : Felt := k.weight * (k.polynomial.eval k.point - k.claimed)

noncomputable def quotient (k : PointClaim) : Felt[X] := C k.weight * quotientAt k.polynomial k.point

/-- A term is the value of a polynomial, but for what is wrong in the claim. -/
theorem term_eq {k : PointClaim} {x : Felt} (h : x ≠ k.point) :
    k.term x = k.quotient.eval x + k.excess * (x - k.point)⁻¹ := by
  rw [term, quotient, excess, eval_mul, eval_C, eval_quotientAt _ h]
  ring

theorem excess_of_right {k : PointClaim} (h : k.claimed = k.polynomial.eval k.point) : k.excess = 0 := by
  rw [excess, h, sub_self, mul_zero]

theorem sum_term_of_right {claims : List PointClaim} {x : Felt}
    (hright : ∀ k ∈ claims, k.claimed = k.polynomial.eval k.point) (hfree : ∀ k ∈ claims, x ≠ k.point) :
    (claims.map (·.term x)).sum = (claims.map quotient).sum.eval x := by
  induction claims with
  | nil => exact eval_zero.symm
  | cons k claims ih =>
      rw [List.forall_mem_cons] at hright hfree
      rw [List.map_cons, List.map_cons, List.sum_cons, List.sum_cons, eval_add, ih hright.2 hfree.2,
        term_eq hfree.1, excess_of_right hright.1, zero_mul, add_zero]

theorem degree_quotient_lt {n : Nat} {k : PointClaim} (h : k.polynomial.degree < (n + 1 : Nat)) :
    k.quotient.degree < n :=
  degree_C_mul_lt k.weight (degree_quotientAt_lt h k.point)

theorem degree_sum_quotient_lt {n : Nat} {claims : List PointClaim}
    (h : ∀ k ∈ claims, k.polynomial.degree < (n + 1 : Nat)) : (claims.map quotient).sum.degree < n := by
  induction claims with
  | nil => exact degree_zero_lt n
  | cons k claims ih =>
      rw [List.forall_mem_cons] at h
      exact degree_add_lt_of_lt (degree_quotient_lt h.1) (ih h.2)

end PointClaim

/-! ## Rows -/

/-- The values of columns at a point. -/
noncomputable def rowAt (columns : List Felt[X]) (x : Felt) : List Felt := columns.map (·.eval x)

@[simp] theorem length_rowAt (columns : List Felt[X]) (x : Felt) :
    (rowAt columns x).length = columns.length := List.length_map _

theorem rowAt_map_C (row : List Felt) (x : Felt) : rowAt (row.map C) x = row := by
  simp [rowAt, Function.comp_def]

theorem rowAt_getD (columns : List Felt[X]) (x : Felt) (i : Nat) :
    (rowAt columns x)[i]?.getD 0 = (columns[i]?.getD 0).eval x := by
  rw [rowAt, List.getElem?_map]
  cases columns[i]? with
  | none => exact eval_zero.symm
  | some f => rfl

namespace Oods

/-- The claims of the cells of a layout, `point` being where each is claimed. -/
noncomputable def cellClaims (columns : List Felt[X]) (point : TraceOffset → Felt)
    (layout : List TraceOffset) (claimed weights : List Felt) : List PointClaim :=
  (layout.zip (claimed.zip weights)).map fun (o, value, weight) =>
    ⟨columns[o.column]?.getD 0, point o, value, weight⟩

/-- The claims of the composition columns, all at one point. -/
noncomputable def pieceClaims (point : Felt) (pieces : List Felt[X]) (claimed weights : List Felt) :
    List PointClaim :=
  (pieces.zip (claimed.zip weights)).map fun (f, value, weight) => ⟨f, point, value, weight⟩

/-- Everything that is claimed at the out-of-domain point, with the coefficients of a composition. -/
noncomputable def claims (oods : Oods) (p : Parameters) (w : Felt) (columns pieces : List Felt[X])
    (coefficients : List Felt) : List PointClaim :=
  cellClaims columns (fun o => w ^ o.row * oods.point) p.traceLayout oods.traceValues coefficients ++
    pieceClaims (oods.point ^ p.constraintDegree) pieces oods.constraintValues
      (coefficients.drop p.traceLayout.length)

theorem traceTerms_rowAt (columns : List Felt[X]) {point : TraceOffset → Felt} {x : Felt}
    {layout : List TraceOffset} (hfree : ∀ o ∈ layout, x ≠ point o) (claimed weights : List Felt) :
    traceTerms x (rowAt columns x) (layout.zip ((layout.map point).zip (claimed.zip weights))) =
      .ok (((cellClaims columns point layout claimed weights).map (·.term x)).sum) := by
  induction layout generalizing claimed weights with
  | nil => rfl
  | cons o layout ih =>
      rw [List.forall_mem_cons] at hfree
      cases claimed with
      | nil => rfl
      | cons value claimed =>
          cases weights with
          | nil => rfl
          | cons weight weights =>
              have hne : x - point o ≠ 0 := sub_ne_zero.mpr hfree.1
              rw [List.map_cons, List.zip_cons_cons, List.zip_cons_cons, List.zip_cons_cons,
                traceTerms, inverse_eq_ok hne, ih hfree.2, rowAt_getD]
              rfl

/-- The claims' polynomials are among the columns. -/
theorem degree_polynomial_lt {n : Nat} {oods : Oods} {p : Parameters} {w : Felt} {columns pieces : List Felt[X]}
    (hcolumns : ∀ f ∈ columns, f.degree < n) (hpieces : ∀ f ∈ pieces, f.degree < n)
    {coefficients : List Felt} {k : PointClaim} (hk : k ∈ oods.claims p w columns pieces coefficients) :
    k.polynomial.degree < n := by
  rcases List.mem_append.mp hk with hk | hk
  · obtain ⟨⟨o, value, weight⟩, -, rfl⟩ := List.mem_map.mp hk
    show (columns[o.column]?.getD 0).degree < n
    cases hcolumn : columns[o.column]? with
    | none => exact degree_zero_lt n
    | some f => exact hcolumns f (List.mem_of_getElem? hcolumn)
  · obtain ⟨⟨f, value, weight⟩, hmem, rfl⟩ := List.mem_map.mp hk
    exact hpieces f (List.of_mem_zip hmem).1

theorem point_of_mem_claims {oods : Oods} {p : Parameters} {w : Felt} {columns pieces : List Felt[X]}
    {coefficients : List Felt} {k : PointClaim} (hk : k ∈ oods.claims p w columns pieces coefficients) :
    (∃ o ∈ p.traceLayout, k.point = w ^ o.row * oods.point) ∨ k.point = oods.point ^ p.constraintDegree := by
  rcases List.mem_append.mp hk with hk | hk
  · obtain ⟨⟨o, value, weight⟩, hmem, rfl⟩ := List.mem_map.mp hk
    exact Or.inl ⟨o, (List.of_mem_zip hmem).1, rfl⟩
  · obtain ⟨⟨f, value, weight⟩, hmem, rfl⟩ := List.mem_map.mp hk
    exact Or.inr rfl

theorem sum_pieces (x point : Felt) (pieces : List Felt[X]) (claimed weights : List Felt) :
    Felt.sum (((rowAt pieces x).zip (claimed.zip weights)).map
        fun (value, claimed, coefficient) => coefficient * (value - claimed) * (x - point)⁻¹) =
      ((pieceClaims point pieces claimed weights).map (·.term x)).sum := by
  rw [Felt.sum_eq, rowAt, List.zip_map_left, List.map_map, pieceClaims, List.map_map]
  rfl

end Oods

/-! ## The composition -/

/-- The point that query `q` stands for. -/
def EvalDomain.queryPoint (d : EvalDomain) (q : Nat) : Felt :=
  Felt.generator * d.bitReversedElement q

theorem EvalDomain.Valid.queryPoint_eq {d : EvalDomain} (h : d.Valid) (q : Nat) :
    d.queryPoint q = Felt.generator * d.point d.logSize q := by
  rw [queryPoint, h.bitReversedElement_eq]

theorem EvalDomain.Valid.queryPoint_inj {d : EvalDomain} (h : d.Valid) {q r : Nat} (hq : q < d.size)
    (hr : r < d.size) (heq : d.queryPoint q = d.queryPoint r) : q = r := by
  rw [h.queryPoint_eq, h.queryPoint_eq] at heq
  exact h.point_inj le_rfl hq hr (mul_left_cancel₀ Felt.generator_ne_zero heq)

/-- The query points are a coset of the domain. -/
theorem EvalDomain.Valid.exists_queryPoint_eq_iff {d : EvalDomain} (h : d.Valid) {x : Felt} :
    (∃ q < d.size, d.queryPoint q = x) ↔ x ^ d.size = Felt.generator ^ d.size := by
  constructor
  · rintro ⟨q, -, rfl⟩
    have hone : d.point d.logSize q ^ d.size = 1 := h.point_pow le_rfl q
    rw [h.queryPoint_eq, mul_pow, hone, mul_one]
  · intro hx
    have hone : (x * Felt.generator⁻¹) ^ d.size = 1 := by
      rw [mul_pow, hx, inv_pow, mul_inv_cancel₀ (pow_ne_zero _ Felt.generator_ne_zero)]
    have : NeZero d.size := ⟨Nat.ne_of_gt (Nat.two_pow_pos _)⟩
    obtain ⟨i, hi, hpow⟩ := h.isPrimitiveRoot.eq_pow_of_pow_eq_one hone
    refine ⟨bitReverse d.logSize i, bitReverse_lt _ _, ?_⟩
    rw [queryPoint, bitReversedElement, h.element_eq, bitReverse_bitReverse hi, hpow, mul_comm,
      inv_mul_cancel_right₀ Felt.generator_ne_zero]

/-- An element of the domain moves no other point onto a query point. -/
theorem EvalDomain.Valid.queryPoint_ne {d : EvalDomain} (h : d.Valid) {q : Nat} (hq : q < d.size)
    {r z : Felt} (hr : r ^ d.size = 1) (hz : z ^ d.size ≠ Felt.generator ^ d.size) :
    d.queryPoint q ≠ r * z := by
  intro heq
  have hpow := h.exists_queryPoint_eq_iff.mp ⟨q, hq, heq⟩
  rw [mul_pow, hr, one_mul] at hpow
  exact hz hpow

namespace Oods

theorem composeAt_rowAt {p : Parameters} {d : EvalDomain} {w : Felt} {oods : Oods}
    {columns pieces : List Felt[X]} {q : Nat} (hcolumns : columns.length = p.traceColumns)
    (hpieces : pieces.length = p.constraintDegree)
    (hcells : ∀ o ∈ p.traceLayout, d.queryPoint q ≠ w ^ o.row * oods.point)
    (hpoint : d.queryPoint q ≠ oods.point ^ p.constraintDegree) (coefficients : List Felt) :
    composeAt p d (p.traceLayout.map fun o => w ^ o.row * oods.point) oods coefficients q
        (rowAt columns (d.queryPoint q)) (rowAt pieces (d.queryPoint q)) =
      .ok ((oods.claims p w columns pieces coefficients).map (·.term (d.queryPoint q))).sum := by
  have hne : d.queryPoint q - oods.point ^ p.constraintDegree ≠ 0 := sub_ne_zero.mpr hpoint
  have htrace := traceTerms_rowAt columns hcells oods.traceValues coefficients
  have hconstraints := sum_pieces (d.queryPoint q) (oods.point ^ p.constraintDegree) pieces
    oods.constraintValues (coefficients.drop p.traceLayout.length)
  simp only [composeAt, bind_eq_ok_iff, exists_unit_iff, expectLength_eq_ok_iff, length_rowAt,
    mapError_eq_ok_iff, pure_eq_ok_iff]
  refine ⟨hcolumns, hpieces, _, htrace, _, inverse_eq_ok hne, ?_⟩
  rw [claims, List.map_append, List.sum_append, ← hconstraints]
  rfl

end Oods

/-- On rows of polynomials, and off the sample points, the composition is the sum of its claims' terms. -/
theorem deepComposition_eq_sum_terms {p : Parameters} {d : EvalDomain} {w : Felt} {oods : Oods}
    {columns pieces : List Felt[X]} {coefficients : List Felt} {queries : List Nat}
    (hd : p.evalDomain = .ok d) (hw : p.traceGenerator = .ok w)
    (hcolumns : columns.length = p.traceColumns) (hpieces : pieces.length = p.constraintDegree)
    (htraceValues : oods.traceValues.length = p.traceLayout.length)
    (hconstraintValues : oods.constraintValues.length = p.constraintDegree)
    (hcount : coefficients.length = p.oodsCoefficientCount)
    (hcells : ∀ q ∈ queries, ∀ o ∈ p.traceLayout, d.queryPoint q ≠ w ^ o.row * oods.point)
    (hpoint : ∀ q ∈ queries, d.queryPoint q ≠ oods.point ^ p.constraintDegree) :
    deepComposition p queries (queries.map fun q => rowAt columns (d.queryPoint q))
        (queries.map fun q => rowAt pieces (d.queryPoint q)) oods coefficients =
      .ok (queries.map fun q =>
        ((oods.claims p w columns pieces coefficients).map (·.term (d.queryPoint q))).sum) := by
  simp only [deepComposition, bind_eq_ok_iff, exists_unit_iff, expectLength_eq_ok_iff,
    mapError_eq_ok_iff, mapM_eq_ok_iff, List.length_map]
  refine ⟨htraceValues, hconstraintValues, hcount, trivial, trivial, d, hd, w, hw, ?_⟩
  rw [List.zip_map', zip_map_self, List.forall₂_map_left_iff, List.forall₂_map_right_iff, List.forall₂_same]
  exact fun q hq => Oods.composeAt_rowAt hcolumns hpieces (hcells q hq) (hpoint q hq) coefficients

/-- The rows of one query compose to one value, whatever they hold, if the claimed point is no query point. -/
theorem exists_deepComposition {p : Parameters} {d : EvalDomain} {oods : Oods} (hp : p.Valid)
    (hd : p.evalDomain = .ok d) (hdegree : p.constraintDegree = 1)
    (hpoint : oods.point ^ d.size ≠ Felt.generator ^ d.size) {q : Nat} (hq : q < d.size)
    {traceRow constraintRow coefficients : List Felt} (htrace : traceRow.length = p.traceColumns)
    (hconstraint : constraintRow.length = p.constraintDegree)
    (htraceValues : oods.traceValues.length = p.traceLayout.length)
    (hconstraintValues : oods.constraintValues.length = p.constraintDegree)
    (hcount : coefficients.length = p.oodsCoefficientCount) :
    ∃ v, deepComposition p [q] [traceRow] [constraintRow] oods coefficients = .ok [v] := by
  obtain ⟨hlog, hvalid⟩ := Parameters.evalDomain_eq_ok_iff.mp hd
  have hsize : p.evalSize = d.size := by rw [EvalDomain.size, hlog, hp.evalSize_eq_two_pow]
  have hgenerator := hp.traceGenerator_eq
  have hcells (row : Nat) : d.queryPoint q ≠ (p.domain.generator ^ p.blowup) ^ row * oods.point :=
    hvalid.queryPoint_ne hq (hsize ▸ hp.traceGenerator_pow hgenerator row) hpoint
  -- any rows are those of constant columns
  have hrows (row : List Felt) : [row] = [q].map fun q => rowAt (row.map C) (d.queryPoint q) := by
    rw [List.map_singleton, rowAt_map_C]
  rw [hrows traceRow, hrows constraintRow]
  refine ⟨_, deepComposition_eq_sum_terms hd hgenerator ((List.length_map _).trans htrace)
    ((List.length_map _).trans hconstraint) htraceValues hconstraintValues hcount (fun q' hq' o _ => ?_)
    fun q' hq' => ?_⟩
  · rw [List.mem_singleton.mp hq']
    exact hcells o.row
  · have hfirst := hcells 0
    rw [pow_zero, one_mul] at hfirst
    rwa [List.mem_singleton.mp hq', hdegree, pow_one]

/-! ## Honest claims -/

namespace Oods

/-- The trace's share of the composition polynomial, the sample points being `point`. -/
noncomputable def cellQuotients (columns : List Felt[X]) (point : TraceOffset → Felt) :
    List TraceOffset → List Felt → Felt[X]
  | o :: layout, c :: coefficients =>
    C c * quotientAt (columns[o.column]?.getD 0) (point o) +
      cellQuotients columns point layout coefficients
  | _, _ => 0

/-- The constraints' share of the composition polynomial. -/
noncomputable def pieceQuotients (point : Felt) : List Felt[X] → List Felt → Felt[X]
  | f :: pieces, c :: coefficients =>
    C c * quotientAt f point + pieceQuotients point pieces coefficients
  | _, _ => 0

theorem cellClaims_honest (columns : List Felt[X]) (point : TraceOffset → Felt)
    (layout : List TraceOffset) (weights : List Felt) :
    let honest := cellClaims columns point layout
      (layout.map fun o => (columns[o.column]?.getD 0).eval (point o)) weights
    (∀ k ∈ honest, k.claimed = k.polynomial.eval k.point) ∧
      (honest.map (·.quotient)).sum = cellQuotients columns point layout weights := by
  induction layout generalizing weights with
  | nil => exact ⟨fun k hk => absurd hk List.not_mem_nil, by rw [cellQuotients]; rfl; simp⟩
  | cons o layout ih =>
      cases weights with
      | nil => exact ⟨fun k hk => absurd hk List.not_mem_nil, by rw [cellQuotients]; rfl; simp⟩
      | cons weight weights =>
          obtain ⟨hright, hsum⟩ := ih weights
          exact ⟨List.forall_mem_cons.mpr ⟨rfl, hright⟩, congrArg (_ + ·) hsum⟩

theorem pieceClaims_honest (point : Felt) (pieces : List Felt[X]) (weights : List Felt) :
    let honest := pieceClaims point pieces (rowAt pieces point) weights
    (∀ k ∈ honest, k.claimed = k.polynomial.eval k.point) ∧
      (honest.map (·.quotient)).sum = pieceQuotients point pieces weights := by
  induction pieces generalizing weights with
  | nil => exact ⟨fun k hk => absurd hk List.not_mem_nil, by rw [pieceQuotients]; rfl; simp⟩
  | cons f pieces ih =>
      cases weights with
      | nil => exact ⟨fun k hk => absurd hk List.not_mem_nil, by rw [pieceQuotients]; rfl; simp⟩
      | cons weight weights =>
          obtain ⟨hright, hsum⟩ := ih weights
          exact ⟨List.forall_mem_cons.mpr ⟨rfl, hright⟩, congrArg (_ + ·) hsum⟩

end Oods

open Oods

/-- What honest columns have at the out-of-domain point. -/
noncomputable def honestOods (p : Parameters) (w : Felt) (columns pieces : List Felt[X]) (z : Felt) :
    Oods where
  point := z
  traceValues := p.traceLayout.map fun o => (columns[o.column]?.getD 0).eval (w ^ o.row * z)
  constraintValues := rowAt pieces (z ^ p.constraintDegree)

/-- The composition polynomial of honest columns. -/
noncomputable def deepPolynomial (p : Parameters) (w : Felt) (columns pieces : List Felt[X]) (z : Felt)
    (coefficients : List Felt) : Felt[X] :=
  cellQuotients columns (fun o => w ^ o.row * z) p.traceLayout coefficients +
    pieceQuotients (z ^ p.constraintDegree) pieces (coefficients.drop p.traceLayout.length)

/-- What honest columns have is right, and the quotients of their claims make the composition polynomial. -/
theorem claims_honestOods (p : Parameters) (w : Felt) (columns pieces : List Felt[X]) (z : Felt)
    (coefficients : List Felt) :
    let honest := (honestOods p w columns pieces z).claims p w columns pieces coefficients
    (∀ k ∈ honest, k.claimed = k.polynomial.eval k.point) ∧
      (honest.map (·.quotient)).sum = deepPolynomial p w columns pieces z coefficients := by
  obtain ⟨hcells, hcellSum⟩ :=
    cellClaims_honest columns (fun o => w ^ o.row * z) p.traceLayout coefficients
  obtain ⟨hpieces, hpieceSum⟩ :=
    pieceClaims_honest (z ^ p.constraintDegree) pieces (coefficients.drop p.traceLayout.length)
  constructor
  · intro k hk
    rcases List.mem_append.mp hk with hk | hk
    · exact hcells k hk
    · exact hpieces k hk
  · rw [deepPolynomial, ← hcellSum, ← hpieceSum, ← List.sum_append, ← List.map_append]
    rfl

theorem degree_deepPolynomial_lt {n : Nat} {p : Parameters} {columns pieces : List Felt[X]}
    (hcolumns : ∀ f ∈ columns, f.degree < (n + 1 : Nat))
    (hpieces : ∀ f ∈ pieces, f.degree < (n + 1 : Nat)) (w z : Felt) (coefficients : List Felt) :
    (deepPolynomial p w columns pieces z coefficients).degree < n := by
  rw [← (claims_honestOods p w columns pieces z coefficients).2]
  exact PointClaim.degree_sum_quotient_lt fun k hk => degree_polynomial_lt hcolumns hpieces hk

theorem deepComposition_rowsAt {p : Parameters} {d : EvalDomain} {w z : Felt}
    {columns pieces : List Felt[X]} {coefficients : List Felt} {queries : List Nat}
    (hd : p.evalDomain = .ok d) (hw : p.traceGenerator = .ok w)
    (hcolumns : columns.length = p.traceColumns) (hpieces : pieces.length = p.constraintDegree)
    (hcount : coefficients.length = p.oodsCoefficientCount)
    (hcells : ∀ q ∈ queries, ∀ o ∈ p.traceLayout, d.queryPoint q ≠ w ^ o.row * z)
    (hpoint : ∀ q ∈ queries, d.queryPoint q ≠ z ^ p.constraintDegree) :
    deepComposition p queries (queries.map fun q => rowAt columns (d.queryPoint q))
        (queries.map fun q => rowAt pieces (d.queryPoint q)) (honestOods p w columns pieces z)
        coefficients =
      .ok (queries.map fun q =>
        (deepPolynomial p w columns pieces z coefficients).eval (d.queryPoint q)) := by
  obtain ⟨hright, hsum⟩ := claims_honestOods p w columns pieces z coefficients
  have htraceValues : (honestOods p w columns pieces z).traceValues.length = p.traceLayout.length := by
    rw [honestOods, List.length_map]
  have hconstraintValues :
      (honestOods p w columns pieces z).constraintValues.length = p.constraintDegree := by
    rw [honestOods, length_rowAt, hpieces]
  have hterms (q : Nat) (hq : q ∈ queries) :
      (((honestOods p w columns pieces z).claims p w columns pieces coefficients).map
        (·.term (d.queryPoint q))).sum =
        (deepPolynomial p w columns pieces z coefficients).eval (d.queryPoint q) := by
    rw [← hsum]
    refine PointClaim.sum_term_of_right hright fun k hk => ?_
    rcases point_of_mem_claims hk with ⟨o, ho, hcell⟩ | hpiece
    · rw [hcell]
      exact hcells q hq o ho
    · rw [hpiece]
      exact hpoint q hq
  rw [deepComposition_eq_sum_terms hd hw hcolumns hpieces htraceValues hconstraintValues hcount hcells
    hpoint, List.map_congr_left hterms]

end StarkVerifier
