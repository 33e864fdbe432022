import StarkVerifier.Field.Basic
import StarkVerifier.Verifier.Error
/-!
Programs that proofs are about: their periodic columns, and the composition of their opened rows that the
low-degree test runs on. A periodic column is a list of values that repeats down the trace, kept as the
polynomial that takes them on the domain of one period.
-/

namespace StarkVerifier

/-! ## Periodic columns -/

structure PeriodicColumn where
  coefficients : List Felt
deriving DecidableEq

namespace PeriodicColumn

def period (c : PeriodicColumn) : Nat := c.coefficients.length

def ofCoefficients (coefficients : List Felt) : Except FieldError PeriodicColumn :=
  if isTwoPower coefficients.length then .ok ⟨coefficients⟩
  else .error (.notPowerOfTwo coefficients.length)

/-- The `k`-th coefficient of the interpolating polynomial, times the number of values. -/
def transform (d : EvalDomain) (values : List Felt) (k : Nat) : Felt :=
  Felt.sum (values.zipIdx.map fun v => v.1 * d.inverseElement (v.2 * k % values.length))

def ofValues (values : List Felt) : Except FieldError PeriodicColumn := do
  if !isTwoPower values.length then throw (.notPowerOfTwo values.length)
  if values.length = 1 then return ⟨values⟩
  let d ← EvalDomain.ofSize values.length
  let scale ← (Felt.ofNat values.length).inverse
  return ⟨(List.range values.length).map fun k => transform d values k * scale⟩

/-- The value at `x` of the column of a trace of the given length. -/
def evaluate (c : PeriodicColumn) (x : Felt) (traceLength : Nat) : Except FieldError Felt :=
  if isTwoPower traceLength ∧ c.period ≤ traceLength then
    .ok (Felt.evalPoly c.coefficients (x ^ (traceLength / c.period)))
  else .error (.notPowerOfTwo traceLength)

end PeriodicColumn

/-! ## Composition -/

/-- Claimed values at the out-of-domain point. -/
structure Oods where
  point : Felt
  traceValues : List Felt
  constraintValues : List Felt
deriving DecidableEq

namespace Oods

/-- The terms of the trace columns in the composition at `x`: one for each cell of the layout. -/
def traceTerms (x : Felt) (row : List Felt) :
    List (TraceOffset × Felt × Felt × Felt) → Except VerifierError Felt
  | [] => .ok 0
  | (offset, point, claimed, coefficient) :: rest => do
    let inverse ← (x - point).inverse.mapError .arithmetic
    return coefficient * (row[offset.column]?.getD 0 - claimed) * inverse +
      (← traceTerms x row rest)

/-- The value of the composition at query `q`. -/
def composeAt (p : Parameters) (domain : EvalDomain) (points : List Felt) (oods : Oods)
    (coefficients : List Felt) (q : Nat) (traceRow constraintRow : List Felt) :
    Except VerifierError Felt := do
  expectLength "trace row" p.traceColumns traceRow.length
  expectLength "constraint row" p.constraintDegree constraintRow.length
  let x := Felt.generator * domain.bitReversedElement q
  let cells := p.traceLayout.length
  let trace ← traceTerms x traceRow
    (p.traceLayout.zip (points.zip (oods.traceValues.zip coefficients)))
  let inverse ← (x - oods.point ^ p.constraintDegree).inverse.mapError .arithmetic
  let constraints := Felt.sum <|
    (constraintRow.zip (oods.constraintValues.zip (coefficients.drop cells))).map
      fun (value, claimed, coefficient) => coefficient * (value - claimed) * inverse
  return trace + constraints

end Oods

/-- Values of the composition at the queries. If every claimed value is right it has low degree. -/
def deepComposition (p : Parameters) (queries : List Nat) (traceRows constraintRows : List (List Felt))
    (oods : Oods) (coefficients : List Felt) : Except VerifierError (List Felt) := do
  expectLength "trace OODS values" p.traceLayout.length oods.traceValues.length
  expectLength "constraint OODS values" p.constraintDegree oods.constraintValues.length
  expectLength "OODS coefficients" p.oodsCoefficientCount coefficients.length
  expectLength "trace rows" queries.length traceRows.length
  expectLength "constraint rows" queries.length constraintRows.length
  let domain ← p.evalDomain.mapError .arithmetic
  let generator ← p.traceGenerator.mapError .arithmetic
  let points := p.traceLayout.map fun o => generator ^ o.row * oods.point
  (queries.zip (traceRows.zip constraintRows)).mapM fun (q, traceRow, constraintRow) =>
    oods.composeAt p domain points coefficients q traceRow constraintRow

/-- A program, as far as the verifier sees it. -/
structure ConstraintSystem where
  /-- Parameters and the seeded coin, from the public inputs. -/
  start : Bytes → Except VerifierError (Parameters × Coin)
  /-- The combined constraints at the out-of-domain point. -/
  combine : Bytes → Parameters → Oods → List Felt → Except VerifierError Felt
  /-- Values of the first layer at the queries. -/
  evaluateAtQueries : Parameters → List Nat → List (List Felt) → List (List Felt) → Oods →
    List Felt → Except VerifierError (List Felt) := deepComposition

end StarkVerifier
