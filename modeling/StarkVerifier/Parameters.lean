import StarkVerifier.Field.Basic
/-!
Parameters of a proof system: shape of the trace, size of the evaluation domain, folds and queries. The
fields are plain numbers; `validate` says which combinations make sense.
-/

namespace StarkVerifier

/-- A trace cell read at the out-of-domain point, `row` steps after it. -/
structure TraceOffset where
  column : Nat
  row : Nat
deriving DecidableEq

structure Parameters where
  traceColumns : Nat
  traceLength : Nat
  constraints : Nat
  blowup : Nat
  constraintDegree : Nat
  powBits : UInt8
  queries : Nat
  /-- Binary logarithms of the coset sizes, one for each layer. -/
  friLayout : List Nat
  traceLayout : List TraceOffset
deriving DecidableEq

inductive ParameterError where
  | notPowerOfTwo (what : String) (value : Nat)
  | zero (what : String)
  | tooManyQueries (queries evalSize : Nat)
  | friLayoutTooDeep (folds max : Nat)
  | zeroFriStep
  | domainTooLarge (logSize : Nat)
  | traceLayoutOutOfRange (entry : TraceOffset) (columns rows : Nat)
deriving DecidableEq

namespace TraceOffset

def describe (o : TraceOffset) : String :=
  s!"TraceOffset \x7b column: {o.column}, row: {o.row} \x7d"

end TraceOffset

namespace ParameterError

def message : ParameterError → String
  | notPowerOfTwo what value => s!"{what} = {value} must be a power of two >= 2"
  | zero what => s!"{what} must be non-zero"
  | tooManyQueries queries evalSize =>
    s!"{queries} queries exceed the evaluation domain of {evalSize}"
  | friLayoutTooDeep folds max => s!"FRI layout folds 2^{folds}, trace length allows at most 2^{max}"
  | zeroFriStep => "FRI layout contains a zero step"
  | domainTooLarge logSize => s!"evaluation domain 2^{logSize} is too large"
  | traceLayoutOutOfRange entry columns rows =>
    s!"trace layout entry {entry.describe} outside {columns} columns x {rows} rows"

end ParameterError

namespace Parameters

def maxLogEvalSize : Nat := 63

/-! ## Derived sizes -/

def evalSize (p : Parameters) : Nat := p.traceLength * p.blowup

def logEvalSize (p : Parameters) : Nat := trailingZeros p.evalSize

/-- Folds of all layers together, as far as 32 bits count. -/
def friFolds (p : Parameters) : Nat :=
  p.friLayout.foldl (fun folds step => min (folds + step) (2 ^ 32 - 1)) 0

def lastLayerSize (p : Parameters) : Nat := p.evalSize >>> p.friFolds

def lastLayerDegreeBound (p : Parameters) : Nat := p.lastLayerSize / p.blowup

def oodsCoefficientCount (p : Parameters) : Nat := p.traceLayout.length + p.constraintDegree

def evalDomain (p : Parameters) : Except FieldError EvalDomain := EvalDomain.ofLogSize p.logEvalSize

/-- Generator of the trace domain. -/
def traceGenerator (p : Parameters) : Except FieldError Felt := do
  return (← p.evalDomain).generator ^ p.blowup

/-! ## Validation -/

def checkTwoPower (what : String) (value : Nat) : Except ParameterError Unit :=
  if 2 ≤ value ∧ isTwoPower value then .ok () else .error (.notPowerOfTwo what value)

def checkNonZero (what : String) (value : Nat) : Except ParameterError Unit :=
  if value = 0 then .error (.zero what) else .ok ()

def validate (p : Parameters) : Except ParameterError Unit := do
  checkTwoPower "trace_length" p.traceLength
  checkTwoPower "blowup" p.blowup
  checkNonZero "trace_columns" p.traceColumns
  checkNonZero "constraints" p.constraints
  checkNonZero "constraint_degree" p.constraintDegree
  checkNonZero "queries" p.queries
  checkNonZero "fri_layout length" p.friLayout.length
  checkNonZero "trace_layout length" p.traceLayout.length
  let logEval := p.traceLength.log2 + p.blowup.log2
  if maxLogEvalSize < logEval then throw (.domainTooLarge logEval)
  if p.evalSize < p.queries then throw (.tooManyQueries p.queries p.evalSize)
  if 0 ∈ p.friLayout then throw .zeroFriStep
  let maxFolds := p.traceLength.log2
  if maxFolds < p.friFolds then throw (.friLayoutTooDeep p.friFolds maxFolds)
  if let some entry := p.traceLayout.find? fun o =>
      p.traceColumns ≤ o.column || p.traceLength ≤ o.row then
    throw (.traceLayoutOutOfRange entry p.traceColumns p.traceLength)

end Parameters
end StarkVerifier
