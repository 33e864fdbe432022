import StarkVerifier.ConstraintSystem
import StarkVerifier.Verifier.Error
/-!
The Fibonacci program. A proof claims that the sequence takes a value at an index. Two columns hold
neighbouring terms: the sequence begins with one, each row is computed from the row before, and the first
column holds the claimed value at the claimed index.
-/

namespace StarkVerifier

/-! ## Claims -/

structure FibonacciClaim where
  value : Felt
  index : UInt64
deriving DecidableEq

namespace FibonacciClaim

/-- Two numbers of 32 bytes, the value and the index. -/
def toPublicInputs (c : FibonacciClaim) : Bytes :=
  c.value.toBytes ++ List.replicate 24 0 ++ Bytes.ofWord c.index

def ofPublicInputs (bytes : Bytes) : Except VerifierError FibonacciClaim :=
  if bytes.isEmpty then .error .emptyPublicInputs
  else if bytes.length ≠ 64 then .error (.publicInputs (.length bytes.length))
  else match Felt.ofBytes (bytes.take 32) with
    | .error e => .error (.publicInputs (.value e))
    | .ok value =>
      if ((bytes.drop 32).take 24).all (· = 0) then
        .ok ⟨value, Bytes.toWord (bytes.drop 56)⟩
      else .error (.publicInputs .indexTooWide)

/-- The least power of two above the index, at least two. -/
def traceLength (c : FibonacciClaim) : Except VerifierError Nat :=
  let length := max 2 (nextTwoPower (c.index.toNat + 1))
  if length < 2 ^ 64 then .ok length
  else .error (.publicInputs (.indexTooLarge c.index.toNat))

end FibonacciClaim

/-! ## The program -/

structure FibonacciConfig where
  blowup : Nat := 16
  powBits : UInt8 := 8
  queries : Nat := 20
  friLayout : Option (List Nat) := none
deriving DecidableEq

namespace Fibonacci

/-- Folds by three bits at a time until one coefficient is left, or 256 for long traces. -/
def defaultFriLayout (traceLength : Nat) : List Nat :=
  let logLength := trailingZeros traceLength
  let folds := if logLength ≤ 8 then logLength else logLength - 8
  List.replicate (folds / 3) 3 ++ if folds % 3 = 0 then [] else [folds % 3]

def parameters (config : FibonacciConfig) (traceLength : Nat) : Parameters where
  traceColumns := 2
  traceLength := traceLength
  constraints := 4
  blowup := config.blowup
  constraintDegree := 1
  powBits := config.powBits
  queries := config.queries
  friLayout := config.friLayout.getD (defaultFriLayout traceLength)
  traceLayout := [⟨0, 0⟩, ⟨0, 1⟩, ⟨1, 0⟩, ⟨1, 1⟩]

def start (config : FibonacciConfig) (publicInputs : Bytes) :
    Except VerifierError (Parameters × Coin) := do
  let claim ← FibonacciClaim.ofPublicInputs publicInputs
  return (parameters config (← claim.traceLength), .ofSeed publicInputs)

/-- Each constraint with its pair of coefficients, the second of which raises its degree. -/
def weighted (coefficients : List Felt) (constraints : List (Felt × Felt)) : Felt :=
  match coefficients, constraints with
  | c0 :: c1 :: coefficients, (quotient, adjustment) :: constraints =>
    (c0 + c1 * adjustment) * quotient + weighted coefficients constraints
  | _, _ => 0

/-- The four constraints at the out-of-domain point, each divided by the polynomial that vanishes where
it has to hold. -/
def combine (publicInputs : Bytes) (p : Parameters) (oods : Oods) (coefficients : List Felt) :
    Except VerifierError Felt := do
  let claim ← FibonacciClaim.ofPublicInputs publicInputs
  match oods.traceValues with
  | [here0, next0, here1, next1] =>
    expectLength "constraint coefficients" 8 coefficients.length
    let n := p.traceLength
    let omega ← p.traceGenerator.mapError .arithmetic
    let z := oods.point
    let everyRow ← (z ^ n - 1).inverse.mapError .arithmetic
    let firstRow ← (z - 1).inverse.mapError .arithmetic
    let claimedRow ← (z - omega ^ claim.index.toNat).inverse.mapError .arithmetic
    let transition := (z - omega ^ (n - 1)) * everyRow
    return weighted coefficients [
      ((next0 - here1) * transition, z ^ (n - 1)),
      ((next1 - here0 - here1) * transition, z ^ (n - 1)),
      ((here0 - 1) * firstRow, z),
      ((here0 - claim.value) * claimedRow, z)]
  | values => throw (.shapeMismatch "trace OODS values" 4 values.length)

def program (config : FibonacciConfig) : ConstraintSystem where
  start := start config
  combine := combine

end Fibonacci
end StarkVerifier
