import StarkVerifier.Coin
import StarkVerifier.Merkle
import StarkVerifier.Parameters
/-! What a run of the verifier can end with: a verdict, or an error when the proof has no meaning. -/

namespace StarkVerifier

/-- Why public inputs do not spell a claim. -/
inductive ClaimFault where
  | length (actual : Nat)
  | value (error : FieldError)
  | indexTooWide
  | indexTooLarge (index : Nat)
deriving DecidableEq

namespace ClaimFault

def message : ClaimFault → String
  | length actual => s!"expected 64 bytes, got {actual}"
  | value error => s!"value: {error.message}"
  | indexTooWide => "index exceeds 64 bits"
  | indexTooLarge index => s!"index {index} too large"

end ClaimFault

inductive VerifierError where
  | emptyPublicInputs
  | publicInputs (fault : ClaimFault)
  | parameters (error : ParameterError)
  | shapeMismatch (what : String) (expected actual : Nat)
  | missingFriValues (layer : Nat)
  | unusedFriValues (layer extra : Nat)
  | invalidCoset (cosetIndex cosetSize layerLength : Nat)
  | merkle (error : MerkleError)
  | coin (error : CoinError)
  | arithmetic (error : FieldError)
deriving DecidableEq

namespace VerifierError

def message : VerifierError → String
  | emptyPublicInputs => "public inputs are empty"
  | publicInputs fault => s!"malformed public inputs: {fault.message}"
  | parameters error => error.message
  | shapeMismatch what expected actual => s!"{what}: expected {expected} entries, got {actual}"
  | missingFriValues layer => s!"FRI layer {layer}: not enough values in proof"
  | unusedFriValues layer extra => s!"FRI layer {layer}: {extra} unused values in proof"
  | invalidCoset cosetIndex cosetSize layerLength =>
    s!"coset {cosetIndex} of size {cosetSize} does not fit a layer of {layerLength}"
  | merkle error => error.message
  | coin error => error.message
  | arithmetic error => s!"arithmetic fault: {error.message}"

end VerifierError

inductive Rejection where
  | constraintMismatch
  | proofOfWork
  | traceDecommitment
  | constraintDecommitment
  | friDecommitment (layer : Nat)
  | lastLayer (index : Nat)
deriving DecidableEq

namespace Rejection

def message : Rejection → String
  | constraintMismatch => "out-of-domain constraint mismatch"
  | proofOfWork => "insufficient proof of work"
  | traceDecommitment => "trace decommitment failed"
  | constraintDecommitment => "constraint decommitment failed"
  | friDecommitment layer => s!"FRI layer {layer} decommitment failed"
  | lastLayer index => s!"last FRI layer mismatch at index {index}"

end Rejection

inductive Verdict where
  | accepted
  | rejected (reason : Rejection)
deriving DecidableEq

/-- What comes of a call that asks for memory: its answer, or an abort since no memory is as large. -/
inductive Attempt (α : Type) where
  | answered (answer : α)
  | overflowed
deriving DecidableEq

/-- Refuses a list of the wrong length. -/
def expectLength (what : String) (expected actual : Nat) : Except VerifierError Unit :=
  if expected = actual then .ok () else .error (.shapeMismatch what expected actual)

end StarkVerifier
