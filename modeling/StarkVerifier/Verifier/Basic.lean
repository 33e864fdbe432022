import StarkVerifier.ConstraintSystem
import StarkVerifier.Fri
import StarkVerifier.Merkle
import StarkVerifier.Transcript
/-! The verifier: a chain of checks, each of which may end the run. -/

namespace StarkVerifier

/-- What ends a run before acceptance. -/
inductive Stop where
  | fault (error : VerifierError)
  | rejection (reason : Rejection)
deriving DecidableEq

namespace Stop

/-- An error of a part is an error of the run. -/
def orFault (wrap : ε → VerifierError) (result : Except ε α) : Except Stop α :=
  result.mapError fun e => .fault (wrap e)

def require (reason : Rejection) (holds : Bool) : Except Stop Unit :=
  if holds then .ok () else .error (.rejection reason)

end Stop

open Stop

namespace Proof

/-- Lengths that the parameters fix. -/
def checkShapes (proof : Proof) (p : Parameters) : Except VerifierError Unit := do
  expectLength "trace OODS values" p.traceLayout.length proof.traceOods.length
  expectLength "constraint OODS values" p.constraintDegree proof.constraintOods.length
  expectLength "FRI layers" p.friLayout.length proof.friLayers.length
  expectLength "last layer coefficients" p.lastLayerDegreeBound proof.lastLayer.length

def checkRowLengths (what : String) (expected : Nat) (rows : List (List Felt)) :
    Except VerifierError Unit :=
  rows.forM fun row => expectLength what expected row.length

/-- One row of each table for every query. -/
def checkRows (proof : Proof) (p : Parameters) (queries : Nat) : Except VerifierError Unit := do
  expectLength "trace rows" queries proof.traceRows.length
  expectLength "constraint rows" queries proof.constraintRows.length
  checkRowLengths "trace row" p.traceColumns proof.traceRows
  checkRowLengths "constraint row" p.constraintDegree proof.constraintRows

end Proof

namespace Verifier

/-- Completes the cosets of a layer, opens them against its root and folds them. -/
def checkLayer (d : EvalDomain) (number layerLength : Nat) (known : List (Nat × Felt))
    (layer : FriLayer) (step : Nat) (challenge : Felt) : Except Stop (List (Nat × Felt)) := do
  let cosets ← orFault id (Fri.gatherCosets known step layer.values number)
  let opened ← orFault .merkle (Merkle.verify layer.root (layerLength.log2 - step)
    (cosets.map (·.1)) (cosets.map (·.2)) layer.decommitment)
  require (.friDecommitment number) opened
  let fold : Fri.LayerFold := ⟨challenge, 2 ^ step, layerLength, d⟩
  orFault id (cosets.mapM fun c => do return (c.1, ← fold.apply c.1 c.2))

/-- The values known after all layers, and the length of the last. -/
def checkLayers (d : EvalDomain) :
    List (FriLayer × Nat × Felt) → Nat → Nat → List (Nat × Felt) →
      Except Stop (List (Nat × Felt) × Nat)
  | [], _, layerLength, known => .ok (known, layerLength)
  | (layer, step, challenge) :: rest, number, layerLength, known => do
    let folded ← checkLayer d number layerLength known layer step challenge
    checkLayers d rest (number + 1) (layerLength >>> step) folded

def checkLastLayer (d : EvalDomain) (coefficients : List Felt) (layerLength : Nat)
    (folded : List (Nat × Felt)) : Except Stop Unit :=
  match Fri.lastLayerMismatch folded coefficients layerLength d with
  | none => .ok ()
  | some i => .error (.rejection (.lastLayer i))

/-- Opens one row at each query. -/
def checkOpening (reason : Rejection) (root : Digest) (d : EvalDomain) (queries : List Nat)
    (rows : List (List Felt)) (decommitment : List Digest) : Except Stop Unit := do
  require reason (← orFault .merkle (Merkle.verify root d.logSize queries rows decommitment))

/-- What the layers start from: their domain, each with its step and its challenge, and what is known of
the first. -/
structure FriStart where
  domain : EvalDomain
  layers : List (FriLayer × Nat × Felt)
  known : List (Nat × Felt)

/-- All checks before the layers. -/
def prepare (cs : ConstraintSystem) (proof : Proof) : Except Stop FriStart := do
  if proof.publicInputs.isEmpty then throw (.fault .emptyPublicInputs)
  let (p, coin) ← orFault id (cs.start proof.publicInputs)
  orFault .parameters p.validate
  orFault id (proof.checkShapes p)
  let d ← orFault .arithmetic p.evalDomain
  let drawn := Transcript.oods p coin proof
  let oods : Oods := ⟨drawn.point, proof.traceOods, proof.constraintOods⟩
  let combined ← orFault id
    (cs.combine proof.publicInputs p oods drawn.constraintCoefficients)
  require .constraintMismatch (combined = Felt.evalPoly proof.constraintOods drawn.point)
  let fri := Transcript.fri p drawn.coin proof
  let (queries, _) ← orFault .coin (fri.coin.readQueries p.queries d.logSize)
  require .proofOfWork (fri.work.check proof.powNonce)
  orFault id (proof.checkRows p queries.length)
  checkOpening .traceDecommitment proof.traceRoot d queries proof.traceRows
    proof.traceDecommitment
  checkOpening .constraintDecommitment proof.constraintRoot d queries proof.constraintRows
    proof.constraintDecommitment
  let first ← orFault id (cs.evaluateAtQueries p queries proof.traceRows proof.constraintRows oods
    drawn.oodsCoefficients)
  orFault id (expectLength "first FRI layer values" queries.length first.length)
  return ⟨d, proof.friLayers.zip (p.friLayout.zip fri.foldChallenges), queries.zip first⟩

/-- Folds the layers one after the other and judges the last. -/
def FriStart.check (s : FriStart) (coefficients : List Felt) : Except Stop Unit := do
  let (folded, lastLength) ← checkLayers s.domain s.layers 0 s.domain.size s.known
  checkLastLayer s.domain coefficients lastLength folded

/-- Runs to the end only if the proof is accepted. -/
def run (cs : ConstraintSystem) (proof : Proof) : Except Stop Unit := do
  (← prepare cs proof).check proof.lastLayer

/-- Judges a proof. A rejection is a verdict; an error says that the proof is malformed. -/
def verify (cs : ConstraintSystem) (proof : Proof) : Except VerifierError Verdict :=
  match run cs proof with
  | .ok () => .ok .accepted
  | .error (.rejection reason) => .ok (.rejected reason)
  | .error (.fault error) => .error error

def accepts (cs : ConstraintSystem) (proof : Proof) : Except VerifierError Bool :=
  (verify cs proof).map (· = .accepted)

/-! ## Room for the cosets -/

/-- Whether the layers come to cosets that are too wide. -/
def layersOverflow (d : EvalDomain) :
    List (FriLayer × Nat × Felt) → Nat → Nat → List (Nat × Felt) → Bool
  | [], _, _, _ => false
  | (layer, step, challenge) :: rest, number, layerLength, known =>
    match Fri.gather known step layer.values number with
    | .overflowed => true
    | .answered _ =>
      match checkLayer d number layerLength known layer step challenge with
      | .ok folded => layersOverflow d rest (number + 1) (layerLength >>> step) folded
      | .error _ => false

def overflows (cs : ConstraintSystem) (proof : Proof) : Bool :=
  match prepare cs proof with
  | .ok s => layersOverflow s.domain s.layers 0 s.domain.size s.known
  | .error _ => false

/-- The judgement of a proof as the program comes to it. A run that comes to cosets that are too wide
aborts. -/
def execute (cs : ConstraintSystem) (proof : Proof) : Attempt (Except VerifierError Verdict) :=
  if overflows cs proof then .overflowed else .answered (verify cs proof)

end Verifier
end StarkVerifier
