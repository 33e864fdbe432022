import StarkVerifier.Proofs.Merkle.Rows
import StarkVerifier.Proofs.Verifier.Phases

/-!
# What the openings of a run hash

Three kinds of openings are checked by an accepted run: of the trace, of the constraints and of each
layer. The rows and pairs of nodes that they hash are what a collision can be found among.
-/

namespace StarkVerifier.Verifier

open Stop

/-- The messages of a layer's opening. -/
def layerMessages (number layerLength : Nat) (known : List (Nat × Felt)) (layer : FriLayer)
    (step : Nat) : List Bytes :=
  match Fri.gatherCosets known step layer.values number with
  | .error _ => []
  | .ok cosets => Merkle.openingMessages (layerLength.log2 - step) (cosets.map (·.1))
      (cosets.map (·.2)) layer.decommitment

/-- The messages of the openings of all layers. -/
def layersMessages (d : EvalDomain) :
    List (FriLayer × Nat × Felt) → Nat → Nat → List (Nat × Felt) → List Bytes
  | [], _, _, _ => []
  | (layer, step, challenge) :: rest, number, layerLength, known =>
    layerMessages number layerLength known layer step ++
      match checkLayer d number layerLength known layer step challenge with
      | .error _ => []
      | .ok folded => layersMessages d rest (number + 1) (layerLength >>> step) folded

/-- The messages of the openings of the trace and of the constraints. -/
def rowsMessages (proof : Proof) (d : EvalDomain) (queries : List Nat) : List Bytes :=
  Merkle.openingMessages d.logSize queries proof.traceRows proof.traceDecommitment ++
    Merkle.openingMessages d.logSize queries proof.constraintRows proof.constraintDecommitment

/-- All messages that the openings of an accepted run hash, none for a run that stops before them. -/
def merkleMessages (cs : ConstraintSystem) (proof : Proof) : List Bytes :=
  let opened : Except Stop (List Bytes) := do
    let (p, coin, d) ← setUp cs proof
    checkOods cs proof p coin
    let queries ← drawQueries proof p coin d
    let first ← orFault id (cs.evaluateAtQueries p queries proof.traceRows proof.constraintRows
      (claimedOods p coin proof) (Transcript.oods p coin proof).oodsCoefficients)
    return rowsMessages proof d queries ++
      layersMessages d (layers p coin proof) 0 d.size (queries.zip first)
  opened.toOption.getD []

theorem layerMessages_eq {number layerLength : Nat} {known : List (Nat × Felt)} {layer : FriLayer}
    {step : Nat} {cosets : List (Nat × List Felt)}
    (h : Fri.gatherCosets known step layer.values number = .ok cosets) :
    layerMessages number layerLength known layer step =
      Merkle.openingMessages (layerLength.log2 - step) (cosets.map (·.1)) (cosets.map (·.2))
        layer.decommitment := by
  rw [layerMessages, h]

theorem layersMessages_cons_eq {d : EvalDomain} {number layerLength : Nat}
    {known folded : List (Nat × Felt)} {layer : FriLayer} {step : Nat} {challenge : Felt}
    {rest : List (FriLayer × Nat × Felt)}
    (h : checkLayer d number layerLength known layer step challenge = .ok folded) :
    layersMessages d ((layer, step, challenge) :: rest) number layerLength known =
      layerMessages number layerLength known layer step ++
        layersMessages d rest (number + 1) (layerLength >>> step) folded := by
  rw [layersMessages, h]

theorem Acceptance.merkleMessages_eq {cs : ConstraintSystem} {proof : Proof}
    (a : Acceptance cs proof) :
    merkleMessages cs proof = rowsMessages proof a.d a.queries ++
      layersMessages a.d (layers a.p a.coin proof) 0 a.d.size (a.queries.zip a.fri.first) := by
  simp only [merkleMessages, a.setUp_eq, a.oods_eq, a.queries_eq, a.fri.first_eq, bind, Except.bind,
    orFault, Except.mapError, pure, Except.pure, Except.toOption, Option.getD_some]

end StarkVerifier.Verifier
