import StarkVerifier.Hash
/-! The proof record: commitments, out-of-domain values, and openings at the queries. -/

namespace StarkVerifier

/-- What a proof says about one layer: its root, and the members of the touched cosets that the verifier
cannot compute. -/
structure FriLayer where
  root : Digest
  values : List Felt
  decommitment : List Digest
deriving DecidableEq

namespace FriLayer

/-- Names of the fields in files. -/
def fieldNames : List String := ["root", "values", "decommitment"]

end FriLayer

structure Proof where
  publicInputs : Bytes
  traceRoot : Digest
  constraintRoot : Digest
  traceOods : List Felt
  constraintOods : List Felt
  friLayers : List FriLayer
  lastLayer : List Felt
  powNonce : UInt64
  traceRows : List (List Felt)
  traceDecommitment : List Digest
  constraintRows : List (List Felt)
  constraintDecommitment : List Digest
deriving DecidableEq

/-- Counts of what a proof holds. -/
structure Proof.Summary where
  publicInputBytes : Nat
  traceRoot : Digest
  constraintRoot : Digest
  openedRows : Nat
  friLayers : Nat
  friValues : Nat
  decommitmentDigests : Nat
  lastLayerCoefficients : Nat
deriving DecidableEq

namespace Proof

/-- Names of the fields in files. -/
def fieldNames : List String := [
  "public_inputs", "trace_root", "constraint_root", "trace_oods_values", "constraint_oods_values",
  "fri_layers", "last_layer_coefficients", "pow_nonce", "trace_values", "trace_decommitment",
  "constraint_values", "constraint_decommitment"]

def summary (p : Proof) : Summary where
  publicInputBytes := p.publicInputs.length
  traceRoot := p.traceRoot
  constraintRoot := p.constraintRoot
  openedRows := p.traceRows.length
  friLayers := p.friLayers.length
  friValues := (p.friLayers.flatMap (·.values)).length
  decommitmentDigests := p.traceDecommitment.length + p.constraintDecommitment.length +
    (p.friLayers.flatMap (·.decommitment)).length
  lastLayerCoefficients := p.lastLayer.length

end Proof
end StarkVerifier
