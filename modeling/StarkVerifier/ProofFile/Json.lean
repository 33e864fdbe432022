import StarkVerifier.Fibonacci
import StarkVerifier.Json.Parser
import StarkVerifier.Json.Printer
import StarkVerifier.Proof
/-! Records as JSON. Elements, digests and public inputs are strings of hexadecimal digits. -/

namespace StarkVerifier

namespace Json

def word? : Json → Option Nat := natural? (2 ^ 64)

def half? : Json → Option Nat := natural? (2 ^ 32)

end Json

namespace Felt

def toJson (a : Felt) : Json := .ofString a.toHex

def ofJson? (j : Json) : Option Felt := do (ofHex (← j.string?)).toOption

end Felt

namespace Digest

def toJson (d : Digest) : Json := .ofString d.toHex

def ofJson? (j : Json) : Option Digest := do ofHex? (← j.string?)

end Digest

namespace Bytes

def toJson (b : Bytes) : Json := .ofString (String.ofList (Hex.encode b))

def ofJson? (j : Json) : Option Bytes := do Hex.decode? (← j.string?).toList

end Bytes

namespace FriLayer

def toJson (l : FriLayer) : Json := .ofFields [
  ("root", l.root.toJson),
  ("values", .ofList Felt.toJson l.values),
  ("decommitment", .ofList Digest.toJson l.decommitment)]

def ofJson? (j : Json) : Option FriLayer := do
  match ← j.record? fieldNames with
  | [root, values, decommitment] =>
    return {
      root := ← Digest.ofJson? root
      values := ← values.list? Felt.ofJson?
      decommitment := ← decommitment.list? Digest.ofJson? }
  | _ => none

end FriLayer

namespace Proof

def toJson (p : Proof) : Json := .ofFields [
  ("public_inputs", p.publicInputs.toJson),
  ("trace_root", p.traceRoot.toJson),
  ("constraint_root", p.constraintRoot.toJson),
  ("trace_oods_values", .ofList Felt.toJson p.traceOods),
  ("constraint_oods_values", .ofList Felt.toJson p.constraintOods),
  ("fri_layers", .ofList FriLayer.toJson p.friLayers),
  ("last_layer_coefficients", .ofList Felt.toJson p.lastLayer),
  ("pow_nonce", .natural p.powNonce.toNat),
  ("trace_values", .ofList (.ofList Felt.toJson) p.traceRows),
  ("trace_decommitment", .ofList Digest.toJson p.traceDecommitment),
  ("constraint_values", .ofList (.ofList Felt.toJson) p.constraintRows),
  ("constraint_decommitment", .ofList Digest.toJson p.constraintDecommitment)]

def ofJson? (j : Json) : Option Proof := do
  match ← j.record? fieldNames with
  | [publicInputs, traceRoot, constraintRoot, traceOods, constraintOods, friLayers, lastLayer,
      powNonce, traceRows, traceDecommitment, constraintRows, constraintDecommitment] =>
    return {
      publicInputs := ← Bytes.ofJson? publicInputs
      traceRoot := ← Digest.ofJson? traceRoot
      constraintRoot := ← Digest.ofJson? constraintRoot
      traceOods := ← traceOods.list? Felt.ofJson?
      constraintOods := ← constraintOods.list? Felt.ofJson?
      friLayers := ← friLayers.list? FriLayer.ofJson?
      lastLayer := ← lastLayer.list? Felt.ofJson?
      powNonce := .ofNat (← powNonce.word?)
      traceRows := ← traceRows.list? (Json.list? Felt.ofJson?)
      traceDecommitment := ← traceDecommitment.list? Digest.ofJson?
      constraintRows := ← constraintRows.list? (Json.list? Felt.ofJson?)
      constraintDecommitment := ← constraintDecommitment.list? Digest.ofJson? }
  | _ => none

end Proof

namespace TraceOffset

def toJson (o : TraceOffset) : Json :=
  .ofFields [("column", .natural o.column), ("row", .natural o.row)]

def ofJson? (j : Json) : Option TraceOffset := do
  match ← j.record? ["column", "row"] with
  | [column, row] => return { column := ← column.word?, row := ← row.word? }
  | _ => none

end TraceOffset

namespace Parameters

def toJson (p : Parameters) : Json := .ofFields [
  ("trace_columns", .natural p.traceColumns),
  ("trace_length", .natural p.traceLength),
  ("constraints", .natural p.constraints),
  ("blowup", .natural p.blowup),
  ("constraint_degree", .natural p.constraintDegree),
  ("pow_bits", .natural p.powBits.toNat),
  ("queries", .natural p.queries),
  ("fri_layout", .ofList .natural p.friLayout),
  ("trace_layout", .ofList TraceOffset.toJson p.traceLayout)]

def ofJson? (j : Json) : Option Parameters := do
  let names := ["trace_columns", "trace_length", "constraints", "blowup", "constraint_degree",
    "pow_bits", "queries", "fri_layout", "trace_layout"]
  match ← j.record? names with
  | [traceColumns, traceLength, constraints, blowup, constraintDegree, powBits, queries, friLayout,
      traceLayout] =>
    return {
      traceColumns := ← traceColumns.word?
      traceLength := ← traceLength.word?
      constraints := ← constraints.word?
      blowup := ← blowup.word?
      constraintDegree := ← constraintDegree.word?
      powBits := .ofNat (← powBits.natural? 256)
      queries := ← queries.word?
      friLayout := ← friLayout.list? Json.half?
      traceLayout := ← traceLayout.list? TraceOffset.ofJson? }
  | _ => none

end Parameters

namespace FibonacciConfig

def toJson (c : FibonacciConfig) : Json := .ofFields [
  ("blowup", .natural c.blowup),
  ("pow_bits", .natural c.powBits.toNat),
  ("queries", .natural c.queries),
  ("fri_layout", (c.friLayout.map (Json.ofList .natural)).getD .null)]

/-- A field that is there has to be right. -/
def given (field : Option Json) (read : Json → Option α) (default : α) : Option α :=
  match field with
  | none => some default
  | some j => read j

def layout? : Json → Option (Option (List Nat))
  | .null => some none
  | j => (j.list? Json.half?).map some

def ofJson? (j : Json) : Option FibonacciConfig := do
  match ← j.partialRecord? ["blowup", "pow_bits", "queries", "fri_layout"] with
  | [blowup, powBits, queries, friLayout] =>
    let default : FibonacciConfig := {}
    return {
      blowup := ← given blowup Json.word? default.blowup
      powBits := .ofNat (← given powBits (Json.natural? 256) default.powBits.toNat)
      queries := ← given queries Json.word? default.queries
      friLayout := ← given friLayout layout? default.friLayout }
  | _ => none

end FibonacciConfig

namespace Proof.Summary

def toFields (s : Proof.Summary) : List (String × Json) := [
  ("public_input_bytes", .natural s.publicInputBytes),
  ("trace_root", s.traceRoot.toJson),
  ("constraint_root", s.constraintRoot.toJson),
  ("opened_rows", .natural s.openedRows),
  ("fri_layers", .natural s.friLayers),
  ("fri_values", .natural s.friValues),
  ("decommitment_digests", .natural s.decommitmentDigests),
  ("last_layer_coefficients", .natural s.lastLayerCoefficients)]

end Proof.Summary
end StarkVerifier
