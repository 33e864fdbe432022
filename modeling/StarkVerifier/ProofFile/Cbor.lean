import StarkVerifier.Cbor.Head
import StarkVerifier.Proof
/-!
Proofs as CBOR: a map from the names of the fields. Digests and public inputs are byte strings, an
element is an array of its 32 bytes. A reader takes the fields in any order, skips others and ignores
what follows the map.
-/

namespace StarkVerifier.Cbor

/-! ## Writing -/

def text (name : String) : Bytes :=
  let bytes := Utf8.encode name.toList
  head .text bytes.length ++ bytes

def bytes (b : Bytes) : Bytes := head .bytes b.length ++ b

def natural (n : Nat) : Bytes := head .unsigned n

def list (item : α → Bytes) (items : List α) : Bytes :=
  head .array items.length ++ items.flatMap item

def digest (d : Digest) : Bytes := bytes d.bytes

def felt (a : Felt) : Bytes := list (fun b => natural b.toNat) a.toBytes

def map (fields : List (String × Bytes)) : Bytes :=
  head .map fields.length ++ fields.flatMap fun f => text f.1 ++ f.2

def layer (l : FriLayer) : Bytes := map [
  ("root", digest l.root),
  ("values", list felt l.values),
  ("decommitment", list digest l.decommitment)]

def proof (p : Proof) : Bytes := map [
  ("public_inputs", bytes p.publicInputs),
  ("trace_root", digest p.traceRoot),
  ("constraint_root", digest p.constraintRoot),
  ("trace_oods_values", list felt p.traceOods),
  ("constraint_oods_values", list felt p.constraintOods),
  ("fri_layers", list layer p.friLayers),
  ("last_layer_coefficients", list felt p.lastLayer),
  ("pow_nonce", natural p.powNonce.toNat),
  ("trace_values", list (list felt) p.traceRows),
  ("trace_decommitment", list digest p.traceDecommitment),
  ("constraint_values", list (list felt) p.constraintRows),
  ("constraint_decommitment", list digest p.constraintDecommitment)]

/-! ## Reading -/

def readByte : Reader UInt8 := do
  let n ← readUnsigned
  if n < 256 then return .ofNat n else failure

def readNonce : Reader UInt64 := do
  let n ← readUnsigned
  if n < 2 ^ 64 then return .ofNat n else failure

/-- Items up to a break, which is taken too. -/
def readUntilBreak (item : Reader α) : Nat → Bytes → Option (List α × Bytes)
  | 0, _ => none
  | fuel + 1, bytes => do
    let (h, rest) ← readHead bytes
    if h = .break then return ([], rest)
    let (first, bytes) ← item bytes
    let (others, bytes) ← readUntilBreak item fuel bytes
    return (first :: others, bytes)

/-- The items of an array whose head said this about its length. -/
def readItems (item : Reader α) (length : Option Nat) : Reader (List α) := fun bytes =>
  match length with
  | some n => Reader.times item n bytes
  | none => readUntilBreak item bytes.length bytes

/-- An empty byte string is an empty list too. -/
def readList (item : Reader α) : Reader (List α) := do
  match ← readUntagged with
  | .array length => readItems item length
  | .bytes length => if (← readBytesBody length).isEmpty then return [] else failure
  | _ => failure

/-- The first `n` bytes of an array. The rest of a longer one is left for the next reader. -/
def readFirstBytes (n : Nat) (length : Option Nat) : Reader Bytes :=
  if length.all (n ≤ ·) then Reader.times readByte n else failure

def readFelt : Reader Felt := do
  let bytes ← match ← readUntagged with
    | .array length => readFirstBytes 32 length
    | .bytes length => (·.take 32) <$> readBytesBody length
    | _ => failure
  Reader.lift (Felt.ofBytes bytes).toOption

def readDigest : Reader Digest := do
  let bytes ← match ← readUntagged with
    | .array length => readFirstBytes 32 length
    | .bytes (some n) => readBytesBody (some n)
    | _ => failure
  Reader.lift (Digest.ofBytes? bytes)

def readBytes : Reader Bytes := do
  match ← readUntagged with
  | .array length => readItems readByte length
  | .bytes length => readBytesBody length
  | _ => failure

/-- The longest name of a field. -/
def maxNameLength : Nat := 4096

/-- A name of text or of bytes. -/
def readName : Reader Bytes := do
  match ← readUntagged with
  | .text (some n) =>
    let name ← Reader.take n
    if n ≤ maxNameLength ∧ (Utf8.decode? name).isSome then return name else failure
  | .bytes (some n) => if n ≤ maxNameLength then Reader.take n else failure
  | _ => failure

/-- The fields of a map one after the other; `field` takes the value of a name into a draft. The map is
the innermost of `level` open ones. -/
def readFieldsWithin (level : Nat) (field : String → σ → Reader σ) (names : List String) :
    Nat → Option Nat → σ → Bytes → Option (σ × Bytes)
  | _, some 0, draft, bytes => some (draft, bytes)
  | 0, _, _, _ => none
  | fuel + 1, missing, draft, bytes => do
    let (h, rest) ← readHead bytes
    if missing = none ∧ h = .break then return (draft, rest)
    let (name, bytes) ← readName bytes
    let (draft, bytes) ← match names.find? fun n => Utf8.encode n.toList = name with
      | some n => field n draft bytes
      | none => (skip level bytes).map fun r => (draft, r.2)
    readFieldsWithin level field names fuel (missing.map (· - 1)) draft bytes

def readFields (level : Nat) (field : String → σ → Reader σ) (names : List String) (empty : σ) :
    Reader σ := do
  match ← readUntagged with
  | .map length => fun bytes => readFieldsWithin level field names bytes.length length empty bytes
  | _ => failure

/-- A value for a field that has none yet. -/
def fresh (old : Option α) (value : Reader α) : Reader (Option α) := do
  if old.isSome then failure
  return some (← value)

/-- The fields of a layer read so far. -/
structure LayerDraft where
  root : Option Digest := none
  values : Option (List Felt) := none
  decommitment : Option (List Digest) := none

namespace LayerDraft

def field (name : String) (d : LayerDraft) : Reader LayerDraft := do
  match name with
  | "root" => return { d with root := ← fresh d.root readDigest }
  | "values" => return { d with values := ← fresh d.values (readList readFelt) }
  | "decommitment" => return { d with decommitment := ← fresh d.decommitment (readList readDigest) }
  | _ => failure

def finish? (d : LayerDraft) : Option FriLayer := do
  return { root := ← d.root, values := ← d.values, decommitment := ← d.decommitment }

end LayerDraft

/-- A layer stands in the list of layers of a proof. -/
def readLayer : Reader FriLayer := do
  Reader.lift (← readFields 3 LayerDraft.field FriLayer.fieldNames {}).finish?

/-- The fields of a proof read so far. -/
structure ProofDraft where
  publicInputs : Option Bytes := none
  traceRoot : Option Digest := none
  constraintRoot : Option Digest := none
  traceOods : Option (List Felt) := none
  constraintOods : Option (List Felt) := none
  friLayers : Option (List FriLayer) := none
  lastLayer : Option (List Felt) := none
  powNonce : Option UInt64 := none
  traceRows : Option (List (List Felt)) := none
  traceDecommitment : Option (List Digest) := none
  constraintRows : Option (List (List Felt)) := none
  constraintDecommitment : Option (List Digest) := none

namespace ProofDraft

def field (name : String) (d : ProofDraft) : Reader ProofDraft := do
  match name with
  | "public_inputs" => return { d with publicInputs := ← fresh d.publicInputs readBytes }
  | "trace_root" => return { d with traceRoot := ← fresh d.traceRoot readDigest }
  | "constraint_root" => return { d with constraintRoot := ← fresh d.constraintRoot readDigest }
  | "trace_oods_values" => return { d with traceOods := ← fresh d.traceOods (readList readFelt) }
  | "constraint_oods_values" =>
    return { d with constraintOods := ← fresh d.constraintOods (readList readFelt) }
  | "fri_layers" => return { d with friLayers := ← fresh d.friLayers (readList readLayer) }
  | "last_layer_coefficients" =>
    return { d with lastLayer := ← fresh d.lastLayer (readList readFelt) }
  | "pow_nonce" => return { d with powNonce := ← fresh d.powNonce readNonce }
  | "trace_values" =>
    return { d with traceRows := ← fresh d.traceRows (readList (readList readFelt)) }
  | "trace_decommitment" =>
    return { d with traceDecommitment := ← fresh d.traceDecommitment (readList readDigest) }
  | "constraint_values" =>
    return { d with constraintRows := ← fresh d.constraintRows (readList (readList readFelt)) }
  | "constraint_decommitment" =>
    return { d with
      constraintDecommitment := ← fresh d.constraintDecommitment (readList readDigest) }
  | _ => failure

def finish? (d : ProofDraft) : Option Proof := do
  return {
    publicInputs := ← d.publicInputs
    traceRoot := ← d.traceRoot
    constraintRoot := ← d.constraintRoot
    traceOods := ← d.traceOods
    constraintOods := ← d.constraintOods
    friLayers := ← d.friLayers
    lastLayer := ← d.lastLayer
    powNonce := ← d.powNonce
    traceRows := ← d.traceRows
    traceDecommitment := ← d.traceDecommitment
    constraintRows := ← d.constraintRows
    constraintDecommitment := ← d.constraintDecommitment }

end ProofDraft

def readProof : Reader Proof := do
  Reader.lift (← readFields 1 ProofDraft.field Proof.fieldNames {}).finish?

def proof? (file : Bytes) : Option Proof := (readProof file).map (·.1)

end StarkVerifier.Cbor
