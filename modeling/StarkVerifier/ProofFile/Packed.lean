import StarkVerifier.Proof
import StarkVerifier.Bytes
/-!
The packed form of a proof: fields in order with nothing between them. Counts and the nonce are words of
eight bytes, the lowest first. Byte strings and lists follow their count, elements are 32 bytes.
-/

namespace StarkVerifier.Packed

/-! ## Writing -/

def word (w : UInt64) : Bytes := (Bytes.ofWord w).reverse

def count (n : Nat) : Bytes := word (.ofNat n)

def bytes (b : Bytes) : Bytes := count b.length ++ b

def digest (d : Digest) : Bytes := bytes d.bytes

def list (item : α → Bytes) (items : List α) : Bytes := count items.length ++ items.flatMap item

def layer (l : FriLayer) : Bytes :=
  digest l.root ++ list Felt.toBytes l.values ++ list digest l.decommitment

def proof (p : Proof) : Bytes :=
  bytes p.publicInputs ++ digest p.traceRoot ++ digest p.constraintRoot ++
    list Felt.toBytes p.traceOods ++ list Felt.toBytes p.constraintOods ++
    list layer p.friLayers ++ list Felt.toBytes p.lastLayer ++ word p.powNonce ++
    list (list Felt.toBytes) p.traceRows ++ list digest p.traceDecommitment ++
    list (list Felt.toBytes) p.constraintRows ++ list digest p.constraintDecommitment

/-! ## Reading -/

def readWord : Reader UInt64 := do return Bytes.toWord (← Reader.take 8).reverse

def readBytes : Reader Bytes := do Reader.take (← readWord).toNat

def readDigest : Reader Digest := do Reader.lift (Digest.ofBytes? (← readBytes))

def readFelt : Reader Felt := do Reader.lift (Felt.ofBytes (← Reader.take 32)).toOption

def readList (item : Reader α) : Reader (List α) := do Reader.times item (← readWord).toNat

def readLayer : Reader FriLayer := do
  let root ← readDigest
  let values ← readList readFelt
  let decommitment ← readList readDigest
  return { root, values, decommitment }

def readProof : Reader Proof := do
  let publicInputs ← readBytes
  let traceRoot ← readDigest
  let constraintRoot ← readDigest
  let traceOods ← readList readFelt
  let constraintOods ← readList readFelt
  let friLayers ← readList readLayer
  let lastLayer ← readList readFelt
  let powNonce ← readWord
  let traceRows ← readList (readList readFelt)
  let traceDecommitment ← readList readDigest
  let constraintRows ← readList (readList readFelt)
  let constraintDecommitment ← readList readDigest
  return {
    publicInputs, traceRoot, constraintRoot, traceOods, constraintOods, friLayers, lastLayer,
    powNonce, traceRows, traceDecommitment, constraintRows, constraintDecommitment }

/-- What follows the proof is ignored. -/
def proof? (file : Bytes) : Option Proof := (readProof file).map (·.1)

end StarkVerifier.Packed
