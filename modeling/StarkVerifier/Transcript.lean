import StarkVerifier.Coin
import StarkVerifier.Hash
import StarkVerifier.Parameters
import StarkVerifier.Proof
/-!
The order in which a proof is written to the coin and challenges are read from it. Every challenge
depends only on what was written before. One of them is the proof of work: a nonce whose hash begins with
enough zero bits.
-/

namespace StarkVerifier

/-! ## Proof of work -/

structure ProofOfWork where
  seed : Digest
  bits : UInt8
deriving DecidableEq

namespace ProofOfWork

/-- Separates the seed from every other hash. -/
def mark : Bytes := [0x01, 0x23, 0x45, 0x67, 0x89, 0xab, 0xcd, 0xed]

def ofDigest (d : Digest) (bits : UInt8) : ProofOfWork := ⟨keccak (mark ++ d.bytes ++ [bits]), bits⟩

def leadingZeroBits : Bytes → Nat
  | [] => 0
  | b :: rest => if b = 0 then 8 + leadingZeroBits rest else 7 - b.toNat.log2

def candidate (w : ProofOfWork) (nonce : UInt64) : Digest :=
  keccak (w.seed.bytes ++ Bytes.ofWord nonce)

def check (w : ProofOfWork) (nonce : UInt64) : Bool :=
  w.bits = 0 || w.bits.toNat ≤ leadingZeroBits (w.candidate nonce).bytes

end ProofOfWork

/-! ## Challenges -/

/-- Challenges drawn before the out-of-domain values are judged. -/
structure OodsChallenges where
  constraintCoefficients : List Felt
  point : Felt
  oodsCoefficients : List Felt
  coin : Coin
deriving DecidableEq

/-- Challenges drawn after that, up to the queries. -/
structure FriChallenges where
  foldChallenges : List Felt
  work : ProofOfWork
  coin : Coin
deriving DecidableEq

namespace Transcript

def constraintCoefficients (p : Parameters) (coin : Coin) (traceRoot : Digest) : List Felt × Coin :=
  (coin.writeDigest traceRoot).readFelts (2 * p.constraints)

def oodsPoint (coin : Coin) (constraintRoot : Digest) : Felt × Coin :=
  (coin.writeDigest constraintRoot).readFelt

def oodsCoefficients (p : Parameters) (coin : Coin) (traceOods constraintOods : List Felt) :
    List Felt × Coin :=
  ((coin.writeFelts traceOods).writeFelts constraintOods).readFelts p.oodsCoefficientCount

/-- A challenge for each layer, read after its root is written. -/
def foldChallenges (coin : Coin) : List Digest → List Felt × Coin
  | [] => ([], coin)
  | root :: roots =>
    let first := (coin.writeDigest root).readFelt
    let others := foldChallenges first.2 roots
    (first.1 :: others.1, others.2)

def oods (p : Parameters) (coin : Coin) (proof : Proof) : OodsChallenges :=
  let constraints := constraintCoefficients p coin proof.traceRoot
  let point := oodsPoint constraints.2 proof.constraintRoot
  let coefficients := oodsCoefficients p point.2 proof.traceOods proof.constraintOods
  ⟨constraints.1, point.1, coefficients.1, coefficients.2⟩

/-- The proof of work is seeded before its nonce is written. -/
def fri (p : Parameters) (coin : Coin) (proof : Proof) : FriChallenges :=
  let folds := foldChallenges coin (proof.friLayers.map (·.root))
  let coin := folds.2.writeFelts proof.lastLayer
  ⟨folds.1, .ofDigest coin.digest p.powBits, coin.write (Bytes.ofWord proof.powNonce)⟩

end Transcript
end StarkVerifier
