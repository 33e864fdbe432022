import StarkVerifier.Hash
/-!
The public coin: challenges drawn from a hash of everything written before them. A write replaces the
digest, a read hashes the digest with the number of blocks read since the last write.
-/

namespace StarkVerifier

inductive CoinError where
  | queryWidth (bits : Nat)
  | tooManyQueries (count bits : Nat)
deriving DecidableEq

namespace CoinError

def message : CoinError → String
  | queryWidth bits => s!"query width {bits} exceeds 64 bits"
  | tooManyQueries count bits => s!"cannot draw {count} distinct queries from 2^{bits} indices"

end CoinError

structure Coin where
  digest : Digest
  counter : Nat
deriving DecidableEq

namespace Coin

def ofSeed (seed : Bytes) : Coin := ⟨keccak seed, 0⟩

/-! ## Writes -/

def write (coin : Coin) (data : Bytes) : Coin := ⟨keccak (coin.digest.bytes ++ data), 0⟩

def writeDigest (coin : Coin) (d : Digest) : Coin := coin.write d.bytes

/-- One write of all the elements. -/
def writeFelts (coin : Coin) (as : List Felt) : Coin := coin.write (as.flatMap Felt.toBytes)

/-! ## Blocks and what they are read as -/

/-- The next block of the coin. -/
def block (coin : Coin) : Digest := keccak (coin.digest.bytes ++ Bytes.ofNat 32 coin.counter)

def next (coin : Coin) : Coin := { coin with counter := coin.counter + 1 }

/-- A block without its top four bits, if that is below the modulus. -/
def felt? (block : Digest) : Option Felt :=
  match block.bytes with
  | [] => none
  | b :: rest => (Felt.ofBytes ((b &&& 0x0f) :: rest)).toOption

/-- The last `bits` bits of a block, at most 64. -/
def query (bits : Nat) (block : Digest) : Nat :=
  (Bytes.toWord (block.bytes.drop 24)).toNat % 2 ^ min bits 64

/-! ## Reads -/

def readDigest (coin : Coin) : Digest × Coin := (coin.block, coin.next)

/-- Blocks a single read may take. -/
def attempts : Nat := 2 ^ 64

/-- What a read that may take so many blocks comes to: what it looks for, or, when the blocks run out, what
it has by then. -/
inductive Reading (α : Type) where
  | complete (read : α × Coin)
  | exhausted (read : α × Coin)
deriving DecidableEq

/-- A read goes on as if its blocks had been enough. -/
def Reading.read : Reading α → α × Coin
  | complete read => read
  | exhausted read => read

/-- The first block of `fuel` that is an element. -/
def readFeltWithin (fuel : Nat) (coin : Coin) : Reading Felt :=
  match fuel with
  | 0 => .exhausted (0, coin)
  | fuel + 1 =>
    match felt? coin.block with
    | some x => .complete (x, coin.next)
    | none => readFeltWithin fuel coin.next

def readFelt (coin : Coin) : Felt × Coin := (readFeltWithin attempts coin).read

def readFelts (n : Nat) (coin : Coin) : List Felt × Coin :=
  match n with
  | 0 => ([], coin)
  | n + 1 =>
    let (x, coin) := coin.readFelt
    let (xs, coin) := readFelts n coin
    (x :: xs, coin)

def readQuery (bits : Nat) (coin : Coin) : Nat × Coin := (query bits coin.block, coin.next)

/-- Keeps an ascending list ascending and without repetition. -/
def insertAscending (q : Nat) : List Nat → List Nat
  | [] => [q]
  | p :: rest =>
    if q < p then q :: p :: rest else if q = p then p :: rest else p :: insertAscending q rest

/-- Draws until `count` indices are picked, from `fuel` blocks at most. -/
def pickWithin (fuel count bits : Nat) (picked : List Nat) (coin : Coin) : Reading (List Nat) :=
  if count ≤ picked.length then .complete (picked, coin)
  else
    match fuel with
    | 0 => .exhausted (picked, coin)
    | fuel + 1 =>
      let (q, coin) := coin.readQuery bits
      pickWithin fuel count bits (insertAscending q picked) coin

/-- `count` distinct indices of `bits` bits in ascending order. -/
def readQueries (count bits : Nat) (coin : Coin) : Except CoinError (List Nat × Coin) :=
  if 64 < bits then .error (.queryWidth bits)
  else if 2 ^ bits < count then .error (.tooManyQueries count bits)
  else .ok (pickWithin attempts count bits [] coin).read

end Coin
end StarkVerifier
