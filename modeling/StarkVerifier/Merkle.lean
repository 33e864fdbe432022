import StarkVerifier.Hash
import StarkVerifier.Word
/-!
Trees of digests, and openings of many of their leaves at once. Nodes are numbered as in a heap: the root
is 1, the children of `h` are `2 * h` and `2 * h + 1`, and leaf `i` of `2 ^ depth` is `2 ^ depth + i`.
-/

namespace StarkVerifier

/-- What can stand at the leaves of a tree. -/
class MerkleLeaf (α : Type) where
  digest : α → Digest

instance : MerkleLeaf Digest := ⟨id⟩

instance : MerkleLeaf Felt := ⟨fun a => ⟨a.toBytes, a.length_toBytes⟩⟩

/-- A row of one element is hashed as that element. -/
instance : MerkleLeaf (List Felt) where
  digest
    | [a] => MerkleLeaf.digest a
    | row => maskedKeccak (row.flatMap Felt.toBytes)

inductive MerkleError where
  | noClaimedData
  | lengthMismatch (indices leaves : Nat)
  | indexOutOfRange (index depth : Nat)
  | unsortedIndices
  | depthTooLarge (depth : Nat)
  | notPowerOfTwo (leaves : Nat)
deriving DecidableEq

namespace MerkleError

def message : MerkleError → String
  | noClaimedData => "No claimed data"
  | lengthMismatch indices leaves => s!"{indices} indices but {leaves} leaves"
  | indexOutOfRange index depth => s!"leaf index {index} out of range for depth {depth}"
  | unsortedIndices => "leaf indices must be strictly increasing"
  | depthTooLarge depth => s!"tree depth {depth} exceeds the supported maximum"
  | notPowerOfTwo leaves => s!"leaf count {leaves} is not a power of two"

end MerkleError

namespace Merkle

def maxDepth : Nat := 63

def nodeHash (left right : Digest) : Digest := maskedKeccak (left.bytes ++ right.bytes)

/-!
## Verification

The claimed nodes wait in a queue. The first of them is hashed with its sibling and the parent goes to the
end of the queue, until the node that is left is compared with the root.
-/

/-- Judges the indices one by one, each first by its range and then by the index before it. -/
def checkIndices (depth : Nat) (previous : Option Nat) : List Nat → Except MerkleError Unit
  | [] => .ok ()
  | i :: rest =>
    if 2 ^ depth ≤ i then .error (.indexOutOfRange i depth)
    else if previous.any (i ≤ ·) then .error .unsortedIndices
    else checkIndices depth (some i) rest

/-- The parent of a node and its sibling. -/
def parent (i : Nat) (d sibling : Digest) : Digest :=
  if i % 2 = 0 then nodeHash d sibling else nodeHash sibling d

/-- The sibling of a node that has left the queue, and what is left of the queue and the decommitment.
A right sibling that is claimed itself comes next in the queue; any other is supplied. -/
def takeSibling (index : Nat) (queue : List (Nat × Digest)) (siblings : List Digest) :
    Option (Digest × List (Nat × Digest) × List Digest) :=
  match queue.head?.filter fun next => index % 2 = 0 ∧ next.1 = index + 1 with
  | some next => some (next.2, queue.tail, siblings)
  | none => siblings.head?.map fun s => (s, queue, siblings.tail)

/-- The sum of a queue's numbers. A parent's number is at most half of its child's. -/
def weight : List Nat → Nat
  | [] => 0
  | index :: queue => index + weight queue

theorem weight_append (queue others : List Nat) :
    weight (queue ++ others) = weight queue + weight others := by
  induction queue with
  | nil => simp [weight]
  | cons index queue ih => simp only [List.cons_append, weight, ih, Nat.add_assoc]

theorem weight_takeSibling {index : Nat} {queue rest : List (Nat × Digest)}
    {siblings left : List Digest} {s : Digest}
    (h : takeSibling index queue siblings = some (s, rest, left)) :
    index / 2 + weight (rest.map (·.1)) + left.length <
      index + weight (queue.map (·.1)) + siblings.length := by
  unfold takeSibling at h
  cases queue with
  | nil =>
      cases siblings with
      | nil => simp at h
      | cons s' siblings =>
          obtain ⟨-, rfl, rfl⟩ := by simpa using h
          simp
          omega
  | cons next queue =>
      by_cases hnext : index % 2 = 0 ∧ next.1 = index + 1
      · obtain ⟨-, rfl, rfl⟩ := by simpa [Option.filter, hnext] using h
        simp [weight, hnext.2]
        omega
      · cases siblings with
        | nil => simp [Option.filter, hnext] at h
        | cons s' siblings =>
            obtain ⟨-, rfl, rfl⟩ := by simpa [Option.filter, hnext] using h
            simp
            omega

/-- True when the queue comes to the root with nothing left in it or in the decommitment. -/
def climb (root : Digest) (queue : List (Nat × Digest)) (siblings : List Digest) : Bool :=
  match queue with
  | [] => false
  | (index, d) :: queue =>
    if index = 1 then queue.isEmpty && siblings.isEmpty && d = root
    else
      match _h : takeSibling index queue siblings with
      | none => false
      | some (sibling, rest, left) =>
        climb root (rest ++ [(index / 2, parent index d sibling)]) left
termination_by weight (queue.map (·.1)) + siblings.length
decreasing_by
  have hless := weight_takeSibling _h
  simp only [List.map_append, List.map_cons, List.map_nil, weight_append, weight]
  omega

/-- True when the claimed leaves and the whole decommitment hash to the root. -/
def verify [MerkleLeaf α] (root : Digest) (depth : Nat) (indices : List Nat) (leaves : List α)
    (decommitment : List Digest) : Except MerkleError Bool := do
  if indices.isEmpty then throw .noClaimedData
  if indices.length ≠ leaves.length then throw (.lengthMismatch indices.length leaves.length)
  if maxDepth < depth then throw (.depthTooLarge depth)
  checkIndices depth none indices
  return climb root ((indices.map (2 ^ depth + ·)).zip (leaves.map MerkleLeaf.digest)) decommitment

end Merkle

/-- An opening as a record of its own, with the digests of the claimed leaves. -/
structure MerkleProof where
  root : Digest
  claimed : List (Nat × Digest)
  decommitment : List Digest
deriving DecidableEq

namespace MerkleProof

def verify (p : MerkleProof) (depth : Nat) : Except MerkleError Bool :=
  Merkle.verify p.root depth (p.claimed.map (·.1)) (p.claimed.map (·.2)) p.decommitment

end MerkleProof

/-! ## Trees -/

/-- The digests of all nodes, by their numbers; nothing has the number 0. -/
structure MerkleTree where
  depth : Nat
  nodes : Array Digest
deriving DecidableEq

namespace MerkleTree

/-- Hashes the nodes from number `count` down to 1. -/
def hashNodes : Nat → Array Digest → Array Digest
  | 0, nodes => nodes
  | h + 1, nodes =>
    hashNodes h (nodes.setIfInBounds (h + 1)
      (Merkle.nodeHash (nodes.getD (2 * (h + 1)) .zero) (nodes.getD (2 * (h + 1) + 1) .zero)))

/-- The tree over the digests of its leaves. -/
def ofDigests (depth : Nat) (digests : List Digest) : MerkleTree :=
  ⟨depth, hashNodes (digests.length - 1)
    (Array.replicate digests.length .zero ++ digests.toArray)⟩

def ofLeaves [MerkleLeaf α] (leaves : List α) : Except MerkleError MerkleTree :=
  if !isTwoPower leaves.length then .error (.notPowerOfTwo leaves.length)
  else
    let depth := leaves.length.log2
    if Merkle.maxDepth < depth then .error (.depthTooLarge depth)
    else .ok (ofDigests depth (leaves.map MerkleLeaf.digest))

/-- Digest of the node with a heap index. -/
def heapNode (t : MerkleTree) (h : Nat) : Digest := t.nodes.getD h .zero

def root (t : MerkleTree) : Digest := t.heapNode 1

/-- Siblings of the nodes of a queue that are not in it themselves. Each node gives way to its parent at
the end of the queue, a pair of siblings to one parent, until the root comes to the front. -/
def collect (t : MerkleTree) : List Nat → List Digest
  | [] => []
  | index :: queue =>
    if index ≤ 1 then []
    else if index % 2 = 0 ∧ queue.head? = some (index + 1) then
      t.collect (queue.tail ++ [index / 2])
    else t.heapNode (index ^^^ 1) :: t.collect (queue ++ [index / 2])
termination_by queue => Merkle.weight queue
decreasing_by
  · cases queue <;> simp only [List.tail, Merkle.weight_append, Merkle.weight] <;> omega
  · simp only [Merkle.weight_append, Merkle.weight]
    omega

/-- The digests that an opening of the given leaves needs. Every index is judged by its range before
any is judged by its order. -/
def openAt (t : MerkleTree) (indices : List Nat) : Except MerkleError (List Digest) := do
  if indices.isEmpty then throw .noClaimedData
  if let some i := indices.find? (2 ^ t.depth ≤ ·) then throw (.indexOutOfRange i t.depth)
  if (indices.zip indices.tail).any fun p => p.2 ≤ p.1 then throw .unsortedIndices
  return t.collect (indices.map (2 ^ t.depth + ·))

end MerkleTree
end StarkVerifier
