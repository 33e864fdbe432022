import StarkVerifier.Merkle
import StarkVerifier.Proofs.TwoPower

/-!
# The nodes of a tree

A tree is hashed from its last inner node down to the root, and when a node's turn comes both its
children are there. Main statements: `heapNode_leaf`, `isHeap_ofDigests`; `iterate_parents` takes the
digests of the leaves up to the root level by level.
-/

namespace StarkVerifier
namespace MerkleTree

/-- Up to a depth every node is the hash of its two children. -/
def IsHeap (depth : Nat) (node : Nat → Digest) : Prop :=
  ∀ h, 1 ≤ h → h < 2 ^ depth → node h = Merkle.nodeHash (node (2 * h)) (node (2 * h + 1))

theorem IsHeap.of_succ {depth : Nat} {node : Nat → Digest} (h : IsHeap (depth + 1) node) :
    IsHeap depth node :=
  fun k hpos hk => h k hpos (by rw [Nat.pow_succ]; omega)

/-! ## The loop -/

/-- Nodes whose turn has passed stay as they are. -/
theorem hashNodes_getD_of_lt {count k : Nat} (hk : count < k) (nodes : Array Digest) :
    (hashNodes count nodes).getD k .zero = nodes.getD k .zero := by
  induction count generalizing nodes with
  | zero => rfl
  | succ count ih =>
      rw [hashNodes, ih (by omega)]
      simp only [Array.getD_eq_getD_getElem?]
      rw [Array.getElem?_setIfInBounds_ne (by omega)]

theorem hashNodes_getD {count k : Nat} {nodes : Array Digest} (hsize : count < nodes.size)
    (hpos : 1 ≤ k) (hk : k ≤ count) :
    (hashNodes count nodes).getD k .zero =
      Merkle.nodeHash ((hashNodes count nodes).getD (2 * k) .zero)
        ((hashNodes count nodes).getD (2 * k + 1) .zero) := by
  induction count generalizing nodes with
  | zero => omega
  | succ count ih =>
      rw [hashNodes]
      rcases Nat.lt_or_eq_of_le hk with hlt | rfl
      · exact ih (by rw [Array.size_setIfInBounds]; omega) (by omega)
      · -- the node is hashed now, from children that have been passed
        rw [hashNodes_getD_of_lt (by omega), hashNodes_getD_of_lt (by omega),
          hashNodes_getD_of_lt (by omega)]
        simp only [Array.getD_eq_getD_getElem?]
        rw [Array.getElem?_setIfInBounds_self_of_lt hsize, Option.getD_some,
          Array.getElem?_setIfInBounds_ne (by omega), Array.getElem?_setIfInBounds_ne (by omega)]

/-! ## The tree over a list of digests -/

variable {depth : Nat} {digests : List Digest}

theorem heapNode_leaf (hlength : digests.length = 2 ^ depth) (i : Nat) :
    (ofDigests depth digests).heapNode (2 ^ depth + i) = digests[i]?.getD .zero := by
  have hpos := Nat.two_pow_pos depth
  rw [heapNode, ofDigests, hashNodes_getD_of_lt (by omega), Array.getD_eq_getD_getElem?, hlength,
    Array.getElem?_append_right (by simp)]
  simp

theorem isHeap_ofDigests (hlength : digests.length = 2 ^ depth) :
    IsHeap depth (ofDigests depth digests).heapNode := by
  intro h hpos hlt
  have hsize : digests.length - 1 <
      (Array.replicate digests.length Digest.zero ++ digests.toArray).size := by
    simp only [Array.size_append, Array.size_replicate, List.size_toArray]
    omega
  exact hashNodes_getD hsize hpos (by omega)

/-! ## Levels -/

/-- The level above. -/
def parents : List Digest → List Digest
  | left :: right :: rest => Merkle.nodeHash left right :: parents rest
  | _ => []

/-- The messages of the nodes above a level. -/
def levelMessages : List Digest → List Bytes
  | left :: right :: rest => (left.bytes ++ right.bytes) :: levelMessages rest
  | _ => []

/-- The messages that are hashed when a tree is built over a level. -/
def nodeMessages : Nat → List Digest → List Bytes
  | 0, _ => []
  | depth + 1, level => levelMessages level ++ nodeMessages depth (parents level)

/-- A node is the hash of the two nodes below it. -/
theorem parents_getElem? {level : List Digest} {k : Nat} {d : Digest}
    (h : (parents level)[k]? = some d) :
    ∃ left right, level[2 * k]? = some left ∧ level[2 * k + 1]? = some right ∧
      d = Merkle.nodeHash left right ∧ left.bytes ++ right.bytes ∈ levelMessages level := by
  fun_induction parents level generalizing k with
  | case1 left right rest ih =>
      cases k with
      | zero =>
          rw [List.getElem?_cons_zero, Option.some.injEq] at h
          exact ⟨left, right, rfl, rfl, h.symm, List.mem_cons_self⟩
      | succ k =>
          obtain ⟨l, r, hl, hr, hd, hmem⟩ := ih (by rwa [List.getElem?_cons_succ] at h)
          refine ⟨l, r, ?_, ?_, hd, List.mem_cons_of_mem _ hmem⟩
          · rw [show 2 * (k + 1) = 2 * k + 1 + 1 by omega]
            exact hl
          · rw [show 2 * (k + 1) + 1 = 2 * k + 1 + 1 + 1 by omega]
            exact hr
  | case2 level hne => simp at h

/-- The nodes of a level, from left to right. -/
def level (node : Nat → Digest) (depth : Nat) : List Digest :=
  (List.range' (2 ^ depth) (2 ^ depth)).map node

theorem parents_range' (node : Nat → Digest) (first count : Nat) :
    parents ((List.range' (2 * first) (2 * count)).map node) =
      (List.range' first count).map fun h =>
        Merkle.nodeHash (node (2 * h)) (node (2 * h + 1)) := by
  induction count generalizing first with
  | zero => rfl
  | succ count ih =>
      rw [show 2 * (count + 1) = 2 * count + 1 + 1 by omega, List.range'_succ, List.range'_succ,
        List.range'_succ, List.map_cons, List.map_cons, List.map_cons, parents,
        show 2 * first + 1 + 1 = 2 * (first + 1) by omega, ih]

theorem parents_level {node : Nat → Digest} (h : IsHeap (depth + 1) node) :
    parents (level node (depth + 1)) = level node depth := by
  rw [level, Nat.pow_succ', parents_range', level]
  refine List.map_congr_left fun k hk => (h k ?_ ?_).symm
  all_goals
    have := List.mem_range'_1.mp hk
    have := Nat.two_pow_pos depth
    omega

theorem iterate_parents_level {node : Nat → Digest} (h : IsHeap depth node) :
    parents^[depth] (level node depth) = [node 1] := by
  induction depth with
  | zero => rfl
  | succ depth ih =>
      rw [Function.iterate_succ_apply, parents_level h]
      exact ih h.of_succ

theorem level_ofDigests (hlength : digests.length = 2 ^ depth) :
    level (ofDigests depth digests).heapNode depth = digests := by
  refine List.ext_getElem (by rw [level, List.length_map, List.length_range', hlength]) fun i _ hi => ?_
  simp only [level, List.getElem_map, List.getElem_range', Nat.one_mul]
  rw [heapNode_leaf hlength, List.getElem?_eq_getElem hi, Option.getD_some]

/-- A full level of digests has the root at its top. -/
theorem iterate_parents (hlength : digests.length = 2 ^ depth) :
    parents^[depth] digests = [(ofDigests depth digests).root] := by
  have htop := iterate_parents_level (isHeap_ofDigests hlength)
  rwa [level_ofDigests hlength] at htop

/-! ## Commitment -/

theorem ofLeaves_eq_ok_iff {α : Type} [MerkleLeaf α] {leaves : List α} {t : MerkleTree} :
    ofLeaves leaves = .ok t ↔
      isTwoPower leaves.length = true ∧ leaves.length.log2 ≤ Merkle.maxDepth ∧
        t = ofDigests leaves.length.log2 (leaves.map MerkleLeaf.digest) := by
  unfold ofLeaves
  by_cases hpower : isTwoPower leaves.length = true
  · by_cases hdepth : Merkle.maxDepth < leaves.length.log2
    · simp [hpower, hdepth]
    · simp [hpower, hdepth, Nat.not_lt.mp hdepth, eq_comm]
  · simp [hpower]

/-- A tree is the one over the digests of its leaves, and full. -/
theorem eq_ofDigests {α : Type} [MerkleLeaf α] {leaves : List α} {t : MerkleTree}
    (h : ofLeaves leaves = .ok t) :
    leaves.length = 2 ^ t.depth ∧ t = ofDigests t.depth (leaves.map MerkleLeaf.digest) := by
  obtain ⟨hpower, -, rfl⟩ := ofLeaves_eq_ok_iff.mp h
  exact ⟨isTwoPower_iff.mp hpower, rfl⟩

theorem depth_le_maxDepth {α : Type} [MerkleLeaf α] {leaves : List α} {t : MerkleTree}
    (h : ofLeaves leaves = .ok t) : t.depth ≤ Merkle.maxDepth := by
  obtain ⟨-, hdepth, rfl⟩ := ofLeaves_eq_ok_iff.mp h
  exact hdepth

theorem isHeap_of_ofLeaves {α : Type} [MerkleLeaf α] {leaves : List α} {t : MerkleTree}
    (h : ofLeaves leaves = .ok t) : IsHeap t.depth t.heapNode := by
  obtain ⟨hlength, htree⟩ := eq_ofDigests h
  rw [htree]
  exact isHeap_ofDigests (by rwa [List.length_map])

theorem depth_of_ofLeaves {α : Type} [MerkleLeaf α] {leaves : List α} {t : MerkleTree}
    (h : ofLeaves leaves = .ok t) (hlength : leaves.length = 2 ^ depth) : t.depth = depth :=
  Nat.pow_right_injective (Nat.le_refl 2) ((eq_ofDigests h).1.symm.trans hlength)

theorem ofLeaves_of_length {α : Type} [MerkleLeaf α] {leaves : List α}
    (hlength : leaves.length = 2 ^ depth) (hdepth : depth ≤ Merkle.maxDepth) :
    ofLeaves leaves = .ok (ofDigests depth (leaves.map MerkleLeaf.digest)) := by
  have hlog : leaves.length.log2 = depth := by rw [hlength, Nat.log2_two_pow]
  exact ofLeaves_eq_ok_iff.mpr ⟨by rw [hlength, isTwoPower_two_pow], by rwa [hlog], by rw [hlog]⟩

/-- The root is the top of the levels. -/
theorem root_of_ofLeaves {α : Type} [MerkleLeaf α] {leaves : List α} {t : MerkleTree}
    (h : ofLeaves leaves = .ok t) :
    parents^[t.depth] (leaves.map MerkleLeaf.digest) = [t.root] := by
  obtain ⟨hlength, htree⟩ := eq_ofDigests h
  have htop := iterate_parents (by rwa [List.length_map] : (leaves.map MerkleLeaf.digest).length = _)
  rwa [← htree] at htop

end MerkleTree
end StarkVerifier
