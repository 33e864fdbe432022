import StarkVerifier.Proofs.Merkle.Missing
import StarkVerifier.Proofs.Merkle.Rows

/-!
# Openings of a tree

An opening collects the digests of the missing siblings in the order in which the verification of the same
leaves takes them. As there, the queue holds the rest of one level and behind it the parents of that level
(`collect_level`). Main statements: `commit_open_verify`, `decommitment_canonical`.
-/

namespace StarkVerifier
namespace MerkleTree

open Merkle (foldLevel foldLevels parentPlaces siblingPlace lonePlaces missing Covers Precedes)

/-! ## What an opening collects -/

theorem collect_pair (t : MerkleTree) {index : Nat} (hinner : 1 < index) (heven : index % 2 = 0)
    (queue : List Nat) :
    t.collect (index :: (index + 1) :: queue) = t.collect (queue ++ [index / 2]) := by
  rw [collect, if_neg (Nat.not_le.mpr hinner), if_pos ⟨heven, rfl⟩, List.tail_cons]

theorem collect_alone (t : MerkleTree) {depth i : Nat} {queue : List Nat}
    (halone : i % 2 = 0 → queue.head? ≠ some (2 ^ (depth + 1) + i + 1)) :
    t.collect ((2 ^ (depth + 1) + i) :: queue) =
      t.heapNode (2 ^ (depth + 1) + siblingPlace i) :: t.collect (queue ++ [2 ^ depth + i / 2]) := by
  have hpos := Nat.two_pow_pos depth
  have hsibling : siblingPlace (2 ^ (depth + 1) + i) = 2 ^ (depth + 1) + siblingPlace i := by
    rw [Nat.pow_succ', Merkle.siblingPlace_two_mul_add]
  rw [collect, if_neg (by omega), if_neg fun h => halone (by omega) h.2, Merkle.xor_one_eq, hsibling,
    Merkle.numbered_div_two]

/-- A level that stands in front of nodes from above gives the siblings that it lacks, and its parents go
behind them. -/
theorem collect_level (t : MerkleTree) {depth : Nat} {places above : List Nat}
    (hplaces : ∀ i ∈ places, i < 2 ^ (depth + 1)) (habove : ∀ h ∈ above, h < 2 ^ (depth + 1)) :
    t.collect (places.map (2 ^ (depth + 1) + ·) ++ above) =
      (lonePlaces places).map (fun k => t.heapNode (2 ^ (depth + 1) + k)) ++
        t.collect (above ++ (parentPlaces places).map (2 ^ depth + ·)) := by
  -- a parent joins the nodes from above
  have hjoin {i : Nat} {above : List Nat} (hi : i < 2 ^ (depth + 1))
      (habove : ∀ h ∈ above, h < 2 ^ (depth + 1)) :
      ∀ h ∈ above ++ [2 ^ depth + i / 2], h < 2 ^ (depth + 1) := by
    simp only [List.forall_mem_append, List.forall_mem_singleton]
    exact ⟨habove, by omega⟩
  fun_induction parentPlaces places generalizing above with
  | case1 => simp [lonePlaces]
  | case2 i =>
      -- at the end of a level no node from above is taken for a sibling
      refine t.collect_alone fun _ hhead => ?_
      have := habove _ (List.mem_of_head? hhead)
      omega
  | case3 i j rest hpair ih =>
      obtain ⟨heven, rfl⟩ := hpair
      rw [List.forall_mem_cons, List.forall_mem_cons] at hplaces
      have hpos := Nat.two_pow_pos depth
      rw [List.map_cons, List.map_cons, List.cons_append, List.cons_append, ← Nat.add_assoc,
        collect_pair t (by omega) (by omega), Merkle.numbered_div_two, List.append_assoc,
        ih hplaces.2.2 (hjoin hplaces.1 habove), lonePlaces, if_pos ⟨heven, rfl⟩]
      simp
  | case4 i j rest hpair ih =>
      rw [List.forall_mem_cons] at hplaces
      have halone : i % 2 = 0 →
          ((j :: rest).map (2 ^ (depth + 1) + ·) ++ above).head? ≠ some (2 ^ (depth + 1) + i + 1) := by
        intro heven hhead
        have hj : 2 ^ (depth + 1) + j = 2 ^ (depth + 1) + i + 1 := by simpa using hhead
        exact hpair ⟨heven, by omega⟩
      rw [List.map_cons, List.cons_append, collect_alone t halone, List.append_assoc,
        ih hplaces.2 (hjoin hplaces.1 habove), lonePlaces, if_neg hpair]
      simp

/-- From claimed leaves in range an opening collects the missing nodes. -/
theorem collect_eq (t : MerkleTree) {depth : Nat} {places : List Nat}
    (hascending : places.Pairwise (· < ·)) (hplaces : ∀ i ∈ places, i < 2 ^ depth) :
    t.collect (places.map (2 ^ depth + ·)) = (missing depth places).map t.heapNode := by
  induction depth generalizing places with
  | zero =>
      rw [Merkle.missing_zero, List.map_nil]
      cases places with
      | nil => simp [collect]
      | cons i places =>
          obtain rfl : i = 0 := by simpa using hplaces i List.mem_cons_self
          rw [List.map_cons, collect, if_pos (Nat.le_refl 1)]
  | succ depth ih =>
      have hlevel := @collect_level t depth places [] hplaces (by simp)
      rw [List.append_nil, List.nil_append] at hlevel
      rw [hlevel, Merkle.missing_succ hascending hplaces, List.map_append, List.map_map,
        ih (Merkle.pairwise_parentPlaces hascending) (Merkle.parentPlaces_lt hplaces)]
      rfl

/-! ## What verification makes of it -/

variable {node : Nat → Digest}

/-- The nodes of a level at the given places. -/
def readAt (node : Nat → Digest) (depth : Nat) (places : List Nat) : List (Nat × Digest) :=
  places.map fun i => (i, node (2 ^ depth + i))

/-- A node with its sibling has its parent in the level above. -/
theorem parent_siblingPlace {depth i : Nat} (h : IsHeap (depth + 1) node)
    (hi : i < 2 ^ (depth + 1)) :
    Merkle.parent i (node (2 ^ (depth + 1) + i)) (node (2 ^ (depth + 1) + siblingPlace i)) =
      node (2 ^ depth + i / 2) := by
  have hpos := Nat.two_pow_pos depth
  rw [h (2 ^ depth + i / 2) (by omega) (by omega), Merkle.parent, siblingPlace]
  by_cases heven : i % 2 = 0
  · rw [if_pos heven, if_pos heven, show 2 * (2 ^ depth + i / 2) = 2 ^ (depth + 1) + i by omega]
    rfl
  · rw [if_neg heven, if_neg heven, show 2 * (2 ^ depth + i / 2) + 1 = 2 ^ (depth + 1) + i by omega,
      show 2 * (2 ^ depth + i / 2) = 2 ^ (depth + 1) + (i - 1) by omega]

theorem foldLevel_readAt {depth : Nat} {places : List Nat} (h : IsHeap (depth + 1) node)
    (hplaces : ∀ i ∈ places, i < 2 ^ (depth + 1)) (rest : List Digest) :
    foldLevel (readAt node (depth + 1) places)
        ((lonePlaces places).map (fun k => node (2 ^ (depth + 1) + k)) ++ rest) =
      some (readAt node depth (parentPlaces places), rest) := by
  fun_induction parentPlaces places with
  | case1 => rfl
  | case2 i =>
      have hparent := parent_siblingPlace h (hplaces i List.mem_cons_self)
      simp [readAt, foldLevel, lonePlaces, hparent]
  | case3 i j others hpair ih =>
      rw [List.forall_mem_cons, List.forall_mem_cons] at hplaces
      have hparent := parent_siblingPlace h hplaces.1
      rw [Merkle.parent, if_pos hpair.1, siblingPlace, if_pos hpair.1, ← hpair.2] at hparent
      have htail := ih hplaces.2.2
      simp only [readAt, List.map_cons, foldLevel, lonePlaces, if_pos hpair] at htail ⊢
      rw [htail, Option.map_some, hparent]
  | case4 i j others hpair ih =>
      rw [List.forall_mem_cons] at hplaces
      have hparent := parent_siblingPlace h hplaces.1
      have htail := ih hplaces.2
      simp only [readAt, List.map_cons, foldLevel, lonePlaces, if_neg hpair, List.cons_append]
        at htail ⊢
      rw [htail, Option.map_some, hparent]

/-- From nodes of a tree and the siblings they lack a verification comes to the root of the tree. -/
theorem foldLevels_missing {depth : Nat} {places : List Nat} (h : IsHeap depth node)
    (hne : places ≠ []) (hplaces : ∀ i ∈ places, i < 2 ^ depth)
    (hascending : places.Pairwise (· < ·)) :
    foldLevels depth (readAt node depth places) ((missing depth places).map node) =
      some ([(0, node 1)], []) := by
  induction depth generalizing places with
  | zero =>
      -- a level of one node has one place
      obtain ⟨i, rfl⟩ : ∃ i, places = [i] := by
        rcases places with _ | ⟨i, _ | ⟨j, places⟩⟩
        · exact absurd rfl hne
        · exact ⟨i, rfl⟩
        · have hi := hplaces i List.mem_cons_self
          have hj := hplaces j (List.mem_cons_of_mem _ List.mem_cons_self)
          rw [List.pairwise_cons] at hascending
          have := hascending.1 j List.mem_cons_self
          omega
      obtain rfl : i = 0 := by simpa using hplaces i List.mem_cons_self
      rw [Merkle.missing_zero]
      rfl
  | succ depth ih =>
      have hlevel := foldLevel_readAt h hplaces ((missing depth (parentPlaces places)).map node)
      have hmissing : (missing (depth + 1) places).map node =
          (lonePlaces places).map (fun k => node (2 ^ (depth + 1) + k)) ++
            (missing depth (parentPlaces places)).map node := by
        rw [Merkle.missing_succ hascending hplaces, List.map_append, List.map_map]
        rfl
      rw [hmissing, foldLevels, hlevel, Option.bind_some]
      exact ih h.of_succ (Merkle.parentPlaces_ne_nil hne) (Merkle.parentPlaces_lt hplaces)
        (Merkle.pairwise_parentPlaces hascending)

/-! ## Opening -/

theorem any_zip_tail_eq_false_iff {indices : List Nat} :
    ((indices.zip indices.tail).any fun p => p.2 ≤ p.1) = false ↔ indices.IsChain (· < ·) := by
  induction indices with
  | nil => simp
  | cons i indices ih =>
      cases indices with
      | nil => simp
      | cons j indices =>
          rw [List.isChain_cons_cons, ← ih, List.tail_cons, List.tail_cons, List.zip_cons_cons,
            List.any_cons, Bool.or_eq_false_iff, decide_eq_false_iff_not, Nat.not_le]

/-- Indices in range are judged by their order. -/
theorem openAt_of_inRange {t : MerkleTree} {indices : List Nat} (hne : indices ≠ [])
    (hrange : ∀ i ∈ indices, i < 2 ^ t.depth) :
    t.openAt indices =
      if indices.IsChain (· < ·) then .ok ((missing t.depth indices).map t.heapNode)
      else .error .unsortedIndices := by
  have hempty : ¬indices.isEmpty = true := fun h => hne (List.isEmpty_iff.mp h)
  have hfind : indices.find? (2 ^ t.depth ≤ ·) = none := by
    rw [List.find?_eq_none]
    intro i hi
    simpa using hrange i hi
  rw [openAt, if_neg hempty, hfind]
  by_cases hascending : indices.IsChain (· < ·)
  · have hany := any_zip_tail_eq_false_iff.mpr hascending
    rw [if_pos hascending, ← collect_eq t (List.isChain_iff_pairwise.mp hascending) hrange]
    simp [hany, pure, Except.pure]
  · have hany := any_zip_tail_eq_false_iff.not.mpr hascending
    rw [Bool.not_eq_false] at hany
    rw [if_neg hascending]
    simp only [hany, if_true]
    rfl

theorem openAt_eq_ok {t : MerkleTree} {indices : List Nat} (hne : indices ≠ [])
    (hrange : ∀ i ∈ indices, i < 2 ^ t.depth) (hascending : indices.Pairwise (· < ·)) :
    t.openAt indices = .ok ((missing t.depth indices).map t.heapNode) := by
  rw [openAt_of_inRange hne hrange, if_pos (List.isChain_iff_pairwise.mpr hascending)]

/-- Leaves that are read off a list at some places are the nodes of its tree there. -/
theorem zip_digests_eq_readAt {α : Type} [MerkleLeaf α] {leaves opened : List α} {depth : Nat}
    {indices : List Nat} (hlength : leaves.length = 2 ^ depth)
    (hopened : indices.map (leaves[·]?) = opened.map some) :
    indices.zip (opened.map MerkleLeaf.digest) =
      readAt (ofDigests depth (leaves.map MerkleLeaf.digest)).heapNode depth indices := by
  have hdigests : (leaves.map MerkleLeaf.digest).length = 2 ^ depth := by rwa [List.length_map]
  induction indices generalizing opened with
  | nil => rfl
  | cons i indices ih =>
      cases opened with
      | nil => simp at hopened
      | cons a opened =>
          simp only [List.map_cons, List.cons.injEq] at hopened
          simp only [List.map_cons, List.zip_cons_cons, readAt, heapNode_leaf hdigests,
            List.getElem?_map, hopened.1, Option.map_some, Option.getD_some, List.cons.injEq,
            true_and]
          have htail := ih hopened.2
          simpa only [readAt, heapNode_leaf hdigests, List.getElem?_map] using htail

/-- The leaves of a tree at ascending places are opened by what the tree gives for them. -/
theorem verify_openAt {α : Type} [MerkleLeaf α] {leaves opened : List α} {t : MerkleTree}
    {indices : List Nat} (ht : ofLeaves leaves = .ok t) (hne : indices ≠ [])
    (hrange : ∀ i ∈ indices, i < leaves.length) (hascending : indices.Pairwise (· < ·))
    (hopened : indices.map (leaves[·]?) = opened.map some) :
    ∃ decommitment, t.openAt indices = .ok decommitment ∧
      Merkle.verify t.root t.depth indices opened decommitment = .ok true := by
  obtain ⟨hlength, htree⟩ := eq_ofDigests ht
  rw [hlength] at hrange
  have hcount : indices.length = opened.length := by simpa using congrArg List.length hopened
  refine ⟨_, openAt_eq_ok hne hrange hascending, Merkle.verify_eq_true_iff.mpr
    ⟨hne, hcount, depth_le_maxDepth ht, hrange, List.isChain_iff_pairwise.mpr hascending, ?_⟩⟩
  rw [zip_digests_eq_readAt hlength hopened, ← htree]
  exact foldLevels_missing (isHeap_of_ofLeaves ht) hne hrange hascending

/-- A list of leaves whose length is a power of two that a word can count is committed to, opened at any
of its places in ascending order, and the opening is accepted. -/
theorem commit_open_verify {α : Type} [MerkleLeaf α] {leaves : List α} {indices : List Nat}
    (hpower : isTwoPower leaves.length = true) (hcount : leaves.length < 2 ^ 64) (hne : indices ≠ [])
    (hascending : indices.Pairwise (· < ·)) (hrange : ∀ i ∈ indices, i < leaves.length) :
    ∃ t decommitment, ofLeaves leaves = .ok t ∧ t.openAt indices = .ok decommitment ∧
      Merkle.verify t.root t.depth indices
        (indices.pmap (fun i (h : i < leaves.length) => leaves[i]) hrange) decommitment = .ok true := by
  have hdepth : leaves.length.log2 ≤ Merkle.maxDepth := by
    have hpos : leaves.length ≠ 0 := by
      rintro h
      rw [h] at hpower
      exact absurd hpower (by decide)
    have hlog := (Nat.log2_lt hpos).mpr hcount
    exact Nat.le_of_lt_succ hlog
  have ht := ofLeaves_eq_ok_iff.mpr ⟨hpower, hdepth, rfl⟩
  have hopened : indices.map (leaves[·]?) =
      (indices.pmap (fun i (h : i < leaves.length) => leaves[i]) hrange).map some := by
    rw [List.map_pmap, ← List.pmap_eq_map hrange]
    exact List.pmap_congr_left indices fun i _ h _ => List.getElem?_eq_getElem h
  obtain ⟨decommitment, hopen, hverify⟩ :=
    verify_openAt ht hne hrange hascending hopened
  exact ⟨_, decommitment, ht, hopen, hverify⟩

/-- Rows of one element, of two and of none, opened at the first and the last place of four. -/
theorem commit_open_verify_four_rows :
    let rows : List (List Felt) := [[0], [0, 1], [], [1]]
    isTwoPower rows.length = true ∧ rows.length < 2 ^ 64 ∧ [0, 3] ≠ [] ∧
      [0, 3].Pairwise (· < ·) ∧ (∀ i ∈ [0, 3], i < rows.length) ∧
      ∃ t decommitment, ofLeaves rows = .ok t ∧ t.openAt [0, 3] = .ok decommitment ∧
        Merkle.verify t.root t.depth [0, 3] [[(0 : Felt)], [1]] decommitment = .ok true := by
  intro rows
  have hpower : isTwoPower rows.length = true := by decide
  have hrange : ∀ i ∈ [0, 3], i < rows.length := by decide
  exact ⟨hpower, by decide, by decide, by decide, hrange,
    commit_open_verify hpower (by decide) (by decide) (by decide) hrange⟩

/-- An opening holds the digests of the nodes that stand above no claimed leaf although their siblings
do, each once, from the leaves up and from left to right. Verification at the same leaves takes no
decommitment of another length. -/
theorem decommitment_canonical {α : Type} [MerkleLeaf α] {leaves : List α} {t : MerkleTree}
    {indices : List Nat} (ht : ofLeaves leaves = .ok t) (hne : indices ≠ [])
    (hascending : indices.Pairwise (· < ·)) (hrange : ∀ i ∈ indices, i < leaves.length) :
    leaves.length = 2 ^ t.depth ∧
    (∀ (i : Nat) (hi : i < leaves.length), t.heapNode (2 ^ t.depth + i) = MerkleLeaf.digest leaves[i]) ∧
    (∀ h, 1 ≤ h → h < 2 ^ t.depth →
      t.heapNode h = Merkle.nodeHash (t.heapNode (2 * h)) (t.heapNode (2 * h + 1))) ∧
    (∀ h, h ∈ missing t.depth indices ↔ (1 ≤ h ∧ h < 2 ^ (t.depth + 1)) ∧
      ¬Covers t.depth indices h ∧ Covers t.depth indices (siblingPlace h)) ∧
    (missing t.depth indices).Pairwise Precedes ∧
    t.openAt indices = .ok ((missing t.depth indices).map t.heapNode) ∧
    ∀ {β : Type} [MerkleLeaf β] (root : Digest) (opened : List β) (decommitment : List Digest),
      decommitment.length ≠ (missing t.depth indices).length →
      Merkle.verify root t.depth indices opened decommitment =
        if indices.length = opened.length then .ok false
        else .error (.lengthMismatch indices.length opened.length) := by
  obtain ⟨hlength, htree⟩ := eq_ofDigests ht
  have hheap := isHeap_of_ofLeaves ht
  rw [hlength] at hrange
  refine ⟨hlength, fun i hi => ?_, hheap, fun h => Merkle.mem_missing,
    (Merkle.pairwise_heapOrder _).filter _, openAt_eq_ok hne hrange hascending,
    fun {β} _ root opened decommitment hne' => ?_⟩
  · have hleaf := @heapNode_leaf t.depth (leaves.map MerkleLeaf.digest) (by rwa [List.length_map]) i
    rwa [← htree, List.getElem?_map, List.getElem?_eq_getElem hi] at hleaf
  · exact Merkle.verify_of_length_ne (depth_le_maxDepth ht) hne hascending hrange root opened hne'

/-- A pair of siblings and a leaf alone among eight: three digests, one for each level. -/
theorem decommitment_canonical_three_of_eight :
    let leaves : List Felt := [0, 1, 0, 1, 0, 1, 0, 1]
    ∃ t, ofLeaves leaves = .ok t ∧ [1, 4, 5] ≠ [] ∧ [1, 4, 5].Pairwise (· < ·) ∧
      (∀ i ∈ [1, 4, 5], i < leaves.length) ∧
      t.openAt [1, 4, 5] = .ok ([8, 5, 7].map t.heapNode) ∧
      Merkle.verify t.root t.depth [1, 4, 5] [(1 : Felt), 0, 1] [t.root, t.root] = .ok false := by
  intro leaves
  have ht : ofLeaves leaves = .ok (ofDigests 3 (leaves.map MerkleLeaf.digest)) :=
    ofLeaves_of_length rfl (by decide)
  have hrange : ∀ i ∈ [1, 4, 5], i < leaves.length := by decide
  have hmissing : missing 3 [1, 4, 5] = [8, 5, 7] := by decide
  obtain ⟨-, -, -, -, -, hopen, hverify⟩ := decommitment_canonical ht (by decide) (by decide) hrange
  have hlength (d : Digest) : [d, d].length ≠ (missing 3 [1, 4, 5]).length := by
    simp [hmissing]
  refine ⟨_, ht, by decide, by decide, hrange, ?_, ?_⟩
  · rw [← hmissing]
    exact hopen
  · exact (hverify _ [(1 : Felt), 0, 1] _ (hlength _)).trans (if_pos rfl)

/-- A decommitment too short with no leaf at all is malformed, and not an opening that fails. -/
theorem decommitment_canonical_no_leaf :
    let leaves : List Felt := [0, 1]
    ∃ t, ofLeaves leaves = .ok t ∧ [0].Pairwise (· < ·) ∧ (∀ i ∈ [0], i < leaves.length) ∧
      ([] : List Digest).length ≠ (missing t.depth [0]).length ∧
      Merkle.verify t.root t.depth [0] ([] : List Felt) [] = .error (.lengthMismatch 1 0) ∧
      Merkle.verify t.root t.depth [0] ([] : List Felt) [] ≠ .ok false := by
  intro leaves
  have ht : ofLeaves leaves = .ok (ofDigests 1 (leaves.map MerkleLeaf.digest)) :=
    ofLeaves_of_length rfl (by decide)
  have hmissing : missing 1 [0] = [3] := by decide
  have hverify (root : Digest) :
      Merkle.verify root 1 [0] ([] : List Felt) [] = .error (.lengthMismatch 1 0) := rfl
  refine ⟨_, ht, by decide, by decide, ?_, hverify _, ?_⟩
  · show 0 ≠ (missing 1 [0]).length
    simp [hmissing]
  · exact (hverify _).trans_ne (by simp)

/-! ## Tables -/

/-- A root is that of the tree over the rows of a table. -/
def IsRootOf (root : Digest) (rows : List (List Felt)) : Prop :=
  ∃ t, ofLeaves rows = .ok t ∧ t.root = root

theorem exists_ofLeaves {rows : List (List Felt)} {depth : Nat} (hlength : rows.length = 2 ^ depth)
    (hdepth : depth ≤ Merkle.maxDepth) : ∃ t, ofLeaves rows = .ok t ∧ t.depth = depth :=
  ⟨_, ofLeaves_of_length hlength hdepth, rfl⟩

/-- The root of the tree over a table. -/
def rootOf (rows : List (List Felt)) : Digest :=
  match ofLeaves rows with
  | .ok t => t.root
  | .error _ => .zero

/-- What the tree over a table gives for the rows at some places. -/
def openRows (rows : List (List Felt)) (indices : List Nat) : List Digest :=
  match ofLeaves rows >>= (·.openAt indices) with
  | .ok digests => digests
  | .error _ => []

theorem isRootOf_rootOf {rows : List (List Felt)} {depth : Nat} (hlength : rows.length = 2 ^ depth)
    (hdepth : depth ≤ Merkle.maxDepth) : IsRootOf (rootOf rows) rows := by
  obtain ⟨t, ht, -⟩ := exists_ofLeaves hlength hdepth
  exact ⟨t, ht, by rw [rootOf, ht]⟩

theorem verify_openRows {rows opened : List (List Felt)} {depth : Nat} {indices : List Nat}
    (hlength : rows.length = 2 ^ depth) (hdepth : depth ≤ Merkle.maxDepth) (hne : indices ≠ [])
    (hrange : ∀ i ∈ indices, i < 2 ^ depth) (hascending : indices.Pairwise (· < ·))
    (hopened : indices.map (rows[·]?) = opened.map some) :
    Merkle.verify (rootOf rows) depth indices opened (openRows rows indices) = .ok true := by
  obtain ⟨t, ht, hdepthEq⟩ := exists_ofLeaves hlength hdepth
  obtain ⟨digests, hopen, hverify⟩ := verify_openAt ht hne (by rwa [hlength]) hascending hopened
  have hdigests : openRows rows indices = digests := by
    simp only [openRows, ht, bind, Except.bind, hopen]
  rw [hdigests, rootOf, ht, ← hdepthEq]
  exact hverify

end MerkleTree
end StarkVerifier
