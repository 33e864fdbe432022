import Mathlib.Data.List.Chain
import StarkVerifier.Merkle
import StarkVerifier.Proofs.Result

/-!
# The queue, level by level

While a verification is at work, the queue holds the rest of one level and behind it the parents that
level has had so far. A level is therefore folded as a whole, its nodes from left to right, before the
first of the level above is taken. Main statements: `climb_level` for one level, `climb_eq` for all of
them, `verify_eq_true_iff`.
-/

namespace StarkVerifier
namespace Merkle

/-! ## Levels -/

/-- Parents of the claimed nodes of a level, by their places in it, and what is left of the decommitment. -/
def foldLevel : List (Nat × Digest) → List Digest → Option (List (Nat × Digest) × List Digest)
  | [], siblings => some ([], siblings)
  | [(i, d)], siblings =>
    match siblings with
    | [] => none
    | s :: siblings => some ([(i / 2, parent i d s)], siblings)
  | (i, d) :: (j, e) :: rest, siblings =>
    if i % 2 = 0 ∧ j = i + 1 then
      (foldLevel rest siblings).map fun up => ((i / 2, nodeHash d e) :: up.1, up.2)
    else
      match siblings with
      | [] => none
      | s :: siblings =>
        (foldLevel ((j, e) :: rest) siblings).map fun up => ((i / 2, parent i d s) :: up.1, up.2)

/-- The nodes at the top of `depth` levels, and what is left of the decommitment. -/
def foldLevels : Nat → List (Nat × Digest) → List Digest →
    Option (List (Nat × Digest) × List Digest)
  | 0, nodes, siblings => some (nodes, siblings)
  | depth + 1, nodes, siblings =>
    (foldLevel nodes siblings).bind fun up => foldLevels depth up.1 up.2

/-- The places of the parents of a level's claimed nodes. -/
def parentPlaces : List Nat → List Nat
  | [] => []
  | [i] => [i / 2]
  | i :: j :: rest =>
    if i % 2 = 0 ∧ j = i + 1 then i / 2 :: parentPlaces rest else i / 2 :: parentPlaces (j :: rest)

theorem places_foldLevel {nodes up : List (Nat × Digest)} {siblings left : List Digest}
    (h : foldLevel nodes siblings = some (up, left)) :
    up.map (·.1) = parentPlaces (nodes.map (·.1)) := by
  fun_induction foldLevel nodes siblings generalizing up left with
  | case1 siblings =>
      obtain ⟨rfl, rfl⟩ := Prod.mk.inj (Option.some.inj h)
      rfl
  | case2 i d => simp at h
  | case3 i d s siblings =>
      obtain ⟨rfl, rfl⟩ := Prod.mk.inj (Option.some.inj h)
      simp [parentPlaces]
  | case4 i d j e rest siblings hpair ih =>
      obtain ⟨above, habove, rfl⟩ := map_cons_eq_some_iff.mp h
      simp [parentPlaces, hpair, ih habove]
  | case5 i d j e rest hpair => simp at h
  | case6 i d j e rest hpair s siblings ih =>
      obtain ⟨above, habove, rfl⟩ := map_cons_eq_some_iff.mp h
      simpa [parentPlaces, hpair] using ih habove

theorem exists_of_mem_parentPlaces {places : List Nat} :
    ∀ k ∈ parentPlaces places, ∃ i ∈ places, k = i / 2 := by
  fun_induction parentPlaces places with
  | case1 => simp
  | case2 i => simp
  | case3 i j rest hpair ih =>
      intro k hk
      rcases List.mem_cons.mp hk with rfl | hk
      · exact ⟨i, List.mem_cons_self, rfl⟩
      · obtain ⟨m, hm, rfl⟩ := ih k hk
        exact ⟨m, List.mem_cons_of_mem _ (List.mem_cons_of_mem _ hm), rfl⟩
  | case4 i j rest hpair ih =>
      intro k hk
      rcases List.mem_cons.mp hk with rfl | hk
      · exact ⟨i, List.mem_cons_self, rfl⟩
      · obtain ⟨m, hm, rfl⟩ := ih k hk
        exact ⟨m, List.mem_cons_of_mem _ hm, rfl⟩

/-- No two claimed nodes that are not put together have one parent. -/
theorem pairwise_parentPlaces {places : List Nat} (h : places.Pairwise (· < ·)) :
    (parentPlaces places).Pairwise (· < ·) := by
  fun_induction parentPlaces places with
  | case1 => exact List.Pairwise.nil
  | case2 i => exact List.pairwise_singleton _ _
  | case3 i j rest hpair ih =>
      simp only [List.pairwise_cons] at h ⊢
      refine ⟨fun k hk => ?_, ih h.2.2⟩
      obtain ⟨m, hm, rfl⟩ := exists_of_mem_parentPlaces k hk
      have := h.2.1 m hm
      omega
  | case4 i j rest hpair ih =>
      simp only [List.pairwise_cons] at h ih ⊢
      refine ⟨fun k hk => ?_, ih h.2⟩
      obtain ⟨m, hm, rfl⟩ := exists_of_mem_parentPlaces k hk
      have hij := h.1 j List.mem_cons_self
      rcases List.mem_cons.mp hm with rfl | hm
      · omega
      · have := h.2.1 m hm
        omega

theorem parentPlaces_lt {depth : Nat} {places : List Nat} (h : ∀ i ∈ places, i < 2 ^ (depth + 1)) :
    ∀ k ∈ parentPlaces places, k < 2 ^ depth := by
  intro k hk
  obtain ⟨i, hi, rfl⟩ := exists_of_mem_parentPlaces k hk
  have := h i hi
  rw [Nat.pow_succ] at this
  omega

theorem parentPlaces_ne_nil {places : List Nat} (h : places ≠ []) : parentPlaces places ≠ [] := by
  fun_cases parentPlaces places with
  | case1 => exact absurd rfl h
  | case2 i => simp
  | case3 i j rest hpair => simp
  | case4 i j rest hpair => simp

/-! ## One level of the queue -/

/-- The nodes of a level under their numbers in the heap. -/
def numbered (depth : Nat) (nodes : List (Nat × Digest)) : List (Nat × Digest) :=
  nodes.map (Prod.map (2 ^ depth + ·) id)

theorem numbered_cons (depth i : Nat) (d : Digest) (nodes : List (Nat × Digest)) :
    numbered depth ((i, d) :: nodes) = (2 ^ depth + i, d) :: numbered depth nodes := rfl

theorem takeSibling_claimed {index : Nat} (heven : index % 2 = 0) (e : Digest)
    (queue : List (Nat × Digest)) (siblings : List Digest) :
    takeSibling index ((index + 1, e) :: queue) siblings = some (e, queue, siblings) := by
  simp [takeSibling, Option.filter, heven]

/-- A node whose sibling does not come next takes the next digest supplied. -/
theorem takeSibling_alone {index : Nat} {queue : List (Nat × Digest)}
    (halone : ∀ next ∈ queue.head?, index % 2 = 0 → next.1 ≠ index + 1) (siblings : List Digest) :
    takeSibling index queue siblings = siblings.head?.map fun s => (s, queue, siblings.tail) := by
  have hnone : (queue.head?.filter fun next => index % 2 = 0 ∧ next.1 = index + 1) = none := by
    rw [Option.filter_eq_none_iff]
    intro next hnext
    simpa using halone next hnext
  rw [takeSibling, hnone]

variable {root : Digest}

theorem climb_cons {index : Nat} (hne : index ≠ 1) (d : Digest) (queue : List (Nat × Digest))
    (siblings : List Digest) :
    climb root ((index, d) :: queue) siblings =
      (takeSibling index queue siblings).elim false fun taken =>
        climb root (taken.2.1 ++ [(index / 2, parent index d taken.1)]) taken.2.2 := by
  rw [climb, if_neg hne]
  split
  · next h => rw [h, Option.elim_none]
  · next h => rw [h, Option.elim_some]

/-- A claimed pair of siblings at the front gives way to its parent at the end. -/
theorem climb_pair {index : Nat} (heven : index % 2 = 0) (d e : Digest)
    (queue : List (Nat × Digest)) (siblings : List Digest) :
    climb root ((index, d) :: (index + 1, e) :: queue) siblings =
      climb root (queue ++ [(index / 2, nodeHash d e)]) siblings := by
  rw [climb_cons (by omega), takeSibling_claimed heven, Option.elim_some, parent, if_pos heven]

/-- A node alone takes the next digest supplied, and without one the climb ends. -/
theorem climb_alone {index : Nat} {queue : List (Nat × Digest)} (hne : index ≠ 1)
    (halone : ∀ next ∈ queue.head?, index % 2 = 0 → next.1 ≠ index + 1) (d : Digest)
    (siblings : List Digest) :
    climb root ((index, d) :: queue) siblings =
      siblings.head?.elim false fun s =>
        climb root (queue ++ [(index / 2, parent index d s)]) siblings.tail := by
  rw [climb_cons hne, takeSibling_alone halone]
  cases siblings <;> rfl

theorem numbered_div_two (depth i : Nat) : (2 ^ (depth + 1) + i) / 2 = 2 ^ depth + i / 2 := by omega

theorem numbered_mod_two (depth i : Nat) : (2 ^ (depth + 1) + i) % 2 = i % 2 := by omega

theorem parent_numbered (depth i : Nat) (d s : Digest) :
    parent (2 ^ (depth + 1) + i) d s = parent i d s := by
  rw [parent, parent, numbered_mod_two]

/-- A node of a level alone, whatever stands behind it. -/
theorem climb_numbered_alone {depth i : Nat} {queue : List (Nat × Digest)}
    (halone : ∀ next ∈ queue.head?, i % 2 = 0 → next.1 ≠ 2 ^ (depth + 1) + i + 1) (d : Digest)
    (siblings : List Digest) :
    climb root ((2 ^ (depth + 1) + i, d) :: queue) siblings =
      siblings.head?.elim false fun s =>
        climb root (queue ++ [(2 ^ depth + i / 2, parent i d s)]) siblings.tail := by
  have hne : 2 ^ (depth + 1) + i ≠ 1 := by
    have := Nat.two_pow_pos depth
    omega
  rw [climb_alone hne (by rwa [numbered_mod_two])]
  simp only [numbered_div_two, parent_numbered]

/-- A parent that joins the nodes from above is a node from above. -/
theorem lt_of_mem_append_parent {depth i : Nat} {above : List (Nat × Digest)}
    (hi : i < 2 ^ (depth + 1)) (habove : ∀ n ∈ above, n.1 < 2 ^ (depth + 1)) (d : Digest) :
    ∀ n ∈ above ++ [(2 ^ depth + i / 2, d)], n.1 < 2 ^ (depth + 1) := by
  intro n hn
  rcases List.mem_append.mp hn with hn | hn
  · exact habove n hn
  · rw [List.mem_singleton.mp hn]
    omega

/-- At the end of a level no node from above is taken for a sibling. -/
theorem ne_right_of_above {depth : Nat} {above : List (Nat × Digest)}
    (habove : ∀ n ∈ above, n.1 < 2 ^ (depth + 1)) (i : Nat) :
    ∀ next ∈ above.head?, i % 2 = 0 → next.1 ≠ 2 ^ (depth + 1) + i + 1 := by
  intro next hnext
  have := habove next (List.mem_of_head? hnext)
  omega

theorem ne_right_of_not_pair {m i j : Nat} (hpair : ¬(i % 2 = 0 ∧ j = i + 1)) {e : Digest}
    {queue : List (Nat × Digest)} :
    ∀ next ∈ ((m + j, e) :: queue).head?, i % 2 = 0 → next.1 ≠ m + i + 1 := by
  intro next hnext heven hj
  obtain rfl := Option.some.inj hnext
  exact hpair ⟨heven, by simpa [Nat.add_assoc] using hj⟩

/-- A level that stands in front of nodes from above is folded as a whole, and its parents go behind
them. -/
theorem climb_level {depth : Nat} {nodes above : List (Nat × Digest)} {siblings : List Digest}
    (hnodes : ∀ n ∈ nodes, n.1 < 2 ^ (depth + 1)) (habove : ∀ n ∈ above, n.1 < 2 ^ (depth + 1)) :
    climb root (numbered (depth + 1) nodes ++ above) siblings =
      (foldLevel nodes siblings).elim false fun up =>
        climb root (above ++ numbered depth up.1) up.2 := by
  fun_induction foldLevel nodes siblings generalizing above with
  | case1 siblings => simp [numbered]
  | case2 i d =>
      rw [numbered_cons]
      exact climb_numbered_alone (ne_right_of_above habove i) d []
  | case3 i d s siblings =>
      rw [numbered_cons]
      exact climb_numbered_alone (ne_right_of_above habove i) d (s :: siblings)
  | case4 i d j e rest siblings hpair ih =>
      obtain ⟨heven, rfl⟩ := hpair
      rw [List.forall_mem_cons, List.forall_mem_cons] at hnodes
      rw [numbered_cons, numbered_cons, List.cons_append, List.cons_append, ← Nat.add_assoc,
        climb_pair (by rwa [numbered_mod_two]), numbered_div_two, List.append_assoc,
        ih hnodes.2.2 (lt_of_mem_append_parent hnodes.1 habove _)]
      cases foldLevel rest siblings with
      | none => rfl
      | some up => simp [numbered_cons]
  | case5 i d j e rest hpair =>
      rw [numbered_cons, numbered_cons]
      exact climb_numbered_alone (ne_right_of_not_pair hpair) d []
  | case6 i d j e rest hpair s siblings ih =>
      rw [List.forall_mem_cons] at hnodes
      rw [numbered_cons, numbered_cons, List.cons_append, List.cons_append,
        climb_numbered_alone (ne_right_of_not_pair hpair), List.head?_cons, Option.elim_some, List.tail_cons,
        ← List.cons_append, ← numbered_cons, List.append_assoc,
        ih hnodes.2 (lt_of_mem_append_parent hnodes.1 habove _)]
      cases foldLevel ((j, e) :: rest) siblings with
      | none => rfl
      | some up => simp [numbered_cons]

/-! ## The whole climb -/

theorem lt_of_mem_foldLevel {depth : Nat} {nodes up : List (Nat × Digest)}
    {siblings left : List Digest} (h : foldLevel nodes siblings = some (up, left))
    (hnodes : ∀ n ∈ nodes, n.1 < 2 ^ (depth + 1)) : ∀ n ∈ up, n.1 < 2 ^ depth := by
  intro n hn
  have hplaces : ∀ i ∈ nodes.map (·.1), i < 2 ^ (depth + 1) := by simpa using hnodes
  apply parentPlaces_lt hplaces
  rw [← places_foldLevel h]
  exact List.mem_map_of_mem hn

/-- At the top there is one place, and the climb ends there. -/
theorem climb_top {nodes : List (Nat × Digest)} (hnodes : ∀ n ∈ nodes, n.1 < 2 ^ 0)
    (siblings : List Digest) :
    climb root (numbered 0 nodes) siblings = decide (nodes = [(0, root)] ∧ siblings = []) := by
  rcases nodes with _ | ⟨⟨i, d⟩, nodes⟩
  · simp [numbered, climb]
  · obtain rfl : i = 0 := by simpa using hnodes (i, d) List.mem_cons_self
    have hempty : (numbered 0 nodes).isEmpty = nodes.isEmpty := by simp [numbered]
    rw [numbered_cons, climb, if_pos rfl, hempty, Bool.eq_iff_iff]
    simp only [Bool.and_eq_true, List.isEmpty_iff, decide_eq_true_eq, List.cons.injEq, Prod.mk.injEq,
      true_and]
    tauto

/-- From leaves in range the queue comes to the root exactly when the levels do. -/
theorem climb_eq {depth : Nat} {nodes : List (Nat × Digest)} (hnodes : ∀ n ∈ nodes, n.1 < 2 ^ depth)
    (siblings : List Digest) :
    climb root (numbered depth nodes) siblings =
      decide (foldLevels depth nodes siblings = some ([(0, root)], [])) := by
  induction depth generalizing nodes siblings with
  | zero => simpa [foldLevels] using climb_top hnodes siblings
  | succ depth ih =>
      have hlevel := @climb_level root depth nodes [] siblings hnodes (by simp)
      rw [List.append_nil] at hlevel
      rw [hlevel, foldLevels]
      cases hup : foldLevel nodes siblings with
      | none => rfl
      | some up => exact ih (lt_of_mem_foldLevel hup hnodes) up.2

/-! ## Indices -/

theorem checkIndices_eq_ok_iff {depth : Nat} {previous : Option Nat} {indices : List Nat} :
    checkIndices depth previous indices = .ok () ↔
      (∀ i ∈ indices, i < 2 ^ depth) ∧ (previous.toList ++ indices).IsChain (· < ·) := by
  induction indices generalizing previous with
  | nil => cases previous <;> simp [checkIndices]
  | cons i rest ih =>
      rw [checkIndices]
      split
      · next h => simp; omega
      · next h =>
          split
          · next hany => cases previous <;> simp_all
          · next hany => rw [ih]; cases previous <;> simp_all

/-- The claimed leaves are the queue at the start. -/
theorem climb_claimed {α : Type} [MerkleLeaf α] {depth : Nat} {indices : List Nat}
    (hrange : ∀ i ∈ indices, i < 2 ^ depth) (root : Digest) (leaves : List α)
    (decommitment : List Digest) :
    climb root ((indices.map (2 ^ depth + ·)).zip (leaves.map MerkleLeaf.digest)) decommitment =
      decide (foldLevels depth (indices.zip (leaves.map MerkleLeaf.digest)) decommitment =
        some ([(0, root)], [])) := by
  rw [List.zip_map_left]
  exact climb_eq (fun n hn => hrange n.1 (List.of_mem_zip hn).1) decommitment

theorem verify_eq_true_iff {α : Type} [MerkleLeaf α] {root : Digest} {depth : Nat}
    {indices : List Nat} {leaves : List α} {decommitment : List Digest} :
    verify root depth indices leaves decommitment = .ok true ↔
      indices ≠ [] ∧ indices.length = leaves.length ∧ depth ≤ maxDepth ∧
        (∀ i ∈ indices, i < 2 ^ depth) ∧ indices.IsChain (· < ·) ∧
          foldLevels depth (indices.zip (leaves.map MerkleLeaf.digest)) decommitment =
            some ([(0, root)], []) := by
  unfold verify
  by_cases hempty : indices.isEmpty = true
  · rw [if_pos hempty]
    have hnil : indices = [] := List.isEmpty_iff.mp hempty
    simp [hnil, throw, throwThe, MonadExceptOf.throw, bind, Except.bind]
  rw [if_neg hempty]
  have hne : indices ≠ [] := fun hnil => hempty (List.isEmpty_iff.mpr hnil)
  by_cases hlength : indices.length ≠ leaves.length
  · rw [if_pos hlength]
    simp [hlength, throw, throwThe, MonadExceptOf.throw, bind, Except.bind]
  rw [if_neg hlength]
  by_cases hdepth : maxDepth < depth
  · rw [if_pos hdepth]
    simp [Nat.not_le.mpr hdepth, throw, throwThe, MonadExceptOf.throw, bind, Except.bind]
  rw [if_neg hdepth]
  simp only [bind_eq_ok_iff, exists_unit_iff, pure_eq_ok_iff, checkIndices_eq_ok_iff,
    Option.toList_none, List.nil_append, hne, ne_eq, not_false_eq_true, not_not.mp hlength,
    Nat.not_lt.mp hdepth, true_and, and_assoc]
  refine and_congr_right fun hrange => and_congr_right fun _ => ?_
  rw [climb_claimed hrange, decide_eq_true_eq]

/-- With ascending indices in range, a leaf for each and a depth that is supported, there is an answer. -/
theorem exists_verify {α : Type} [MerkleLeaf α] {depth : Nat} {indices : List Nat} {leaves : List α}
    (hne : indices ≠ []) (hlength : indices.length = leaves.length) (hdepth : depth ≤ maxDepth)
    (hrange : ∀ i ∈ indices, i < 2 ^ depth) (hascending : indices.IsChain (· < ·)) (root : Digest)
    (decommitment : List Digest) :
    ∃ answer, verify root depth indices leaves decommitment = .ok answer := by
  have hempty : ¬indices.isEmpty = true := fun h => hne (List.isEmpty_iff.mp h)
  have hindices : checkIndices depth none indices = .ok () :=
    checkIndices_eq_ok_iff.mpr ⟨hrange, hascending⟩
  rw [verify, if_neg hempty, if_neg (not_not.mpr hlength), if_neg (Nat.not_lt.mpr hdepth), hindices]
  exact ⟨_, rfl⟩

/-! ## Leaves that are all the same -/

/-- Every node at a height of a tree whose leaves have one digest. -/
def uniformNode (leaf : Digest) : Nat → Digest
  | 0 => leaf
  | height + 1 => nodeHash (uniformNode leaf height) (uniformNode leaf height)

theorem uniformNode_add (leaf : Digest) (m n : Nat) :
    uniformNode leaf (m + n) = uniformNode (uniformNode leaf m) n := by
  induction n with
  | zero => rfl
  | succ n ih => rw [← Nat.add_assoc, uniformNode, uniformNode, ih]

/-- Whichever way the path goes, each node is hashed with its like. -/
theorem foldLevels_uniform {depth i : Nat} (hi : i < 2 ^ depth) (leaf : Digest) (height : Nat) :
    foldLevels depth [(i, uniformNode leaf height)] ((List.range' height depth).map (uniformNode leaf)) =
      some ([(0, uniformNode leaf (height + depth))], []) := by
  induction depth generalizing i height with
  | zero =>
      obtain rfl : i = 0 := by simpa using hi
      rfl
  | succ depth ih =>
      have hparent : parent i (uniformNode leaf height) (uniformNode leaf height) =
          uniformNode leaf (height + 1) := by
        rw [parent, ite_self, uniformNode]
      rw [foldLevels, List.range'_succ, List.map_cons, foldLevel, hparent, Option.bind_some,
        ih (by omega), Nat.add_right_comm, Nat.add_assoc]

/-- One decommitment opens every leaf. -/
theorem verify_uniform {α : Type} [MerkleLeaf α] {depth i : Nat} (hdepth : depth ≤ maxDepth)
    (hi : i < 2 ^ depth) (leaf : α) :
    verify (uniformNode (MerkleLeaf.digest leaf) depth) depth [i] [leaf]
      ((List.range depth).map (uniformNode (MerkleLeaf.digest leaf))) = .ok true := by
  rw [verify_eq_true_iff]
  refine ⟨List.cons_ne_nil _ _, rfl, hdepth, by simpa using hi, List.isChain_singleton i, ?_⟩
  have hpath := foldLevels_uniform hi (MerkleLeaf.digest leaf) 0
  rw [Nat.zero_add] at hpath
  rw [List.range_eq_range']
  exact hpath

end Merkle
end StarkVerifier
