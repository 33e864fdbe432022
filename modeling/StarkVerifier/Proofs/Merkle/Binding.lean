import StarkVerifier.Proofs.Merkle.Pairs
import StarkVerifier.Proofs.Merkle.Tree

/-!
# Openings are binding

Two openings of one root have the same digests at the places that both claim, at the same places they
have the same decommitment, and an opening of the root of a tree has the nodes of that tree, unless two
different messages that were hashed have one digest.
-/

namespace StarkVerifier

namespace Merkle

/-- Equal parents come from equal pairs. -/
theorem pairs_eq_of_parents_eq {pairs pairs' : List SiblingPair}
    (h : pairs.map SiblingPair.parent = pairs'.map SiblingPair.parent) :
    Collides maskedKeccak (pairs.map SiblingPair.message) (pairs'.map SiblingPair.message) ∨
      pairs = pairs' := by
  induction pairs generalizing pairs' with
  | nil => exact Or.inr (by simpa using h.symm)
  | cons s pairs ih =>
      cases pairs' with
      | nil => simp at h
      | cons s' pairs' =>
          simp only [List.map_cons, List.cons.injEq, SiblingPair.parent, Prod.mk.injEq] at h
          obtain ⟨⟨hplace, hhash⟩, htail⟩ := h
          rw [SiblingPair.nodeHash_eq, SiblingPair.nodeHash_eq] at hhash
          rcases Collides.or_eq (List.mem_cons_self (l := pairs.map SiblingPair.message))
            (List.mem_cons_self (l := pairs'.map SiblingPair.message)) hhash with hcollides | hmessage
          · exact Or.inl hcollides
          · rcases ih htail with hcollides | rfl
            · exact Or.inl (hcollides.cons _ _)
            · exact Or.inr (by rw [SiblingPair.eq_of_message_eq hplace hmessage])

/-- Two openings that come to one root have the same digest wherever both claim a node. -/
theorem digests_agree {depth : Nat} {root : Digest} {nodes nodes' : List (Nat × Digest)}
    {siblings siblings' rest rest' : List Digest}
    (h : foldLevels depth nodes siblings = some ([(0, root)], rest))
    (h' : foldLevels depth nodes' siblings' = some ([(0, root)], rest')) :
    Collides maskedKeccak (foldMessages depth nodes siblings)
        (foldMessages depth nodes' siblings') ∨
      ∀ n ∈ nodes, ∀ n' ∈ nodes', n.1 = n'.1 → n.2 = n'.2 := by
  induction depth generalizing nodes nodes' siblings siblings' with
  | zero =>
      simp only [foldLevels, Option.some.injEq, Prod.mk.injEq] at h h'
      obtain ⟨rfl, -⟩ := h
      obtain ⟨rfl, -⟩ := h'
      exact Or.inr (by simp)
  | succ depth ih =>
      obtain ⟨pairs, left, hpairs, htop⟩ := foldLevels_succ_eq_some_iff.mp h
      obtain ⟨pairs', left', hpairs', htop'⟩ := foldLevels_succ_eq_some_iff.mp h'
      rw [foldMessages_succ_eq hpairs, foldMessages_succ_eq hpairs']
      rcases ih htop htop' with hcollides | habove
      · exact Or.inl (hcollides.append_right _ _)
      apply or_iff_not_imp_left.mpr
      intro hfree n hn n' hn' hplace
      obtain ⟨s, hs, hsPlace, hmember⟩ := exists_pair_of_mem hpairs n hn
      obtain ⟨s', hs', hsPlace', hmember'⟩ := exists_pair_of_mem hpairs' n' hn'
      have hsame : s.place = s'.place := by rw [hsPlace, hsPlace', hplace]
      -- one parent, so one pair below it
      have hhash : maskedKeccak s.message = maskedKeccak s'.message :=
        habove s.parent (List.mem_map_of_mem hs) s'.parent (List.mem_map_of_mem hs') hsame
      have hmessage := (Collides.or_eq (List.mem_append_left _ (List.mem_map_of_mem hs))
        (List.mem_append_left _ (List.mem_map_of_mem hs')) hhash).resolve_left hfree
      rw [← hmember, ← hmember', SiblingPair.eq_of_message_eq hsame hmessage, hplace]

/-- Two openings of the same places that come to the same top, level by level from the top down. -/
theorem foldLevels_inj {depth : Nat} {nodes nodes' top : List (Nat × Digest)}
    {siblings siblings' rest : List Digest}
    (h : foldLevels depth nodes siblings = some (top, rest))
    (h' : foldLevels depth nodes' siblings' = some (top, rest))
    (hplaces : nodes.map (·.1) = nodes'.map (·.1)) :
    Collides maskedKeccak (foldMessages depth nodes siblings)
        (foldMessages depth nodes' siblings') ∨ nodes = nodes' ∧ siblings = siblings' := by
  induction depth generalizing nodes nodes' siblings siblings' with
  | zero =>
      simp only [foldLevels, Option.some.injEq, Prod.mk.injEq] at h h'
      exact Or.inr ⟨h.1.trans h'.1.symm, h.2.trans h'.2.symm⟩
  | succ depth ih =>
      obtain ⟨pairs, left, hpairs, htop⟩ := foldLevels_succ_eq_some_iff.mp h
      obtain ⟨pairs', left', hpairs', htop'⟩ := foldLevels_succ_eq_some_iff.mp h'
      have hplace (ps : List SiblingPair) :
          (ps.map SiblingPair.parent).map (·.1) = ps.map (·.place) := by
        simp [SiblingPair.parent, Function.comp_def]
      rw [foldMessages_succ_eq hpairs, foldMessages_succ_eq hpairs']
      -- equal tops give equal parents, equal parents give equal pairs
      have habove := ih htop htop' (by
        rw [hplace, hplace, place_pairUp hpairs, place_pairUp hpairs', hplaces])
      rcases habove with hcollides | ⟨hparents, rfl⟩
      · exact Or.inl (hcollides.append_right _ _)
      rcases pairs_eq_of_parents_eq hparents with hcollides | rfl
      · exact Or.inl (hcollides.append_left _ _)
      · exact Or.inr (pairUp_inj hpairs hpairs' hplaces)

/-! ## Two openings of one root -/

/-- The pairs of digests that are hashed on the way to the top. -/
def hashedPairs : Nat → List (Nat × Digest) → List Digest → List (Digest × Digest)
  | 0, _, _ => []
  | depth + 1, nodes, siblings =>
    match pairUp nodes siblings with
    | none => []
    | some (pairs, siblings) =>
      pairs.map (fun s => (s.left, s.right)) ++
        hashedPairs depth (pairs.map SiblingPair.parent) siblings

/-- A pair of the first list and a different one of the second have one parent digest. -/
def NodesCollide (pairs pairs' : List (Digest × Digest)) : Prop :=
  ∃ s ∈ pairs, ∃ s' ∈ pairs', s ≠ s' ∧ nodeHash s.1 s.2 = nodeHash s'.1 s'.2

theorem foldMessages_eq (depth : Nat) (nodes : List (Nat × Digest)) (siblings : List Digest) :
    foldMessages depth nodes siblings =
      (hashedPairs depth nodes siblings).map fun s => s.1.bytes ++ s.2.bytes := by
  induction depth generalizing nodes siblings with
  | zero => rfl
  | succ depth ih =>
      rw [foldMessages, hashedPairs]
      cases pairUp nodes siblings with
      | none => rfl
      | some up => simp [ih, SiblingPair.message, Function.comp_def]

/-- Messages of nodes that collide are those of pairs that do. -/
theorem nodesCollide_of_collides {pairs pairs' : List (Digest × Digest)}
    (h : Collides maskedKeccak (pairs.map fun s => s.1.bytes ++ s.2.bytes)
      (pairs'.map fun s => s.1.bytes ++ s.2.bytes)) : NodesCollide pairs pairs' := by
  obtain ⟨m, hm, m', hm', hne, heq⟩ := h
  obtain ⟨s, hs, rfl⟩ := List.mem_map.mp hm
  obtain ⟨s', hs', rfl⟩ := List.mem_map.mp hm'
  refine ⟨s, hs, s', hs', ?_, heq⟩
  rintro rfl
  exact hne rfl

/-- What an accepted opening says of a root cannot be said otherwise: another accepted opening has the
same digest at each place that both claim, and at the same places it has the same decommitment. -/
theorem openings_agree {α β : Type} [MerkleLeaf α] [MerkleLeaf β] {root : Digest} {depth : Nat}
    {indices indices' : List Nat} {leaves : List α} {leaves' : List β}
    {decommitment decommitment' : List Digest}
    (h : verify root depth indices leaves decommitment = .ok true)
    (h' : verify root depth indices' leaves' decommitment' = .ok true) :
    NodesCollide (hashedPairs depth (indices.zip (leaves.map MerkleLeaf.digest)) decommitment)
        (hashedPairs depth (indices'.zip (leaves'.map MerkleLeaf.digest)) decommitment') ∨
      (∀ i a a', (i, a) ∈ indices.zip leaves → (i, a') ∈ indices'.zip leaves' →
          MerkleLeaf.digest a = MerkleLeaf.digest a') ∧
        (indices = indices' → decommitment = decommitment') := by
  obtain ⟨-, hlength, -, -, -, htop⟩ := verify_eq_true_iff.mp h
  obtain ⟨-, hlength', -, -, -, htop'⟩ := verify_eq_true_iff.mp h'
  have hagree := digests_agree htop htop'
  have hinj := foldLevels_inj htop htop'
  rw [foldMessages_eq, foldMessages_eq] at hagree hinj
  rcases hagree with hcollides | hagree
  · exact Or.inl (nodesCollide_of_collides hcollides)
  apply or_iff_not_imp_left.mpr
  intro hfree
  constructor
  · intro i a a' hmem hmem'
    rw [List.zip_map_right, List.zip_map_right] at hagree
    exact hagree (i, MerkleLeaf.digest a) (List.mem_map_of_mem (f := Prod.map id MerkleLeaf.digest) hmem)
      (i, MerkleLeaf.digest a') (List.mem_map_of_mem (f := Prod.map id MerkleLeaf.digest) hmem') rfl
  · intro hindices
    have hplaces : (indices.zip (leaves.map MerkleLeaf.digest)).map (·.1) =
        (indices'.zip (leaves'.map MerkleLeaf.digest)).map (·.1) := by
      rw [List.map_fst_zip (by rw [List.length_map, hlength]),
        List.map_fst_zip (by rw [List.length_map, hlength']), hindices]
    exact ((hinj hplaces).resolve_left fun hcollides =>
      hfree (nodesCollide_of_collides hcollides)).2

/-- The places 1 and 2 of four leaves opened together, and place 2 alone. -/
theorem openings_agree_two_of_four :
    let pair := nodeHash .zero .zero
    let root := nodeHash pair pair
    verify root 2 [1, 2] [Digest.zero, .zero] [.zero, .zero] = .ok true ∧
      verify root 2 [2] [Digest.zero] [.zero, pair] = .ok true ∧
      (NodesCollide (hashedPairs 2 [(1, .zero), (2, .zero)] [.zero, .zero])
          (hashedPairs 2 [(2, .zero)] [.zero, pair]) ∨
        (∀ i a a', (i, a) ∈ [(1, Digest.zero), (2, .zero)] → (i, a') ∈ [(2, Digest.zero)] →
            MerkleLeaf.digest a = MerkleLeaf.digest a') ∧
          ([1, 2] = [2] → [Digest.zero, .zero] = [.zero, pair])) := by
  intro pair root
  have htwo : verify root 2 [1, 2] [Digest.zero, .zero] [.zero, .zero] = .ok true :=
    verify_eq_true_iff.mpr ⟨by decide, rfl, by decide, by decide, by decide, rfl⟩
  have hone : verify root 2 [2] [Digest.zero] [.zero, pair] = .ok true :=
    verify_eq_true_iff.mpr ⟨by decide, rfl, by decide, by decide, by decide, rfl⟩
  exact ⟨htwo, hone, openings_agree htwo hone⟩

end Merkle

namespace MerkleTree

/-- An opening of a tree's root has the tree's own nodes. -/
theorem nodes_of_foldLevels {depth : Nat} {level : List Digest} {root : Digest}
    (hroot : (parents^[depth] level)[0]? = some root) {nodes : List (Nat × Digest)}
    {siblings : List Digest}
    (h : Merkle.foldLevels depth nodes siblings = some ([(0, root)], [])) :
    Collides maskedKeccak (nodeMessages depth level) (Merkle.foldMessages depth nodes siblings) ∨
      ∀ n ∈ nodes, level[n.1]? = some n.2 := by
  induction depth generalizing level nodes siblings with
  | zero =>
      simp only [Merkle.foldLevels, Option.some.injEq, Prod.mk.injEq] at h
      obtain ⟨rfl, -⟩ := h
      exact Or.inr (by simpa using hroot)
  | succ depth ih =>
      obtain ⟨pairs, left, hpairs, htop⟩ := Merkle.foldLevels_succ_eq_some_iff.mp h
      rw [Merkle.foldMessages_succ_eq hpairs]
      have hroot' : (parents^[depth] (parents level))[0]? = some root := hroot
      rcases ih hroot' htop with hcollides | habove
      · exact Or.inl (hcollides.append_right _ _)
      apply or_iff_not_imp_left.mpr
      intro hfree n hn
      obtain ⟨s, hs, hplace, hmember⟩ := Merkle.exists_pair_of_mem hpairs n hn
      have hparent := habove s.parent (List.mem_map_of_mem hs)
      obtain ⟨l, r, hl, hr, hhash, hmem⟩ := parents_getElem? hparent
      -- the tree's two nodes below the parent are the two that the opening has hashed
      have hsame : (⟨s.place, l, r⟩ : SiblingPair) = s := by
        refine SiblingPair.eq_of_message_eq rfl ?_
        have hhash' : maskedKeccak (l.bytes ++ r.bytes) = maskedKeccak s.message := hhash.symm
        exact (Collides.or_eq (List.mem_append_left _ hmem)
          (List.mem_append_left _ (List.mem_map_of_mem hs)) hhash').resolve_left hfree
      have hl' : level[2 * s.place]? = some l := hl
      have hr' : level[2 * s.place + 1]? = some r := hr
      rw [← hsame] at hmember
      rw [← hmember]
      unfold SiblingPair.member
      split
      · next heven => rw [← hl', hplace, show 2 * (n.1 / 2) = n.1 by omega]
      · next hodd => rw [← hr', hplace, show 2 * (n.1 / 2) + 1 = n.1 by omega]

end MerkleTree
end StarkVerifier
