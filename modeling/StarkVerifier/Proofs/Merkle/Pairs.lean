import StarkVerifier.Proofs.Collision
import StarkVerifier.Proofs.Merkle.Queue

/-!
# Pairs of siblings

One level of an opening in two steps: the claimed nodes and the siblings supplied for them are put
side by side, then each pair is hashed. What is hashed can then be named, and a level is determined by
its pairs.
-/

namespace StarkVerifier

/-- Two siblings, and the place of their parent in the level above. -/
structure SiblingPair where
  place : Nat
  left : Digest
  right : Digest
deriving DecidableEq

namespace SiblingPair

/-- A node at place `i` with the sibling supplied for it. -/
def ofNode (i : Nat) (d sibling : Digest) : SiblingPair :=
  if i % 2 = 0 then ⟨i / 2, d, sibling⟩ else ⟨i / 2, sibling, d⟩

def message (s : SiblingPair) : Bytes := s.left.bytes ++ s.right.bytes

def parent (s : SiblingPair) : Nat × Digest := (s.place, Merkle.nodeHash s.left s.right)

/-- The member at place `i` of a level. -/
def member (s : SiblingPair) (i : Nat) : Digest := if i % 2 = 0 then s.left else s.right

theorem place_ofNode (i : Nat) (d sibling : Digest) : (ofNode i d sibling).place = i / 2 := by
  unfold ofNode
  split <;> rfl

theorem member_ofNode (i : Nat) (d sibling : Digest) : (ofNode i d sibling).member i = d := by
  unfold ofNode member
  split <;> rfl

theorem parent_ofNode (i : Nat) (d sibling : Digest) :
    (ofNode i d sibling).parent = (i / 2, Merkle.parent i d sibling) := by
  unfold ofNode Merkle.parent
  split <;> rfl

theorem ofNode_inj {i : Nat} {d e s t : Digest} (h : ofNode i d s = ofNode i e t) :
    d = e ∧ s = t := by
  unfold ofNode at h
  split at h <;> simp_all

theorem nodeHash_eq (s : SiblingPair) :
    Merkle.nodeHash s.left s.right = maskedKeccak s.message := rfl

theorem eq_of_message_eq {s t : SiblingPair} (hplace : s.place = t.place)
    (h : s.message = t.message) : s = t := by
  have hlength : s.left.bytes.length = t.left.bytes.length := by
    rw [s.left.length_bytes, t.left.length_bytes]
  obtain ⟨hleft, hright⟩ := List.append_inj h hlength
  obtain ⟨place, ⟨left, hl⟩, ⟨right, hr⟩⟩ := s
  obtain ⟨place', ⟨left', hl'⟩, ⟨right', hr'⟩⟩ := t
  simp_all

end SiblingPair

namespace Merkle

/-- The pairs of a level and what is left of the decommitment. -/
def pairUp : List (Nat × Digest) → List Digest → Option (List SiblingPair × List Digest)
  | [], siblings => some ([], siblings)
  | [(i, d)], siblings =>
    match siblings with
    | [] => none
    | s :: siblings => some ([.ofNode i d s], siblings)
  | (i, d) :: (j, e) :: rest, siblings =>
    if i % 2 = 0 ∧ j = i + 1 then
      (pairUp rest siblings).map fun up => (.ofNode i d e :: up.1, up.2)
    else
      match siblings with
      | [] => none
      | s :: siblings =>
        (pairUp ((j, e) :: rest) siblings).map fun up => (.ofNode i d s :: up.1, up.2)

theorem foldLevel_eq (nodes : List (Nat × Digest)) (siblings : List Digest) :
    foldLevel nodes siblings =
      (pairUp nodes siblings).map fun up => (up.1.map SiblingPair.parent, up.2) := by
  fun_induction pairUp nodes siblings with
  | case1 siblings => rfl
  | case2 i d => rfl
  | case3 i d s siblings => simp [foldLevel, SiblingPair.parent_ofNode]
  | case4 i d j e rest siblings h ih =>
      simp only [foldLevel, if_pos h, ih]
      cases pairUp rest siblings with
      | none => rfl
      | some up => simp [SiblingPair.parent_ofNode, parent, h.1]
  | case5 i d j e rest h => simp [foldLevel, h]
  | case6 i d j e rest h s siblings ih =>
      rw [foldLevel, if_neg h]
      simp only [ih, Option.map_map]
      cases pairUp ((j, e) :: rest) siblings with
      | none => rfl
      | some up => simp [SiblingPair.parent_ofNode]

theorem place_pairUp {nodes : List (Nat × Digest)} {siblings rest : List Digest}
    {pairs : List SiblingPair} (h : pairUp nodes siblings = some (pairs, rest)) :
    pairs.map (·.place) = parentPlaces (nodes.map (·.1)) := by
  have hlevel := foldLevel_eq nodes siblings
  rw [h, Option.map_some] at hlevel
  have hplaces := places_foldLevel hlevel
  rwa [List.map_map] at hplaces

/-- Every claimed node is a member of the pair at its parent's place. -/
theorem exists_pair_of_mem {nodes : List (Nat × Digest)} {siblings rest : List Digest}
    {pairs : List SiblingPair} (h : pairUp nodes siblings = some (pairs, rest)) :
    ∀ n ∈ nodes, ∃ s ∈ pairs, s.place = n.1 / 2 ∧ s.member n.1 = n.2 := by
  fun_induction pairUp nodes siblings generalizing pairs rest with
  | case1 siblings => simp
  | case2 i d => simp at h
  | case3 i d s siblings =>
      obtain ⟨rfl, rfl⟩ := Prod.mk.inj (Option.some.inj h)
      simp [SiblingPair.place_ofNode, SiblingPair.member_ofNode]
  | case4 i d j e nodes siblings hpair ih =>
      obtain ⟨up, hup, rfl⟩ := map_cons_eq_some_iff.mp h
      obtain ⟨heven, rfl⟩ := hpair
      intro n hn
      rcases List.mem_cons.mp hn with rfl | hn
      · exact ⟨_, List.mem_cons_self, SiblingPair.place_ofNode .., SiblingPair.member_ofNode ..⟩
      rcases List.mem_cons.mp hn with rfl | hn
      · refine ⟨_, List.mem_cons_self, ?_, ?_⟩
        · rw [SiblingPair.place_ofNode]
          omega
        · have hodd : (i + 1) % 2 ≠ 0 := by omega
          simp [SiblingPair.ofNode, SiblingPair.member, heven, hodd]
      · obtain ⟨s, hs, hplace⟩ := ih hup n hn
        exact ⟨s, List.mem_cons_of_mem _ hs, hplace⟩
  | case5 i d j e nodes hpair => simp at h
  | case6 i d j e nodes hpair s siblings ih =>
      obtain ⟨up, hup, rfl⟩ := map_cons_eq_some_iff.mp h
      intro n hn
      rcases List.mem_cons.mp hn with rfl | hn
      · exact ⟨_, List.mem_cons_self, SiblingPair.place_ofNode .., SiblingPair.member_ofNode ..⟩
      · obtain ⟨s, hs, hplace⟩ := ih hup n hn
        exact ⟨s, List.mem_cons_of_mem _ hs, hplace⟩

/-- The pairs of a level, its places and what is left over determine its nodes and its siblings. -/
theorem pairUp_inj {nodes nodes' : List (Nat × Digest)} {siblings siblings' rest : List Digest}
    {pairs : List SiblingPair} (h : pairUp nodes siblings = some (pairs, rest))
    (h' : pairUp nodes' siblings' = some (pairs, rest))
    (hplaces : nodes.map (·.1) = nodes'.map (·.1)) : nodes = nodes' ∧ siblings = siblings' := by
  fun_induction pairUp nodes siblings generalizing pairs rest nodes' siblings' with
  | case1 siblings =>
      obtain ⟨rfl, rfl⟩ := Prod.mk.inj (Option.some.inj h)
      obtain rfl : nodes' = [] := by simpa using hplaces.symm
      simpa [pairUp] using h'.symm
  | case2 i d => simp at h
  | case3 i d s siblings =>
      obtain ⟨rfl, rfl⟩ := Prod.mk.inj (Option.some.inj h)
      obtain ⟨⟨_, d'⟩, nodes', rfl, rfl, htail⟩ := List.map_eq_cons_iff.mp hplaces.symm
      obtain rfl : nodes' = [] := by simpa using htail
      cases siblings' with
      | nil => simp [pairUp] at h'
      | cons s' siblings' =>
          simp only [pairUp, Option.some.injEq, Prod.mk.injEq, List.cons.injEq, and_true] at h'
          obtain ⟨rfl, rfl⟩ := SiblingPair.ofNode_inj h'.1
          rw [h'.2]
          exact ⟨rfl, rfl⟩
  | case4 i d j e nodes siblings hpair ih =>
      obtain ⟨up, hup, rfl⟩ := map_cons_eq_some_iff.mp h
      obtain ⟨⟨_, d'⟩, others, rfl, rfl, hothers⟩ := List.map_eq_cons_iff.mp hplaces.symm
      obtain ⟨⟨_, e'⟩, nodes', rfl, rfl, htail⟩ := List.map_eq_cons_iff.mp hothers
      simp only [pairUp, if_pos hpair] at h'
      obtain ⟨up', hup', heq⟩ := map_cons_eq_some_iff.mp h'
      obtain ⟨hhead, rfl⟩ := List.cons.inj heq
      -- the pair is claimed whole, so both of its nodes are read off it
      obtain ⟨rfl, rfl⟩ := SiblingPair.ofNode_inj hhead
      obtain ⟨rfl, rfl⟩ := ih hup hup' htail.symm
      exact ⟨rfl, rfl⟩
  | case5 i d j e nodes hpair => simp at h
  | case6 i d j e nodes hpair s siblings ih =>
      obtain ⟨up, hup, rfl⟩ := map_cons_eq_some_iff.mp h
      obtain ⟨⟨_, d'⟩, others, rfl, rfl, hothers⟩ := List.map_eq_cons_iff.mp hplaces.symm
      obtain ⟨⟨_, e'⟩, nodes', rfl, rfl, -⟩ := List.map_eq_cons_iff.mp hothers
      cases siblings' with
      | nil => simp [pairUp, hpair] at h'
      | cons s' siblings' =>
          simp only [pairUp, if_neg hpair] at h'
          obtain ⟨up', hup', heq⟩ := map_cons_eq_some_iff.mp h'
          obtain ⟨hhead, rfl⟩ := List.cons.inj heq
          obtain ⟨rfl, rfl⟩ := SiblingPair.ofNode_inj hhead
          obtain ⟨htail, rfl⟩ := ih hup hup' hothers.symm
          rw [htail]
          exact ⟨rfl, rfl⟩

/-- The messages of all the nodes that are hashed on the way to the top. -/
def foldMessages : Nat → List (Nat × Digest) → List Digest → List Bytes
  | 0, _, _ => []
  | depth + 1, nodes, siblings =>
    match pairUp nodes siblings with
    | none => []
    | some (pairs, siblings) =>
      pairs.map SiblingPair.message ++ foldMessages depth (pairs.map SiblingPair.parent) siblings

theorem foldMessages_succ_eq {depth : Nat} {nodes : List (Nat × Digest)}
    {siblings rest : List Digest} {pairs : List SiblingPair}
    (h : pairUp nodes siblings = some (pairs, rest)) :
    foldMessages (depth + 1) nodes siblings =
      pairs.map SiblingPair.message ++ foldMessages depth (pairs.map SiblingPair.parent) rest := by
  rw [foldMessages, h]

theorem foldLevels_succ_eq_some_iff {depth : Nat} {nodes : List (Nat × Digest)}
    {siblings : List Digest} {top : List (Nat × Digest) × List Digest} :
    foldLevels (depth + 1) nodes siblings = some top ↔
      ∃ pairs rest, pairUp nodes siblings = some (pairs, rest) ∧
        foldLevels depth (pairs.map SiblingPair.parent) rest = some top := by
  rw [foldLevels, foldLevel_eq]
  simp only [Option.bind_eq_some_iff, Option.map_eq_some_iff, Prod.exists, Prod.mk.injEq]
  constructor
  · rintro ⟨_, _, ⟨pairs, rest, hpairs, rfl, rfl⟩, htop⟩
    exact ⟨pairs, rest, hpairs, htop⟩
  · rintro ⟨pairs, rest, hpairs, htop⟩
    exact ⟨_, _, ⟨pairs, rest, hpairs, rfl, rfl⟩, htop⟩

end Merkle
end StarkVerifier
