import StarkVerifier.Proofs.Merkle.Opening

/-!
# Faults of a list of leaf indices

An opening refuses the lists of indices that its verification refuses, but the two look for faults in a
different order: an opening looks through the whole list for an index out of range before it judges the
order, a verification judges each index by its range and then by its order. They name the same fault
unless the order is broken before the first index out of range. Main statement:
`openAt_refuses_as_verify`.
-/

namespace StarkVerifier

namespace Merkle

/-- The indices before the first one that is out of range, and that index. -/
def FirstOutOfRange (depth : Nat) (indices front : List Nat) (i : Nat) : Prop :=
  (∃ rest, indices = front ++ i :: rest) ∧ (∀ j ∈ front, j < 2 ^ depth) ∧ 2 ^ depth ≤ i

/-- The order is broken before the first index that is out of range. -/
def OrderBrokenFirst (depth : Nat) (indices : List Nat) : Prop :=
  ∃ front i, FirstOutOfRange depth indices front i ∧ ¬front.IsChain (· < ·)

theorem FirstOutOfRange.ne_nil {depth i : Nat} {indices front : List Nat}
    (h : FirstOutOfRange depth indices front i) : indices ≠ [] := by
  obtain ⟨⟨rest, rfl⟩, -⟩ := h
  simp

/-- What is found in a whole list. -/
theorem find?_eq_some_iff {depth i : Nat} {indices : List Nat} :
    indices.find? (2 ^ depth ≤ ·) = some i ↔ ∃ front, FirstOutOfRange depth indices front i := by
  rw [List.find?_eq_some_iff_append]
  simp only [decide_eq_true_eq, Bool.not_eq_true', decide_eq_false_iff_not, Nat.not_le]
  constructor
  · rintro ⟨hi, front, rest, heq, hfront⟩
    exact ⟨front, ⟨rest, heq⟩, hfront, hi⟩
  · rintro ⟨front, ⟨rest, heq⟩, hfront, hi⟩
    exact ⟨hi, front, rest, heq, hfront⟩

theorem exists_firstOutOfRange {depth : Nat} {indices : List Nat} (h : ¬∀ i ∈ indices, i < 2 ^ depth) :
    ∃ front i, FirstOutOfRange depth indices front i := by
  cases hfind : indices.find? (2 ^ depth ≤ ·) with
  | none =>
      refine absurd (fun i hi => ?_) h
      simpa using List.find?_eq_none.mp hfind i hi
  | some i =>
      obtain ⟨front, hfirst⟩ := find?_eq_some_iff.mp hfind
      exact ⟨front, i, hfirst⟩

/-! ## Index by index -/

/-- Indices in range are judged by their order alone, those before them included. -/
theorem checkIndices_append {depth : Nat} {front : List Nat} (h : ∀ j ∈ front, j < 2 ^ depth)
    (previous : Option Nat) (rest : List Nat) :
    ∃ last, checkIndices depth previous (front ++ rest) =
      if (previous.toList ++ front).IsChain (· < ·) then checkIndices depth last rest
      else .error .unsortedIndices := by
  induction front generalizing previous with
  | nil =>
      refine ⟨previous, (if_pos ?_).symm⟩
      cases previous <;> simp
  | cons j front ih =>
      rw [List.forall_mem_cons] at h
      obtain ⟨last, hlast⟩ := ih h.2 (some j)
      refine ⟨last, ?_⟩
      rw [List.cons_append, checkIndices, if_neg (Nat.not_le.mpr h.1), hlast]
      cases previous with
      | none => exact if_neg (by simp)
      | some k =>
          have hpair : (k :: j :: front).IsChain (· < ·) ↔ k < j ∧ (j :: front).IsChain (· < ·) :=
            List.isChain_cons_cons
          by_cases hk : k < j
          · rw [if_neg (by simp [hk])]
            exact if_congr (hpair.trans (and_iff_right hk)).symm rfl rfl
          · rw [if_pos (by simp [Nat.le_of_not_lt hk])]
            exact (if_neg fun hchain => hk (hpair.mp hchain).1).symm

theorem checkIndices_of_inRange {depth : Nat} {indices : List Nat} (h : ∀ i ∈ indices, i < 2 ^ depth) :
    checkIndices depth none indices =
      if indices.IsChain (· < ·) then .ok () else .error .unsortedIndices := by
  obtain ⟨last, hlast⟩ := checkIndices_append h none []
  rwa [List.append_nil, Option.toList_none, List.nil_append] at hlast

theorem checkIndices_of_outOfRange {depth i : Nat} {indices front : List Nat}
    (h : FirstOutOfRange depth indices front i) :
    checkIndices depth none indices =
      if front.IsChain (· < ·) then .error (.indexOutOfRange i depth)
      else .error .unsortedIndices := by
  obtain ⟨⟨rest, rfl⟩, hfront, hi⟩ := h
  obtain ⟨last, hlast⟩ := checkIndices_append hfront none (i :: rest)
  rwa [checkIndices, if_pos hi, Option.toList_none, List.nil_append] at hlast

/-- Once a leaf is claimed for each index, only the indices themselves are refused. -/
theorem verify_eq_error_iff {α : Type} [MerkleLeaf α] {root : Digest} {depth : Nat}
    {indices : List Nat} {leaves : List α} {decommitment : List Digest} {e : MerkleError}
    (hne : indices ≠ []) (hcount : indices.length = leaves.length) (hdepth : depth ≤ maxDepth) :
    verify root depth indices leaves decommitment = .error e ↔
      checkIndices depth none indices = .error e := by
  have hempty : ¬indices.isEmpty = true := fun h => hne (List.isEmpty_iff.mp h)
  rw [verify, if_neg hempty, if_neg (not_not.mpr hcount), if_neg (Nat.not_lt.mpr hdepth)]
  cases checkIndices depth none indices <;> simp [bind, Except.bind, pure, Except.pure]

end Merkle

namespace MerkleTree

open Merkle (FirstOutOfRange OrderBrokenFirst)

/-! ## Both at once -/

theorem openAt_of_outOfRange {t : MerkleTree} {i : Nat} {indices front : List Nat}
    (h : FirstOutOfRange t.depth indices front i) :
    t.openAt indices = .error (.indexOutOfRange i t.depth) := by
  have hfind := Merkle.find?_eq_some_iff.mpr ⟨front, h⟩
  have hempty : ¬indices.isEmpty = true := fun hnil => h.ne_nil (List.isEmpty_iff.mp hnil)
  rw [openAt, if_neg hempty, hfind]
  rfl

variable {β : Type} [MerkleLeaf β] {t : MerkleTree} {indices : List Nat} {opened : List β}

theorem faults_of_orderBrokenFirst (hdepth : t.depth ≤ Merkle.maxDepth)
    (hcount : indices.length = opened.length) {front : List Nat} {i : Nat}
    (h : FirstOutOfRange t.depth indices front i) (hbroken : ¬front.IsChain (· < ·)) (root : Digest)
    (decommitment : List Digest) :
    t.openAt indices = .error (.indexOutOfRange i t.depth) ∧
      Merkle.verify root t.depth indices opened decommitment = .error .unsortedIndices := by
  refine ⟨openAt_of_outOfRange h, (Merkle.verify_eq_error_iff h.ne_nil hcount hdepth).mpr ?_⟩
  rw [Merkle.checkIndices_of_outOfRange h, if_neg hbroken]

theorem faults_agree (hdepth : t.depth ≤ Merkle.maxDepth) (hcount : indices.length = opened.length)
    (h : ¬OrderBrokenFirst t.depth indices) (root : Digest) (decommitment : List Digest)
    (e : MerkleError) :
    t.openAt indices = .error e ↔
      Merkle.verify root t.depth indices opened decommitment = .error e := by
  by_cases hne : indices = []
  · subst hne
    have hopen : t.openAt [] = .error .noClaimedData := rfl
    have hverify : Merkle.verify root t.depth [] opened decommitment = .error .noClaimedData := rfl
    rw [hopen, hverify, Except.error.injEq, Except.error.injEq]
  rw [Merkle.verify_eq_error_iff hne hcount hdepth]
  by_cases hrange : ∀ i ∈ indices, i < 2 ^ t.depth
  · rw [openAt_of_inRange hne hrange, Merkle.checkIndices_of_inRange hrange]
    split <;> simp
  · obtain ⟨front, i, hfirst⟩ := Merkle.exists_firstOutOfRange hrange
    have hchain : front.IsChain (· < ·) := not_not.mp fun hbroken => h ⟨front, i, hfirst, hbroken⟩
    rw [openAt_of_outOfRange hfirst, Merkle.checkIndices_of_outOfRange hfirst, if_pos hchain,
      Except.error.injEq, Except.error.injEq]

/-- An opening fails where the verification of as many leaves fails. The errors are the same unless the
order is broken before the first index out of range: then the opening names that index, and the
verification the order. -/
theorem openAt_refuses_as_verify {α : Type} [MerkleLeaf α] {leaves : List α}
    (ht : ofLeaves leaves = .ok t) (hcount : indices.length = opened.length) (root : Digest)
    (decommitment : List Digest) :
    ((∃ e, t.openAt indices = .error e) ↔
      ∃ e, Merkle.verify root t.depth indices opened decommitment = .error e) ∧
    ((∀ e, t.openAt indices = .error e ↔
        Merkle.verify root t.depth indices opened decommitment = .error e) ↔
      ¬OrderBrokenFirst t.depth indices) ∧
    ∀ front i, FirstOutOfRange t.depth indices front i → ¬front.IsChain (· < ·) →
      t.openAt indices = .error (.indexOutOfRange i t.depth) ∧
        Merkle.verify root t.depth indices opened decommitment = .error .unsortedIndices := by
  have hdepth := depth_le_maxDepth ht
  have hbroken {front : List Nat} {i : Nat} (hfirst : FirstOutOfRange t.depth indices front i)
      (horder : ¬front.IsChain (· < ·)) :=
    faults_of_orderBrokenFirst hdepth hcount hfirst horder root decommitment
  have hagree (h : ¬OrderBrokenFirst t.depth indices) :=
    faults_agree hdepth hcount h root decommitment
  refine ⟨?_, ⟨?_, hagree⟩, fun front i => hbroken⟩
  · by_cases h : OrderBrokenFirst t.depth indices
    · obtain ⟨front, i, hfirst, horder⟩ := h
      obtain ⟨hopen, hverify⟩ := hbroken hfirst horder
      exact iff_of_true ⟨_, hopen⟩ ⟨_, hverify⟩
    · exact exists_congr (hagree h)
  · rintro hsame ⟨front, i, hfirst, horder⟩
    obtain ⟨hopen, hverify⟩ := hbroken hfirst horder
    have hother := (hsame _).mp hopen
    rw [hverify] at hother
    simp at hother

/-- Of three indices the second leaves a tree of four leaves and the third goes down again: both name the
second. -/
theorem openAt_refuses_as_verify_range_first :
    let leaves : List Felt := [0, 1, 0, 1]
    let opened : List Felt := [0, 1, 1]
    ∃ t, ofLeaves leaves = .ok t ∧ [0, 4, 1].length = opened.length ∧
      ¬OrderBrokenFirst t.depth [0, 4, 1] ∧ t.openAt [0, 4, 1] = .error (.indexOutOfRange 4 2) ∧
      Merkle.verify t.root t.depth [0, 4, 1] opened [] = .error (.indexOutOfRange 4 2) := by
  intro leaves opened
  have ht : ofLeaves leaves = .ok (ofDigests 2 (leaves.map MerkleLeaf.digest)) :=
    ofLeaves_of_length rfl (by decide)
  have hcount : [0, 4, 1].length = opened.length := rfl
  have horder : ¬OrderBrokenFirst 2 [0, 4, 1] := by
    rintro ⟨front, i, ⟨⟨rest, heq⟩, hfront, -⟩, hbroken⟩
    rcases front with _ | ⟨j, _ | ⟨k, front⟩⟩
    · simp at hbroken
    · simp at hbroken
    · obtain ⟨-, rfl, -⟩ := by simpa using heq
      simp at hfront
  have hopen : MerkleTree.openAt (ofDigests 2 (leaves.map MerkleLeaf.digest)) [0, 4, 1] =
      .error (.indexOutOfRange 4 2) := rfl
  obtain ⟨-, hagree, -⟩ := openAt_refuses_as_verify ht hcount (root _) []
  exact ⟨_, ht, hcount, horder, hopen, (hagree.mpr horder _).mp hopen⟩

/-- Indices that go down before they leave the tree: an opening names the last, a verification their
order. -/
theorem openAt_ne_verify_descending :
    let leaves : List Felt := [0, 1, 0, 1]
    let opened : List Felt := [1, 0, 0]
    ∃ t, ofLeaves leaves = .ok t ∧ [1, 0, 4].length = opened.length ∧
      t.openAt [1, 0, 4] = .error (.indexOutOfRange 4 2) ∧
      Merkle.verify t.root t.depth [1, 0, 4] opened [] = .error .unsortedIndices ∧
      ¬∀ e, t.openAt [1, 0, 4] = .error e ↔
        Merkle.verify t.root t.depth [1, 0, 4] opened [] = .error e := by
  intro leaves opened
  have ht : ofLeaves leaves = .ok (ofDigests 2 (leaves.map MerkleLeaf.digest)) :=
    ofLeaves_of_length rfl (by decide)
  have hverify (root : Digest) :
      Merkle.verify root 2 [1, 0, 4] opened [] = .error .unsortedIndices := rfl
  refine ⟨_, ht, rfl, rfl, hverify _, fun hsame => ?_⟩
  have hother := (hverify _).symm.trans ((hsame (.indexOutOfRange 4 2)).mp rfl)
  simp at hother

end MerkleTree
end StarkVerifier
