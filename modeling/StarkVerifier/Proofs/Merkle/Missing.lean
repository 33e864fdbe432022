import Mathlib.Data.List.Sort
import Mathlib.Data.Nat.Bitwise
import StarkVerifier.Proofs.Merkle.Pairs

/-!
# Missing siblings

Which siblings the claimed leaves lack follows from the leaves alone: they are the nodes that stand above
no claimed leaf although their siblings do. Level by level they are the lone places of the claimed nodes
(`missing_succ`), and a verification takes one digest for each of them (`length_of_foldLevels`).
-/

namespace StarkVerifier

namespace Merkle

/-! ## Siblings -/

/-- The other child of the parent, in a level as in the heap. -/
def siblingPlace (i : Nat) : Nat := if i % 2 = 0 then i + 1 else i - 1

theorem siblingPlace_eq_iff {i k : Nat} : siblingPlace k = i ↔ k = siblingPlace i := by
  unfold siblingPlace
  split <;> split <;> omega

theorem siblingPlace_div_two (i : Nat) : siblingPlace i / 2 = i / 2 := by
  unfold siblingPlace
  split <;> omega

theorem siblingPlace_lt_iff {i m : Nat} : siblingPlace i < 2 * m ↔ i < 2 * m := by
  have := siblingPlace_div_two i
  omega

theorem siblingPlace_two_mul_add (m i : Nat) : siblingPlace (2 * m + i) = 2 * m + siblingPlace i := by
  unfold siblingPlace
  split <;> split <;> omega

theorem xor_one_eq (i : Nat) : i ^^^ 1 = siblingPlace i := by
  unfold siblingPlace
  split
  · next h => exact Nat.xor_one_of_even (Nat.even_iff.mpr h)
  · next h => exact Nat.xor_one_of_odd (Nat.odd_iff.mpr (by omega))

/-- A node that is not put together with the next one has no sibling among those behind it. -/
theorem siblingPlace_not_mem {i : Nat} {rest : List Nat} (hbehind : ∀ m ∈ rest, i < m)
    (hlone : i % 2 = 0 → i + 1 ∉ rest) : siblingPlace i ∉ rest := by
  intro hmem
  by_cases heven : i % 2 = 0
  · rw [siblingPlace, if_pos heven] at hmem
    exact hlone heven hmem
  · have hsibling : siblingPlace i = i - 1 := if_neg heven
    have := hbehind _ hmem
    omega

/-- The places of the siblings that the claimed nodes of a level lack. -/
def lonePlaces : List Nat → List Nat
  | [] => []
  | [i] => [siblingPlace i]
  | i :: j :: rest =>
    if i % 2 = 0 ∧ j = i + 1 then lonePlaces rest else siblingPlace i :: lonePlaces (j :: rest)

/-- One node without its sibling, and what the nodes behind it lack. -/
theorem mem_lone_cons {i k : Nat} {rest : List Nat} (hbehind : ∀ m ∈ rest, i < m)
    (hlone : i % 2 = 0 → i + 1 ∉ rest) :
    k = siblingPlace i ∨ (k ∉ rest ∧ siblingPlace k ∈ rest) ↔
      k ∉ i :: rest ∧ siblingPlace k ∈ i :: rest := by
  have hfree := siblingPlace_not_mem hbehind hlone
  have hself : siblingPlace i ≠ i := by
    unfold siblingPlace
    split <;> omega
  rw [List.mem_cons, List.mem_cons, not_or, siblingPlace_eq_iff]
  constructor
  · rintro (rfl | ⟨hk, hsibling⟩)
    · exact ⟨⟨hself, hfree⟩, Or.inl rfl⟩
    · refine ⟨⟨?_, hk⟩, Or.inr hsibling⟩
      rintro rfl
      exact hfree hsibling
  · rintro ⟨⟨-, hk⟩, rfl | hsibling⟩
    · exact Or.inl rfl
    · exact Or.inr ⟨hk, hsibling⟩

/-- A pair of siblings lacks nothing, and neither is lacked by the nodes behind it. -/
theorem mem_pair_cons {i k : Nat} {rest : List Nat} (heven : i % 2 = 0)
    (hbehind : ∀ m ∈ rest, i + 1 < m) :
    k ∉ rest ∧ siblingPlace k ∈ rest ↔
      k ∉ i :: (i + 1) :: rest ∧ siblingPlace k ∈ i :: (i + 1) :: rest := by
  have hleft : siblingPlace i = i + 1 := if_pos heven
  have hright : siblingPlace (i + 1) = i := siblingPlace_eq_iff.mpr hleft.symm
  have hi : i ∉ rest := fun hmem => by
    have := hbehind i hmem
    omega
  have hi' : i + 1 ∉ rest := fun hmem => Nat.lt_irrefl _ (hbehind _ hmem)
  simp only [List.mem_cons, not_or, siblingPlace_eq_iff (k := k), hleft, hright]
  constructor
  · rintro ⟨hk, hsibling⟩
    refine ⟨⟨?_, ?_, hk⟩, Or.inr (Or.inr hsibling)⟩
    · rintro rfl
      exact hi' (hleft ▸ hsibling)
    · rintro rfl
      exact hi (hright ▸ hsibling)
  · rintro ⟨⟨hki, hkj, hk⟩, hsibling⟩
    exact ⟨hk, (hsibling.resolve_left hkj).resolve_left hki⟩

theorem not_mem_behind {i j : Nat} {rest : List Nat} (h : (i :: j :: rest).Pairwise (· < ·))
    (hpair : ¬(i % 2 = 0 ∧ j = i + 1)) (heven : i % 2 = 0) : i + 1 ∉ j :: rest := by
  obtain ⟨hhead, htail⟩ := List.pairwise_cons.mp h
  have hij := hhead j List.mem_cons_self
  intro hmem
  rcases List.mem_cons.mp hmem with hj | hmem
  · exact hpair ⟨heven, hj.symm⟩
  · have := (List.pairwise_cons.mp htail).1 _ hmem
    omega

theorem mem_lonePlaces {places : List Nat} (h : places.Pairwise (· < ·)) {k : Nat} :
    k ∈ lonePlaces places ↔ k ∉ places ∧ siblingPlace k ∈ places := by
  fun_induction lonePlaces places with
  | case1 => simp
  | case2 i =>
      rw [← mem_lone_cons (by simp) (by simp)]
      simp
  | case3 i j rest hpair ih =>
      obtain ⟨heven, rfl⟩ := hpair
      obtain ⟨hbehind, hrest⟩ := List.pairwise_cons.mp (List.pairwise_cons.mp h).2
      rw [ih hrest]
      exact mem_pair_cons heven hbehind
  | case4 i j rest hpair ih =>
      obtain ⟨hbehind, htail⟩ := List.pairwise_cons.mp h
      rw [List.mem_cons, ih htail]
      exact mem_lone_cons hbehind (not_mem_behind h hpair)

theorem pairwise_lonePlaces {places : List Nat} (h : places.Pairwise (· < ·)) :
    (lonePlaces places).Pairwise (· < ·) := by
  fun_induction lonePlaces places with
  | case1 => exact List.Pairwise.nil
  | case2 i => exact List.pairwise_singleton _ _
  | case3 i j rest hpair ih =>
      exact ih (List.pairwise_cons.mp (List.pairwise_cons.mp h).2).2
  | case4 i j rest hpair ih =>
      obtain ⟨hbehind, htail⟩ := List.pairwise_cons.mp h
      rw [List.pairwise_cons]
      refine ⟨fun k hk => ?_, ih htail⟩
      -- siblings stand in the order of their parents, and the next parent is another one
      obtain ⟨-, hsibling⟩ := (mem_lonePlaces htail).mp hk
      have hlt := hbehind _ hsibling
      have hfree := not_mem_behind h hpair
      have hparent := siblingPlace_div_two i
      have hparent' := siblingPlace_div_two k
      have hne : i % 2 = 0 → siblingPlace k ≠ i + 1 := fun heven heq => hfree heven (heq ▸ hsibling)
      omega

theorem mem_parentPlaces {places : List Nat} {k : Nat} :
    k ∈ parentPlaces places ↔ ∃ i ∈ places, i / 2 = k := by
  constructor
  · intro hk
    obtain ⟨i, hi, rfl⟩ := exists_of_mem_parentPlaces k hk
    exact ⟨i, hi, rfl⟩
  · rintro ⟨i, hi, rfl⟩
    fun_induction parentPlaces places with
    | case1 => exact absurd hi List.not_mem_nil
    | case2 j => rw [List.mem_singleton.mp hi, List.mem_singleton]
    | case3 j l rest hpair ih =>
        rcases List.mem_cons.mp hi with rfl | hi
        · exact List.mem_cons_self
        rcases List.mem_cons.mp hi with rfl | hi
        · rw [List.mem_cons]
          omega
        · exact List.mem_cons_of_mem _ (ih hi)
    | case4 j l rest hpair ih =>
        rcases List.mem_cons.mp hi with rfl | hi
        · exact List.mem_cons_self
        · exact List.mem_cons_of_mem _ (ih hi)

/-! ## The heap -/

/-- All nodes, level by level from the leaves up and each level from left to right. -/
def heapOrder : Nat → List Nat
  | 0 => [1]
  | depth + 1 => List.range' (2 ^ (depth + 1)) (2 ^ (depth + 1)) ++ heapOrder depth

/-- A node is a claimed leaf or stands above one. -/
def Covers (depth : Nat) (indices : List Nat) (h : Nat) : Prop :=
  ∃ i ∈ indices, ∃ height ∈ List.range (depth + 1), (2 ^ depth + i) >>> height = h

instance (depth : Nat) (indices : List Nat) (h : Nat) : Decidable (Covers depth indices h) :=
  inferInstanceAs (Decidable (∃ i ∈ indices, ∃ height ∈ List.range (depth + 1), _))

/-- The nodes that are not covered although their siblings are. -/
def missing (depth : Nat) (indices : List Nat) : List Nat :=
  (heapOrder depth).filter fun h => ¬Covers depth indices h ∧ Covers depth indices (siblingPlace h)

theorem mem_heapOrder {depth h : Nat} : h ∈ heapOrder depth ↔ 1 ≤ h ∧ h < 2 ^ (depth + 1) := by
  induction depth with
  | zero =>
      rw [heapOrder, List.mem_singleton]
      omega
  | succ depth ih =>
      have := Nat.pow_succ 2 (depth + 1)
      have := Nat.two_pow_pos (depth + 1)
      rw [heapOrder, List.mem_append, List.mem_range'_1, ih]
      omega

theorem mem_missing {depth h : Nat} {indices : List Nat} :
    h ∈ missing depth indices ↔ (1 ≤ h ∧ h < 2 ^ (depth + 1)) ∧
      ¬Covers depth indices h ∧ Covers depth indices (siblingPlace h) := by
  rw [missing, List.mem_filter, mem_heapOrder, decide_eq_true_eq]

/-- A node comes before those of the levels above it and before those to its right. -/
def Precedes (h k : Nat) : Prop := k.log2 < h.log2 ∨ k.log2 = h.log2 ∧ h < k

theorem log2_two_pow_add {depth i : Nat} (h : i < 2 ^ depth) : (2 ^ depth + i).log2 = depth := by
  rw [Nat.log2_eq_iff (by omega), Nat.pow_succ]
  omega

theorem pairwise_heapOrder (depth : Nat) : (heapOrder depth).Pairwise Precedes := by
  induction depth with
  | zero => exact List.pairwise_singleton _ _
  | succ depth ih =>
      have hlog : ∀ h ∈ List.range' (2 ^ (depth + 1)) (2 ^ (depth + 1)), h.log2 = depth + 1 := by
        intro h hmem
        obtain ⟨hlow, hhigh⟩ := List.mem_range'_1.mp hmem
        obtain ⟨i, rfl⟩ := Nat.exists_eq_add_of_le hlow
        exact log2_two_pow_add (by omega)
      rw [heapOrder, List.pairwise_append]
      refine ⟨?_, ih, fun h hh k hk => ?_⟩
      · refine (List.pairwise_lt_range' 1).imp_of_mem fun {h k} hh hk hlt => Or.inr ⟨?_, hlt⟩
        rw [hlog h hh, hlog k hk]
      · obtain ⟨hpos, hlt⟩ := mem_heapOrder.mp hk
        refine Or.inl ?_
        rw [hlog h hh]
        exact (Nat.log2_lt (by omega)).mpr hlt

/-! ### From one level to the next -/

theorem covers_leaf_iff {depth k : Nat} {indices : List Nat} (hrange : ∀ i ∈ indices, i < 2 ^ depth) :
    Covers depth indices (2 ^ depth + k) ↔ k ∈ indices := by
  constructor
  · rintro ⟨i, hi, height, -, heq⟩
    cases height with
    | zero =>
        rw [Nat.shiftRight_zero] at heq
        rwa [← Nat.add_left_cancel heq]
    | succ height =>
        -- above the leaves all numbers are smaller
        have hle := Nat.div_le_self ((2 ^ depth + i) / 2) (2 ^ height)
        rw [Nat.shiftRight_eq_div_pow, Nat.pow_succ', ← Nat.div_div_eq_div_mul] at heq
        have := hrange i hi
        omega
  · intro hk
    exact ⟨k, hk, 0, List.mem_range.mpr depth.succ_pos, rfl⟩

theorem shiftRight_succ_leaf (depth i height : Nat) :
    (2 ^ (depth + 1) + i) >>> (height + 1) = (2 ^ depth + i / 2) >>> height := by
  rw [Nat.add_comm height 1, Nat.shiftRight_add, Nat.shiftRight_one]
  congr 1
  omega

/-- Above the leaves a node is covered through the parents of the claimed leaves. -/
theorem covers_succ_iff {depth h : Nat} {indices : List Nat} (hh : h < 2 ^ (depth + 1)) :
    Covers (depth + 1) indices h ↔ Covers depth (parentPlaces indices) h := by
  constructor
  · rintro ⟨i, hi, height, hheight, heq⟩
    cases height with
    | zero =>
        rw [Nat.shiftRight_zero] at heq
        omega
    | succ height =>
        rw [List.mem_range] at hheight
        refine ⟨i / 2, mem_parentPlaces.mpr ⟨i, hi, rfl⟩, height, List.mem_range.mpr (by omega), ?_⟩
        rw [← shiftRight_succ_leaf, heq]
  · rintro ⟨k, hk, height, hheight, heq⟩
    obtain ⟨i, hi, rfl⟩ := mem_parentPlaces.mp hk
    rw [List.mem_range] at hheight
    refine ⟨i, hi, height + 1, List.mem_range.mpr (by omega), ?_⟩
    rw [shiftRight_succ_leaf, heq]

theorem missing_zero (indices : List Nat) : missing 0 indices = [] := by
  rw [missing, heapOrder, List.filter_eq_nil_iff]
  intro h hmem
  obtain rfl := List.mem_singleton.mp hmem
  -- the root has no sibling
  rw [decide_eq_true_eq]
  rintro ⟨-, i, -, height, hheight, heq⟩
  obtain rfl : height = 0 := by simpa using hheight
  have hsibling : siblingPlace 1 = 0 := rfl
  rw [Nat.shiftRight_zero, hsibling] at heq
  omega

/-- Among the leaves it is the lone places that are missing. -/
theorem missing_leaf_iff {depth k : Nat} {indices : List Nat} (hascending : indices.Pairwise (· < ·))
    (hrange : ∀ i ∈ indices, i < 2 ^ (depth + 1)) :
    (¬Covers (depth + 1) indices (2 ^ (depth + 1) + k) ∧
      Covers (depth + 1) indices (siblingPlace (2 ^ (depth + 1) + k))) ↔ k ∈ lonePlaces indices := by
  have hsibling : siblingPlace (2 ^ (depth + 1) + k) = 2 ^ (depth + 1) + siblingPlace k := by
    rw [Nat.pow_succ', siblingPlace_two_mul_add]
  rw [hsibling, covers_leaf_iff hrange, covers_leaf_iff hrange, mem_lonePlaces hascending]

theorem lonePlaces_lt {depth : Nat} {places : List Nat} (hascending : places.Pairwise (· < ·))
    (hrange : ∀ i ∈ places, i < 2 ^ (depth + 1)) : ∀ k ∈ lonePlaces places, k < 2 ^ (depth + 1) := by
  intro k hk
  have hlt := hrange _ ((mem_lonePlaces hascending).mp hk).2
  rw [Nat.pow_succ'] at hlt ⊢
  exact siblingPlace_lt_iff.mp hlt

theorem missing_succ {depth : Nat} {indices : List Nat} (hascending : indices.Pairwise (· < ·))
    (hrange : ∀ i ∈ indices, i < 2 ^ (depth + 1)) :
    missing (depth + 1) indices =
      (lonePlaces indices).map (2 ^ (depth + 1) + ·) ++ missing depth (parentPlaces indices) := by
  rw [missing, heapOrder, List.filter_append]
  congr 1
  · -- both lists are ascending, so that their members decide
    have hlone : ((lonePlaces indices).map (2 ^ (depth + 1) + ·)).Pairwise (· < ·) := by
      rw [List.pairwise_map]
      exact (pairwise_lonePlaces hascending).imp fun hlt => Nat.add_lt_add_left hlt _
    refine ((List.pairwise_lt_range' 1).filter _).eq_of_mem_iff hlone fun h => ?_
    rw [List.mem_filter, List.mem_range'_1, decide_eq_true_eq, List.mem_map]
    constructor
    · rintro ⟨⟨hlow, -⟩, hh⟩
      obtain ⟨k, rfl⟩ := Nat.exists_eq_add_of_le hlow
      exact ⟨k, (missing_leaf_iff hascending hrange).mp hh, rfl⟩
    · rintro ⟨k, hk, rfl⟩
      have hlt := lonePlaces_lt hascending hrange k hk
      exact ⟨by omega, (missing_leaf_iff hascending hrange).mpr hk⟩
  · refine List.filter_congr fun h hmem => ?_
    have hlt := (mem_heapOrder.mp hmem).2
    have hsibling : siblingPlace h < 2 ^ (depth + 1) := by
      rw [Nat.pow_succ'] at hlt ⊢
      exact siblingPlace_lt_iff.mpr hlt
    rw [decide_eq_decide, covers_succ_iff hlt, covers_succ_iff hsibling]

/-! ## What verification takes -/

theorem length_of_pairUp {nodes : List (Nat × Digest)} {siblings rest : List Digest}
    {pairs : List SiblingPair} (h : pairUp nodes siblings = some (pairs, rest)) :
    siblings.length = (lonePlaces (nodes.map (·.1))).length + rest.length := by
  fun_induction pairUp nodes siblings generalizing pairs rest with
  | case1 siblings =>
      obtain ⟨-, rfl⟩ := Prod.mk.inj (Option.some.inj h)
      simp [lonePlaces]
  | case2 i d => simp at h
  | case3 i d s siblings =>
      obtain ⟨-, rfl⟩ := Prod.mk.inj (Option.some.inj h)
      simp [lonePlaces, Nat.add_comm]
  | case4 i d j e nodes siblings hpair ih =>
      obtain ⟨up, hup, -⟩ := map_cons_eq_some_iff.mp h
      simp only [List.map_cons, lonePlaces, if_pos hpair]
      exact ih hup
  | case5 i d j e nodes hpair => simp at h
  | case6 i d j e nodes hpair s siblings ih =>
      obtain ⟨up, hup, -⟩ := map_cons_eq_some_iff.mp h
      have htail := ih hup
      rw [List.map_cons] at htail
      simp only [List.map_cons, lonePlaces, if_neg hpair, List.length_cons, htail]
      omega

/-- On the way to the top one digest is taken for each missing node. -/
theorem length_of_foldLevels {depth : Nat} {nodes top : List (Nat × Digest)}
    {siblings rest : List Digest} (h : foldLevels depth nodes siblings = some (top, rest))
    (hascending : (nodes.map (·.1)).Pairwise (· < ·)) (hrange : ∀ i ∈ nodes.map (·.1), i < 2 ^ depth) :
    siblings.length = (missing depth (nodes.map (·.1))).length + rest.length := by
  induction depth generalizing nodes siblings with
  | zero =>
      obtain ⟨-, rfl⟩ := Prod.mk.inj (Option.some.inj h)
      rw [missing_zero, List.length_nil, Nat.zero_add]
  | succ depth ih =>
      obtain ⟨pairs, left, hpairs, htop⟩ := foldLevels_succ_eq_some_iff.mp h
      have hplaces : (pairs.map SiblingPair.parent).map (·.1) = parentPlaces (nodes.map (·.1)) := by
        rw [← place_pairUp hpairs, List.map_map]
        rfl
      have habove := ih htop (by rw [hplaces]; exact pairwise_parentPlaces hascending)
        (by rw [hplaces]; exact parentPlaces_lt hrange)
      rw [hplaces] at habove
      rw [length_of_pairUp hpairs, habove, missing_succ hascending hrange, List.length_append,
        List.length_map, Nat.add_assoc]

/-- A decommitment of another length is refused, whatever the root and the leaves. -/
theorem verify_of_length_ne {α : Type} [MerkleLeaf α] {depth : Nat} {indices : List Nat}
    (hdepth : depth ≤ maxDepth) (hne : indices ≠ []) (hascending : indices.Pairwise (· < ·))
    (hrange : ∀ i ∈ indices, i < 2 ^ depth) (root : Digest) (leaves : List α)
    {decommitment : List Digest} (hlength : decommitment.length ≠ (missing depth indices).length) :
    verify root depth indices leaves decommitment =
      if indices.length = leaves.length then .ok false
      else .error (.lengthMismatch indices.length leaves.length) := by
  by_cases hcount : indices.length = leaves.length
  · rw [if_pos hcount]
    have hchain := List.isChain_iff_pairwise.mpr hascending
    obtain ⟨answer, hanswer⟩ := exists_verify hne hcount hdepth hrange hchain root decommitment
    cases answer with
    | false => exact hanswer
    | true =>
        obtain ⟨-, -, -, -, -, htop⟩ := verify_eq_true_iff.mp hanswer
        have hplaces : (indices.zip (leaves.map MerkleLeaf.digest)).map (·.1) = indices :=
          List.map_fst_zip (by rw [List.length_map, hcount])
        have htaken := length_of_foldLevels htop (by rwa [hplaces]) (by rwa [hplaces])
        rw [hplaces, List.length_nil, Nat.add_zero] at htaken
        exact absurd htaken hlength
  · have hempty : ¬indices.isEmpty = true := fun h => hne (List.isEmpty_iff.mp h)
    rw [if_neg hcount, verify, if_neg hempty, if_pos hcount]
    rfl

end Merkle
end StarkVerifier
