import Mathlib.Data.Finset.Card
import Mathlib.Data.List.Range
import StarkVerifier.Coin
import StarkVerifier.Proofs.Field.Encoding
import StarkVerifier.Proofs.Result

/-!
# The blocks a read takes

After a write the coin stands at the start of a tape of blocks, one for each count, and a read moves on
along it. How far is in the blocks themselves: an element is the first of them that is small enough, and
queries are drawn until enough indices have turned up. A read that ends within its attempts takes exactly
the blocks it needs.

Main statements: `readFelt_eq_skip`, `readFelts_eq_skip`, `readQueries_eq_skip`.
-/

namespace StarkVerifier.Coin

/-! ## What a block says -/

/-- The block that follows a digest at a count. -/
def blockAt (d : Digest) (i : Nat) : Digest := keccak (d.bytes ++ Bytes.ofNat 32 i)

/-- The number that a block spells when its top four bits are cleared. -/
def candidate (b : Digest) : Nat := Bytes.toNat b.bytes % 2 ^ 252

/-- The number that the last eight bytes of a block spell. -/
def lowWord (b : Digest) : Nat := Bytes.toNat b.bytes % 2 ^ 64

theorem toNat_and_mask (b : UInt8) : (b &&& 0x0f).toNat = b.toNat % 16 := by
  rw [UInt8.toNat_and]
  exact Nat.and_two_pow_sub_one_eq_mod b.toNat 4

/-- Clearing the top four bits of the first byte leaves a remainder of the whole. -/
theorem toNat_masked {b : UInt8} {rest : Bytes} (h : rest.length = 31) :
    Bytes.toNat ((b &&& 0x0f) :: rest) = Bytes.toNat (b :: rest) % 2 ^ 252 := by
  have hrest : Bytes.toNat rest < 256 ^ 31 := h ▸ Bytes.toNat_lt rest
  have hlow : 256 ^ 31 * (b.toNat % 16) + Bytes.toNat rest < 2 ^ 252 := by
    have hdigit : b.toNat % 16 < 16 := Nat.mod_lt _ (by decide)
    omega
  have hsplit : 256 ^ 31 * b.toNat + Bytes.toNat rest =
      2 ^ 252 * (b.toNat / 16) + (256 ^ 31 * (b.toNat % 16) + Bytes.toNat rest) := by
    have hdiv := Nat.div_add_mod b.toNat 16
    omega
  rw [Bytes.toNat_cons, Bytes.toNat_cons, h, toNat_and_mask, hsplit, Nat.mul_add_mod,
    Nat.mod_eq_of_lt hlow]

theorem felt?_eq_toOption (b : Digest) :
    ∃ bytes : Bytes, bytes.length = 32 ∧ Bytes.toNat bytes = candidate b ∧
      felt? b = (Felt.ofBytes bytes).toOption := by
  obtain ⟨bytes, hlength⟩ := b
  cases bytes with
  | nil => simp at hlength
  | cons top rest =>
      refine ⟨(top &&& 0x0f) :: rest, hlength, ?_, rfl⟩
      exact toNat_masked (Nat.succ.inj hlength)

theorem felt?_eq_some_iff {b : Digest} {x : Felt} : felt? b = some x ↔ x.toNat = candidate b := by
  obtain ⟨bytes, hlength, hcandidate, hfelt⟩ := felt?_eq_toOption b
  rw [hfelt, toOption_eq_some_iff, Felt.ofBytes_eq_ok_iff, ← hcandidate, ← Felt.toNat_toBytes]
  constructor
  · intro h
    rw [h]
  · intro h
    exact Bytes.eq_of_toNat_eq (hlength.trans x.length_toBytes.symm) h.symm

theorem felt?_eq_none_iff {b : Digest} : felt? b = none ↔ modulus ≤ candidate b := by
  obtain ⟨bytes, hlength, hcandidate, hfelt⟩ := felt?_eq_toOption b
  rw [Option.eq_none_iff_forall_ne_some, ← Nat.not_lt, ← hcandidate, ← Felt.exists_ofBytes_iff hlength,
    not_exists]
  simp only [hfelt, ne_eq, toOption_eq_some_iff]

theorem query_eq (bits : Nat) (b : Digest) : query bits b = lowWord b % 2 ^ bits := by
  have hlength : (b.bytes.drop 24).length = 8 := by rw [List.length_drop, b.length_bytes]
  have hlow : Bytes.toNat (b.bytes.drop 24) < 256 ^ 8 := hlength ▸ Bytes.toNat_lt _
  have hword : Bytes.toNat (b.bytes.drop 24) = lowWord b := by
    have hsplit := Bytes.toNat_append (b.bytes.take 24) (b.bytes.drop 24)
    rw [List.take_append_drop, hlength] at hsplit
    rw [lowWord, hsplit, Nat.mul_comm]
    exact (Nat.mul_add_mod_of_lt hlow).symm
  rw [query, Bytes.toNat_toWord (Nat.le_of_eq hlength), hword]
  rcases Nat.le_total bits 64 with hbits | hbits
  · rw [Nat.min_eq_left hbits]
  · -- from 64 bits on the mask leaves the word as it is
    have hword_lt : lowWord b < 2 ^ 64 := Nat.mod_lt _ (Nat.two_pow_pos 64)
    rw [Nat.min_eq_right hbits, Nat.mod_eq_of_lt hword_lt]
    exact (Nat.mod_eq_of_lt (Nat.lt_of_lt_of_le hword_lt (Nat.pow_le_pow_right Nat.two_pos hbits))).symm

/-! ## The tape -/

/-- The coin after `n` more blocks. -/
def skip (coin : Coin) (n : Nat) : Coin := ⟨coin.digest, coin.counter + n⟩

/-- The next `n` blocks. -/
def ahead (coin : Coin) (n : Nat) : List Digest :=
  (List.range' coin.counter n).map (blockAt coin.digest)

@[simp] theorem length_ahead (coin : Coin) (n : Nat) : (coin.ahead n).length = n := by simp [ahead]

theorem skip_skip (coin : Coin) (m n : Nat) : (coin.skip m).skip n = coin.skip (m + n) := by
  rw [skip, skip, skip, Nat.add_assoc]

theorem skip_next (coin : Coin) (n : Nat) : coin.next.skip n = coin.skip (n + 1) := by
  rw [Nat.add_comm, ← skip_skip]
  rfl

theorem ahead_one (coin : Coin) : coin.ahead 1 = [coin.block] := rfl

theorem ahead_add (coin : Coin) (m n : Nat) :
    coin.ahead (m + n) = coin.ahead m ++ (coin.skip m).ahead n := by
  rw [ahead, ← List.range'_append_1, List.map_append]
  rfl

theorem ahead_succ (coin : Coin) (n : Nat) :
    coin.ahead (n + 1) = coin.block :: coin.next.ahead n := rfl

theorem ahead_succ_last (coin : Coin) (n : Nat) :
    coin.ahead (n + 1) = coin.ahead n ++ [(coin.skip n).block] :=
  coin.ahead_add n 1

/-- A front of the blocks ahead is fewer of them. -/
theorem eq_ahead_of_prefix {coin : Coin} {n : Nat} {front : List Digest} (h : front <+: coin.ahead n) :
    front = coin.ahead front.length ∧ front.length ≤ n := by
  have hlength : front.length ≤ n := by simpa using h.length_le
  refine ⟨?_, hlength⟩
  have hsplit := coin.ahead_add front.length (n - front.length)
  rw [Nat.add_sub_cancel' hlength] at hsplit
  rw [hsplit] at h
  exact (List.prefix_of_prefix_length_le h (List.prefix_append _ _) (by simp)).eq_of_length (by simp)

/-! ## Elements -/

/-- A draw of `x`: blocks that are too large for an element, then one that spells `x`. -/
def Draws (x : Felt) (blocks : List Digest) : Prop :=
  ∃ refused last, blocks = refused ++ [last] ∧ (∀ b ∈ refused, modulus ≤ candidate b) ∧
    x.toNat = candidate last

theorem Draws.cons {x : Felt} {b : Digest} {blocks : List Digest} (hb : modulus ≤ candidate b)
    (h : Draws x blocks) : Draws x (b :: blocks) := by
  obtain ⟨refused, last, rfl, hrefused, hlast⟩ := h
  exact ⟨b :: refused, last, rfl, List.forall_mem_cons.mpr ⟨hb, hrefused⟩, hlast⟩

/-- A read has come to an element, or all its blocks are too large for one. -/
theorem readFeltWithin_cases (fuel : Nat) (coin : Coin) :
    (∃ x n, n ≤ fuel ∧ readFeltWithin fuel coin = .complete (x, coin.skip n) ∧ Draws x (coin.ahead n)) ∨
      (readFeltWithin fuel coin = .exhausted (0, coin.skip fuel) ∧
        ∀ b ∈ coin.ahead fuel, modulus ≤ candidate b) := by
  induction fuel generalizing coin with
  | zero => exact Or.inr ⟨rfl, fun b hb => absurd hb List.not_mem_nil⟩
  | succ fuel ih =>
      rw [readFeltWithin]
      cases hblock : felt? coin.block with
      | none =>
          have hrefused := felt?_eq_none_iff.mp hblock
          rw [ahead_succ, List.forall_mem_cons, ← skip_next]
          rcases ih coin.next with ⟨x, n, hn, hread, hdraws⟩ | ⟨hread, hblocks⟩
          · refine Or.inl ⟨x, n + 1, Nat.succ_le_succ hn, ?_, ?_⟩
            · rw [← skip_next]
              exact hread
            · rw [ahead_succ]
              exact hdraws.cons hrefused
          · exact Or.inr ⟨hread, hrefused, hblocks⟩
      | some x =>
          refine Or.inl ⟨x, 1, Nat.le_add_left 1 fuel, rfl, [], coin.block, rfl, ?_,
            felt?_eq_some_iff.mp hblock⟩
          intro b hb
          exact absurd hb List.not_mem_nil

theorem readFeltWithin_eq_exhausted_iff {fuel : Nat} {coin : Coin} :
    (∃ read, readFeltWithin fuel coin = .exhausted read) ↔
      ∀ b ∈ coin.ahead fuel, modulus ≤ candidate b := by
  rcases readFeltWithin_cases fuel coin with ⟨x, n, hn, hread, refused, last, hblocks, -, hlast⟩ | h
  · refine iff_of_false (by simp [hread]) fun hall => ?_
    -- the last block of the draw is an element
    have hmem : last ∈ coin.ahead fuel := by
      rw [← Nat.add_sub_cancel' hn, ahead_add, hblocks]
      simp
    exact Nat.not_lt.mpr (hall last hmem) (hlast ▸ x.toNat_lt)
  · exact iff_of_true ⟨_, h.1⟩ h.2

theorem readFelt_eq_skip (coin : Coin) :
    ∃ x n, coin.readFelt = (x, coin.skip n) ∧ (n < 2 ^ 64 → Draws x (coin.ahead n)) := by
  rcases readFeltWithin_cases attempts coin with ⟨x, n, -, hread, hdraws⟩ | ⟨hread, -⟩
  · exact ⟨x, n, congrArg Reading.read hread, fun _ => hdraws⟩
  · exact ⟨0, attempts, congrArg Reading.read hread, fun h => absurd h (Nat.lt_irrefl _)⟩

theorem readFelts_eq_skip (count : Nat) (coin : Coin) :
    ∃ (draws : List (Felt × List Digest)) (n : Nat),
      readFelts count coin = (draws.map Prod.fst, coin.skip n) ∧ draws.length = count ∧
        (n < 2 ^ 64 → draws.flatMap Prod.snd = coin.ahead n ∧ ∀ draw ∈ draws, Draws draw.1 draw.2) := by
  induction count generalizing coin with
  | zero => exact ⟨[], 0, rfl, rfl, fun _ => ⟨rfl, fun draw h => absurd h List.not_mem_nil⟩⟩
  | succ count ih =>
      obtain ⟨x, m, hfirst, hdraw⟩ := coin.readFelt_eq_skip
      obtain ⟨draws, n, hrest, hlength, hdraws⟩ := ih (coin.skip m)
      refine ⟨(x, coin.ahead m) :: draws, m + n, ?_, congrArg Nat.succ hlength, fun hn => ?_⟩
      · rw [readFelts, hfirst]
        simp only [hrest, skip_skip, List.map_cons]
      · obtain ⟨hblocks, heach⟩ := hdraws (by omega)
        constructor
        · rw [List.flatMap_cons, hblocks, ahead_add]
        · exact List.forall_mem_cons.mpr ⟨hdraw (by omega), heach⟩

/-! ## Distinct queries -/

theorem mem_insertAscending {q i : Nat} {picked : List Nat} :
    i ∈ insertAscending q picked ↔ i = q ∨ i ∈ picked := by
  fun_induction insertAscending q picked with
  | case1 => simp
  | case2 p rest hlt => simp
  | case3 rest hlt => simp
  | case4 p rest hlt hne ih =>
      rw [List.mem_cons, ih, List.mem_cons]
      exact or_left_comm

theorem pairwise_insertAscending {q : Nat} {picked : List Nat} (h : picked.Pairwise (· < ·)) :
    (insertAscending q picked).Pairwise (· < ·) := by
  fun_induction insertAscending q picked with
  | case1 => exact List.pairwise_singleton _ _
  | case2 p rest hlt =>
      have hhead := (List.pairwise_cons.mp h).1
      rw [List.pairwise_cons]
      refine ⟨fun i hi => ?_, h⟩
      rcases List.mem_cons.mp hi with rfl | hi
      · exact hlt
      · exact Nat.lt_trans hlt (hhead i hi)
  | case3 rest hlt => exact h
  | case4 p rest hlt hne ih =>
      obtain ⟨hhead, htail⟩ := List.pairwise_cons.mp h
      rw [List.pairwise_cons]
      refine ⟨fun i hi => ?_, ih htail⟩
      rcases mem_insertAscending.mp hi with rfl | hi
      · omega
      · exact hhead i hi

theorem length_insertAscending_le (q : Nat) (picked : List Nat) :
    (insertAscending q picked).length ≤ picked.length + 1 := by
  fun_induction insertAscending q picked with
  | case1 => exact Nat.le_refl _
  | case2 p rest hlt => exact Nat.le_refl _
  | case3 rest hlt => exact Nat.le_succ _
  | case4 p rest hlt hne ih => exact Nat.succ_le_succ ih

/-- The indices picked after some more blocks. -/
def pick (bits : Nat) (picked : List Nat) (blocks : List Digest) : List Nat :=
  blocks.foldl (fun picked b => insertAscending (query bits b) picked) picked

theorem mem_pick {bits : Nat} {picked : List Nat} {blocks : List Digest} {i : Nat} :
    i ∈ pick bits picked blocks ↔ i ∈ picked ∨ i ∈ blocks.map (query bits) := by
  induction blocks generalizing picked with
  | nil => simp [pick]
  | cons b blocks ih =>
      rw [pick, List.foldl_cons, ← pick, ih, mem_insertAscending, List.map_cons, List.mem_cons]
      tauto

theorem pairwise_pick {bits : Nat} {picked : List Nat} {blocks : List Digest}
    (h : picked.Pairwise (· < ·)) : (pick bits picked blocks).Pairwise (· < ·) := by
  induction blocks generalizing picked with
  | nil => exact h
  | cons b blocks ih => exact ih (pairwise_insertAscending h)

/-- As many indices are picked as there are among the blocks. -/
theorem length_pick (bits : Nat) (blocks : List Digest) :
    (pick bits [] blocks).length = (blocks.map (query bits)).toFinset.card := by
  have hnodup : (pick bits [] blocks).Nodup := (pairwise_pick List.Pairwise.nil).imp Nat.ne_of_lt
  rw [← List.toFinset_card_of_nodup hnodup]
  congr 1
  ext i
  simp [mem_pick]

/-- Drawing stops as soon as there are enough indices, or when the blocks run out before. -/
theorem pickWithin_cases (fuel count bits : Nat) (picked : List Nat) (coin : Coin) :
    ∃ n ≤ fuel, (∀ m < n, (pick bits picked (coin.ahead m)).length < count) ∧
      (pickWithin fuel count bits picked coin = .complete (pick bits picked (coin.ahead n), coin.skip n) ∧
          count ≤ (pick bits picked (coin.ahead n)).length ∨
        pickWithin fuel count bits picked coin = .exhausted (pick bits picked (coin.ahead n), coin.skip n) ∧
          n = fuel ∧ (pick bits picked (coin.ahead n)).length < count) := by
  induction fuel generalizing picked coin with
  | zero =>
      refine ⟨0, Nat.le_refl 0, fun m hm => absurd hm (Nat.not_lt_zero m), ?_⟩
      rw [pickWithin]
      by_cases hdone : count ≤ picked.length
      · exact Or.inl ⟨if_pos hdone, hdone⟩
      · exact Or.inr ⟨if_neg hdone, rfl, Nat.lt_of_not_le hdone⟩
  | succ fuel ih =>
      rw [pickWithin]
      by_cases hdone : count ≤ picked.length
      · exact ⟨0, Nat.zero_le _, fun m hm => absurd hm (Nat.not_lt_zero m), Or.inl ⟨if_pos hdone, hdone⟩⟩
      · obtain ⟨n, hn, hfew, hpick⟩ := ih (insertAscending (query bits coin.block) picked) coin.next
        rw [if_neg hdone]
        refine ⟨n + 1, Nat.succ_le_succ hn, fun m hm => ?_, ?_⟩
        · cases m with
          | zero => exact Nat.lt_of_not_le hdone
          | succ m => exact hfew m (by omega)
        · rw [ahead_succ, ← skip_next, Nat.succ_inj]
          exact hpick

theorem pickWithin_eq_exhausted_iff {fuel count bits : Nat} {coin : Coin} :
    (∃ read, pickWithin fuel count bits [] coin = .exhausted read) ↔
      (pick bits [] (coin.ahead fuel)).length < count := by
  obtain ⟨n, hn, -, ⟨hpick, henough⟩ | ⟨hpick, rfl, hfew⟩⟩ := pickWithin_cases fuel count bits [] coin
  · refine iff_of_false (by simp [hpick]) (Nat.not_lt.mpr (henough.trans ?_))
    -- later blocks take nothing away
    rw [length_pick, length_pick, ← Nat.add_sub_cancel' hn, ahead_add, List.map_append,
      List.toFinset_append]
    exact Finset.card_le_card Finset.subset_union_left
  · exact iff_of_true ⟨_, hpick⟩ hfew

theorem readQueries_eq_ok_iff {count bits : Nat} {coin : Coin} {drawn : List Nat × Coin} :
    coin.readQueries count bits = .ok drawn ↔
      bits ≤ 64 ∧ count ≤ 2 ^ bits ∧ (pickWithin attempts count bits [] coin).read = drawn := by
  unfold readQueries
  by_cases hbits : 64 < bits
  · rw [if_pos hbits]
    simp [Nat.not_le.mpr hbits]
  · rw [if_neg hbits]
    by_cases hmany : 2 ^ bits < count
    · rw [if_pos hmany]
      simp [Nat.not_le.mpr hmany]
    · rw [if_neg hmany, Except.ok.injEq]
      simp [Nat.le_of_not_lt hbits, Nat.le_of_not_lt hmany]

/-- The last block brings one index at most. -/
theorem length_pick_le_of_few {count bits n : Nat} {coin : Coin}
    (hfew : ∀ m < n, (pick bits [] (coin.ahead m)).length < count) :
    (pick bits [] (coin.ahead n)).length ≤ count := by
  cases n with
  | zero => exact Nat.zero_le count
  | succ m =>
      rw [ahead_succ_last, pick, List.foldl_append, ← pick]
      exact (length_insertAscending_le _ _).trans (hfew m (Nat.lt_succ_self m))

theorem readQueries_eq_skip {count bits : Nat} (coin : Coin) (hbits : bits ≤ 64)
    (hcount : count ≤ 2 ^ bits) :
    ∃ n, coin.readQueries count bits = .ok (pick bits [] (coin.ahead n), coin.skip n) ∧
      (∀ m < n, (pick bits [] (coin.ahead m)).length < count) ∧
        (n < 2 ^ 64 → (pick bits [] (coin.ahead n)).length = count) := by
  obtain ⟨n, -, hfew, hpick⟩ := pickWithin_cases attempts count bits [] coin
  refine ⟨n, readQueries_eq_ok_iff.mpr ⟨hbits, hcount, ?_⟩, hfew, fun hn => ?_⟩
  · rcases hpick with ⟨hpick, -⟩ | ⟨hpick, -⟩
    · exact congrArg Reading.read hpick
    · exact congrArg Reading.read hpick
  refine Nat.le_antisymm (length_pick_le_of_few hfew) ?_
  rcases hpick with ⟨-, henough⟩ | ⟨-, hall, -⟩
  · exact henough
  · exact absurd hall hn.ne

end StarkVerifier.Coin
