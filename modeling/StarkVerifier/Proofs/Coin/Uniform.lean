import Mathlib.Data.Int.CardIntervalMod
import Mathlib.Data.Set.Card
import StarkVerifier.Proofs.Coin.Blocks

/-!
# Blocks are shared out evenly

A block counts as the number it spells, and every number below `2 ^ 256` is spelled once. An element and
a query are remainders of it, modulo powers of two, so each is read from as many blocks as any other. What
makes it so for elements is that a remainder that is too large is refused and not reduced.

Main statement: `reads_share_blocks_evenly`.
-/

namespace StarkVerifier

/-! ## Remainders -/

/-- Over whole periods every remainder comes up once in each. -/
theorem card_filter_mod_eq {m r : Nat} (n : Nat) (hr : r < m) :
    ((Finset.range (m * n)).filter (· % m = r)).card = n := by
  have hm : 0 < m := Nat.zero_lt_of_lt hr
  have hcount := Nat.count_modEq_card (m * n) hm r
  rw [Nat.mul_div_cancel_left n hm, Nat.mul_mod_right, if_neg (Nat.not_lt_zero _), Nat.add_zero,
    Nat.count_eq_card_filter_range] at hcount
  simpa only [Nat.ModEq, Nat.mod_eq_of_lt hr] using hcount

theorem card_filter_mod_mem {m : Nat} {s : Finset Nat} (n : Nat) (hs : ∀ r ∈ s, r < m) :
    ((Finset.range (m * n)).filter (· % m ∈ s)).card = s.card * n := by
  have hfibre : ∀ r ∈ s, (((Finset.range (m * n)).filter (· % m ∈ s)).filter (· % m = r)).card = n := by
    intro r hr
    rw [Finset.filter_filter, Finset.filter_congr fun k _ => and_iff_right_of_imp fun h => h ▸ hr]
    exact card_filter_mod_eq n (hs r hr)
  have hmaps : ∀ k ∈ (Finset.range (m * n)).filter (· % m ∈ s), k % m ∈ s :=
    fun k hk => (Finset.mem_filter.mp hk).2
  rw [Finset.card_eq_sum_card_fiberwise hmaps, Finset.sum_congr rfl hfibre, Finset.sum_const, smul_eq_mul]

namespace Digest

/-! ## Blocks as numbers -/

theorem toNat_injective : Function.Injective fun b : Digest => Bytes.toNat b.bytes := by
  rintro ⟨bytes, hbytes⟩ ⟨others, hothers⟩ h
  rw [Digest.mk.injEq]
  exact Bytes.eq_of_toNat_eq (hbytes.trans hothers.symm) h

theorem toNat_lt (b : Digest) : Bytes.toNat b.bytes < 2 ^ 256 := by
  have h := Bytes.toNat_lt b.bytes
  rw [b.length_bytes] at h
  exact h.trans_eq (by norm_num)

theorem exists_toNat_eq {n : Nat} (h : n < 2 ^ 256) : ∃ b : Digest, Bytes.toNat b.bytes = n := by
  rw [show 2 ^ 256 = 256 ^ 32 by norm_num] at h
  exact ⟨⟨Bytes.ofNat 32 n, Bytes.length_ofNat 32 n⟩, Bytes.toNat_ofNat h⟩

/-- Blocks are counted by their numbers. -/
theorem ncard_of_toNat {p : Digest → Prop} {s : Finset Nat} (hs : ∀ n ∈ s, n < 2 ^ 256)
    (hp : ∀ b, p b ↔ Bytes.toNat b.bytes ∈ s) : {b | p b}.ncard = s.card := by
  have himage : (fun b : Digest => Bytes.toNat b.bytes) '' {b | p b} = s := by
    ext n
    constructor
    · rintro ⟨b, hb, rfl⟩
      exact (hp b).mp hb
    · intro hn
      obtain ⟨b, rfl⟩ := exists_toNat_eq (hs n hn)
      exact ⟨b, (hp b).mpr hn, rfl⟩
  rw [← Set.ncard_image_of_injective _ toNat_injective, himage, Set.ncard_coe_finset]

theorem card_eq : Nat.card Digest = 2 ^ 256 := by
  have hcard := ncard_of_toNat (p := fun _ => True) (fun n => Finset.mem_range.mp)
    fun b => (iff_true_intro (Finset.mem_range.mpr b.toNat_lt)).symm
  rwa [Set.ofPred_true, Set.ncard_univ, Finset.card_range] at hcard

/-- Of the blocks with a given remainder there is one for each value of the bits above it. -/
theorem ncard_of_mod {p : Digest → Prop} {bits : Nat} {s : Finset Nat} (hbits : bits ≤ 256)
    (hs : ∀ r ∈ s, r < 2 ^ bits) (hp : ∀ b, p b ↔ Bytes.toNat b.bytes % 2 ^ bits ∈ s) :
    {b | p b}.ncard = s.card * 2 ^ (256 - bits) := by
  have hperiods : 2 ^ 256 = 2 ^ bits * 2 ^ (256 - bits) := by
    rw [← Nat.pow_add, Nat.add_sub_cancel' hbits]
  have hnumbers : ∀ b, p b ↔ Bytes.toNat b.bytes ∈ (Finset.range (2 ^ 256)).filter (· % 2 ^ bits ∈ s) := by
    intro b
    rw [hp, Finset.mem_filter, and_iff_right (Finset.mem_range.mpr b.toNat_lt)]
  rw [ncard_of_toNat (fun n hn => Finset.mem_range.mp (Finset.mem_filter.mp hn).1) hnumbers, hperiods,
    card_filter_mod_mem _ hs]

theorem ncard_of_mod_eq {p : Digest → Prop} {bits r : Nat} (hbits : bits ≤ 256) (hr : r < 2 ^ bits)
    (hp : ∀ b, p b ↔ Bytes.toNat b.bytes % 2 ^ bits = r) : {b | p b}.ncard = 2 ^ (256 - bits) := by
  have hmem : ∀ k ∈ ({r} : Finset Nat), k < 2 ^ bits := by
    intro k hk
    rwa [Finset.mem_singleton.mp hk]
  rw [ncard_of_mod hbits hmem fun b => (hp b).trans Finset.mem_singleton.symm, Finset.card_singleton,
    Nat.one_mul]

end Digest

namespace Coin

/-! ## Elements and queries -/

theorem ncard_felt?_eq_some (x : Felt) : {b | felt? b = some x}.ncard = 16 := by
  have hx : x.toNat < 2 ^ 252 := x.toNat_lt.trans (by decide)
  exact Digest.ncard_of_mod_eq (by decide) hx fun b => felt?_eq_some_iff.trans eq_comm

theorem ncard_felt?_eq_none : {b | felt? b = none}.ncard = 2 ^ 256 - 16 * modulus := by
  have hlarge (b : Digest) : felt? b = none ↔ candidate b ∈ Finset.Ico modulus (2 ^ 252) := by
    rw [felt?_eq_none_iff, Finset.mem_Ico]
    exact (and_iff_left (Nat.mod_lt _ (Nat.two_pow_pos 252))).symm
  rw [Digest.ncard_of_mod (by decide) (fun r hr => (Finset.mem_Ico.mp hr).2) hlarge, Nat.card_Ico]
  decide

theorem ncard_query_eq {bits q : Nat} (hbits : bits ≤ 64) (hq : q < 2 ^ bits) :
    {b | query bits b = q}.ncard = 2 ^ (256 - bits) := by
  refine Digest.ncard_of_mod_eq (hbits.trans (by decide)) hq fun b => ?_
  rw [query_eq, lowWord, Nat.mod_mod_of_dvd _ (Nat.pow_dvd_pow 2 hbits)]

/-! ## Refused blocks are passed over -/

theorem readFeltWithin_of_refused {fuel n : Nat} {x : Felt} {coin : Coin} (hn : n < fuel)
    (hrefused : ∀ b ∈ coin.ahead n, felt? b = none) (hlast : felt? (coin.skip n).block = some x) :
    readFeltWithin fuel coin = .complete (x, coin.skip (n + 1)) := by
  induction n generalizing fuel coin with
  | zero =>
      obtain ⟨fuel, rfl⟩ := Nat.exists_eq_add_of_lt hn
      have hblock : felt? coin.block = some x := hlast
      rw [readFeltWithin, hblock]
      rfl
  | succ n ih =>
      obtain ⟨fuel, rfl⟩ := Nat.exists_eq_add_of_lt hn
      rw [ahead_succ, List.forall_mem_cons] at hrefused
      rw [← skip_next] at hlast
      rw [readFeltWithin, hrefused.1, ← skip_next]
      exact ih (by omega) hrefused.2 hlast

/-- A read that leaves the count of blocks within its word returns the first block that is an element. -/
theorem readFelt_eq_iff {coin : Coin} {n : Nat} {x : Felt} (hn : coin.counter + n + 1 < 2 ^ 64) :
    coin.readFelt = (x, coin.skip (n + 1)) ↔
      (∀ b ∈ coin.ahead n, felt? b = none) ∧ felt? (coin.skip n).block = some x := by
  constructor
  · intro h
    obtain ⟨y, m, hread, hdraws⟩ := coin.readFelt_eq_skip
    rw [h, Prod.mk.injEq, skip, skip, Coin.mk.injEq, Nat.add_left_cancel_iff] at hread
    obtain ⟨rfl, -, rfl⟩ := hread
    obtain ⟨refused, last, hblocks, hrefused, hlast⟩ := hdraws (by omega)
    rw [ahead_succ_last] at hblocks
    obtain ⟨rfl, hlast_eq⟩ := List.append_inj' hblocks rfl
    rw [List.cons.injEq] at hlast_eq
    rw [hlast_eq.1, felt?_eq_some_iff]
    exact ⟨fun b hb => felt?_eq_none_iff.mpr (hrefused b hb), hlast⟩
  · rintro ⟨hrefused, hlast⟩
    have hfuel : n < attempts := by
      rw [attempts]
      omega
    exact congrArg Reading.read (readFeltWithin_of_refused hfuel hrefused hlast)

/-- Of the `2 ^ 256` blocks every element is read from sixteen, and the others are passed over. Every query
of up to 64 bits is read from as many blocks as any other of its width. -/
theorem reads_share_blocks_evenly :
    Nat.card Digest = 2 ^ 256 ∧
    (∀ x, {b | felt? b = some x}.ncard = 16) ∧
    {b | felt? b = none}.ncard = 2 ^ 256 - 16 * modulus ∧
    (∀ (coin : Coin) n x, coin.counter + n + 1 < 2 ^ 64 →
      (coin.readFelt = (x, coin.skip (n + 1)) ↔
        (∀ b ∈ coin.ahead n, felt? b = none) ∧ felt? (coin.skip n).block = some x)) ∧
    (∀ bits q, bits ≤ 64 → q < 2 ^ bits → {b | query bits b = q}.ncard = 2 ^ (256 - bits)) ∧
    ∀ bits (coin : Coin), coin.readQuery bits = (query bits coin.block, coin.skip 1) :=
  ⟨Digest.card_eq, ncard_felt?_eq_some, ncard_felt?_eq_none, fun _ _ _ => readFelt_eq_iff,
    fun _ _ => ncard_query_eq, fun _ _ => rfl⟩

/-- The first block after this seed is refused and the second is an element. The largest query of all is
read from as many blocks as there are other bits. -/
theorem reads_share_blocks_evenly_second_block :
    let coin := ofSeed [7]
    coin.counter + 1 + 1 < 2 ^ 64 ∧ 64 ≤ 64 ∧ 2 ^ 64 - 1 < 2 ^ 64 ∧
    (∃ x, coin.readFelt = (x, coin.skip 2)) ∧ {b | query 64 b = 2 ^ 64 - 1}.ncard = 2 ^ 192 := by
  intro coin
  have hblocks : (coin.ahead 2).map (fun b => (felt? b).isSome) = [false, true] := by decide +kernel
  have hcounter : coin.counter + 1 + 1 < 2 ^ 64 := by decide
  obtain ⟨-, -, -, hread, hquery, -⟩ := reads_share_blocks_evenly
  rw [ahead_succ_last, List.map_append, ahead_one] at hblocks
  obtain ⟨hfirst, hsecond⟩ : felt? coin.block = none ∧ ∃ x, felt? (coin.skip 1).block = some x := by
    simpa [Option.isSome_iff_exists] using hblocks
  obtain ⟨x, hx⟩ := hsecond
  have hrefused : ∀ b ∈ coin.ahead 1, felt? b = none := by
    rw [ahead_one, List.forall_mem_singleton]
    exact hfirst
  have hsecond_read : coin.readFelt = (x, coin.skip 2) :=
    (hread coin 1 x hcounter).mpr ⟨hrefused, hx⟩
  have hlargest : {b | query 64 b = 2 ^ 64 - 1}.ncard = 2 ^ 192 :=
    hquery 64 (2 ^ 64 - 1) (by decide) (by decide)
  exact ⟨hcounter, by decide, by decide, ⟨x, hsecond_read⟩, hlargest⟩

end Coin
end StarkVerifier
