import Mathlib.Order.Bounds.Basic
import StarkVerifier.Proofs.Coin.Reads

/-!
# Queries are a set

Single queries are drawn until enough different ones have come, and repetitions are dropped. The result
is the set of the shortest run of draws that is rich enough, in ascending order, and the coin has moved on
by just these draws. Main statement: `readQueries_draws_set`.
-/

namespace StarkVerifier.Coin

/-- The next `n` single queries and the coin after them. -/
def draws (bits : Nat) : Nat → Coin → List Nat × Coin
  | 0, coin => ([], coin)
  | n + 1, coin =>
    let (q, coin) := coin.readQuery bits
    let (rest, coin) := draws bits n coin
    (q :: rest, coin)

theorem draws_eq (bits n : Nat) (coin : Coin) :
    draws bits n coin = ((coin.ahead n).map (query bits), coin.skip n) := by
  induction n generalizing coin with
  | zero => rfl
  | succ n ih =>
      rw [draws, readQuery, ahead_succ, List.map_cons, ← skip_next]
      simp only [ih]

/-- How many different queries there are among the next `n`. -/
def distinct (bits n : Nat) (coin : Coin) : Nat := (draws bits n coin).1.toFinset.card

theorem distinct_eq_length_pick (bits n : Nat) (coin : Coin) :
    distinct bits n coin = (pick bits [] (coin.ahead n)).length := by
  rw [length_pick, distinct, draws_eq]

theorem mem_pick_ahead {bits n q : Nat} {coin : Coin} :
    q ∈ pick bits [] (coin.ahead n) ↔ q ∈ (draws bits n coin).1 := by
  rw [mem_pick, draws_eq, or_iff_right List.not_mem_nil]

/-- Enough different queries come before the count of blocks leaves its word. -/
def Suffices (count bits : Nat) (coin : Coin) : Prop :=
  ∃ n, coin.counter + n < 2 ^ 64 ∧ count ≤ distinct bits n coin

theorem readQueries_eq_error_iff {count bits : Nat} {coin : Coin} {e : CoinError} :
    coin.readQueries count bits = .error e ↔ (64 < bits ∧ e = .queryWidth bits) ∨
      (bits ≤ 64 ∧ 2 ^ bits < count ∧ e = .tooManyQueries count bits) := by
  unfold readQueries
  by_cases hbits : 64 < bits
  · simp [hbits, Nat.not_le.mpr hbits, eq_comm]
  · rw [if_neg hbits]
    by_cases hmany : 2 ^ bits < count
    · simp [hbits, hmany, Nat.le_of_not_lt hbits, eq_comm]
    · simp [hbits, hmany]

theorem isLeast_of_readQueries {count bits : Nat} {coin : Coin} (hbits : bits ≤ 64)
    (hcount : count ≤ 2 ^ bits) (h : Suffices count bits coin) :
    ∃ n, IsLeast {m | distinct bits m coin = count} n ∧
      coin.readQueries count bits = .ok (pick bits [] (coin.ahead n), coin.skip n) := by
  obtain ⟨n, hread, hfew, henough⟩ := coin.readQueries_eq_skip hbits hcount
  simp only [← distinct_eq_length_pick] at hfew henough
  refine ⟨n, ⟨?_, fun m hm => ?_⟩, hread⟩
  · obtain ⟨m, hm, hrich⟩ := h
    have hle : n ≤ m := Nat.le_of_not_lt fun hlt => Nat.not_lt.mpr hrich (hfew m hlt)
    exact henough (by omega)
  · exact Nat.le_of_not_lt fun hlt => (hfew m hlt).ne hm

/-- A count of blocks that has stayed within its word has been taken by a draw that ended. -/
theorem suffices_of_readQueries {count bits : Nat} {coin after : Coin} {picked : List Nat}
    (h : coin.readQueries count bits = .ok (picked, after)) (hshort : after.counter < 2 ^ 64) :
    Suffices count bits coin := by
  obtain ⟨hbits, hcount, -⟩ := readQueries_eq_ok_iff.mp h
  obtain ⟨n, hread, -, henough⟩ := coin.readQueries_eq_skip hbits hcount
  obtain ⟨-, rfl⟩ := Prod.mk.inj (Except.ok.inj (h.symm.trans hread))
  have hcounter : coin.counter + n < 2 ^ 64 := hshort
  refine ⟨n, hcounter, ?_⟩
  rw [distinct_eq_length_pick, henough (by omega)]

/-- Queries that are too wide are refused, then those that are too many. Otherwise, if the draws come to an
end, they are as many as it takes for `count` different indices, and these are picked. -/
theorem readQueries_draws_set (count bits : Nat) (coin : Coin) :
    (∀ e, coin.readQueries count bits = .error e ↔ (64 < bits ∧ e = .queryWidth bits) ∨
      (bits ≤ 64 ∧ 2 ^ bits < count ∧ e = .tooManyQueries count bits)) ∧
    (∀ picked after, coin.readQueries count bits = .ok (picked, after) → after.counter < 2 ^ 64 →
      Suffices count bits coin) ∧
    (bits ≤ 64 → count ≤ 2 ^ bits → Suffices count bits coin →
      ∃ picked k, coin.readQueries count bits = .ok (picked, ⟨coin.digest, coin.counter + k⟩) ∧
        IsLeast {n | distinct bits n coin = count} k ∧
        picked.Pairwise (· < ·) ∧ picked.length = count ∧ (∀ q ∈ picked, q < 2 ^ bits) ∧
        ∀ q, q ∈ picked ↔ q ∈ (draws bits k coin).1) ∧
    (bits ≤ 64 → coin.readQueries 0 bits = .ok ([], coin)) := by
  refine ⟨fun e => readQueries_eq_error_iff, fun picked after => suffices_of_readQueries,
    fun hbits hcount h => ?_, fun hbits => ?_⟩
  · obtain ⟨k, hleast, hread⟩ := isLeast_of_readQueries hbits hcount h
    refine ⟨_, k, hread, hleast, pairwise_pick List.Pairwise.nil, ?_, fun q hq => lt_of_mem_pick hq,
      fun q => mem_pick_ahead⟩
    rw [← distinct_eq_length_pick, hleast.1]
  · exact readQueries_eq_ok_iff.mpr ⟨hbits, Nat.zero_le _, rfl⟩

/-- One of the first three draws of two bits repeats another, so that three indices take four blocks. -/
theorem readQueries_draws_set_of_repeat :
    let coin := (ofSeed [7]).writeDigest (keccak [])
    2 ≤ 64 ∧ 3 ≤ 2 ^ 2 ∧ Suffices 3 2 coin ∧
    ∃ picked, coin.readQueries 3 2 = .ok (picked, ⟨coin.digest, 4⟩) ∧ picked.length = 3 := by
  intro coin
  have hcounts : (List.range 4).map (distinct 2 · coin) = [0, 1, 2, 2] := by decide +kernel
  have hfour : distinct 2 4 coin = 3 := by decide +kernel
  have hsuffices : Suffices 3 2 coin := ⟨4, by decide, hfour.ge⟩
  obtain ⟨picked, k, hread, hleast, -, hlength, -⟩ :=
    (readQueries_draws_set 3 2 coin).2.2.1 (by decide) (by decide) hsuffices
  have hk : k = 4 := by
    refine (hleast.2 hfour).antisymm (Nat.le_of_not_lt fun hlt => ?_)
    have hmem := List.mem_map_of_mem (f := (distinct 2 · coin)) (List.mem_range.mpr hlt)
    rw [hcounts, show distinct 2 k coin = 3 from hleast.1] at hmem
    exact absurd hmem (by decide)
  subst hk
  exact ⟨by decide, by decide, hsuffices, picked, hread, hlength⟩

end StarkVerifier.Coin
