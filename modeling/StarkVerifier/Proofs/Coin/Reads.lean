import StarkVerifier.Proofs.Coin.Blocks

/-!
# Reads from the coin

Reads leave the digest alone. Queries are ascending and in range, and there is at least one when any is
asked for.
-/

namespace StarkVerifier.Coin

theorem digest_readFelt (coin : Coin) : coin.readFelt.2.digest = coin.digest := by
  obtain ⟨x, n, hread, -⟩ := coin.readFelt_eq_skip
  rw [hread, skip]

theorem digest_readFelts (n : Nat) (coin : Coin) : (readFelts n coin).2.digest = coin.digest := by
  obtain ⟨draws, m, hread, -⟩ := readFelts_eq_skip n coin
  rw [hread, skip]

theorem length_readFelts (n : Nat) (coin : Coin) : (readFelts n coin).1.length = n := by
  obtain ⟨draws, m, hread, hlength, -⟩ := readFelts_eq_skip n coin
  rw [hread, List.length_map, hlength]

/-- A write forgets the blocks that were read. -/
theorem writeDigest_congr {coin coin' : Coin} (h : coin.digest = coin'.digest) (d : Digest) :
    coin.writeDigest d = coin'.writeDigest d := by
  rw [writeDigest, writeDigest, write, write, h]

/-! ## Queries -/

theorem query_lt (bits : Nat) (block : Digest) : query bits block < 2 ^ bits :=
  Nat.lt_of_lt_of_le (Nat.mod_lt _ (Nat.two_pow_pos _))
    (Nat.pow_le_pow_right Nat.two_pos (Nat.min_le_left bits 64))

theorem lt_of_mem_pick {bits q : Nat} {blocks : List Digest} (h : q ∈ pick bits [] blocks) :
    q < 2 ^ bits := by
  rcases mem_pick.mp h with h | h
  · exact absurd h List.not_mem_nil
  · obtain ⟨b, -, rfl⟩ := List.mem_map.mp h
    exact query_lt bits b

/-- Drawn queries are ascending and in range, and there are some. -/
theorem of_readQueries {count bits : Nat} {coin after : Coin} {queries : List Nat}
    (h : coin.readQueries count bits = .ok (queries, after)) (hcount : count ≠ 0) :
    queries ≠ [] ∧ (∀ q ∈ queries, q < 2 ^ bits) ∧ queries.Pairwise (· < ·) := by
  obtain ⟨hbits, hrange, -⟩ := readQueries_eq_ok_iff.mp h
  obtain ⟨n, hread, -, henough⟩ := coin.readQueries_eq_skip hbits hrange
  obtain ⟨rfl, -⟩ := Prod.mk.inj (Except.ok.inj (h.symm.trans hread))
  refine ⟨?_, fun q hq => lt_of_mem_pick hq, pairwise_pick List.Pairwise.nil⟩
  cases n with
  | zero => exact absurd (henough (Nat.two_pow_pos 64)).symm hcount
  | succ n =>
      have hfirst : query bits coin.block ∈ (coin.ahead (n + 1)).map (query bits) :=
        List.mem_cons_self
      exact List.ne_nil_of_mem (mem_pick.mpr (Or.inr hfirst))

theorem length_le_of_readQueries {count bits : Nat} {coin after : Coin} {queries : List Nat}
    (h : coin.readQueries count bits = .ok (queries, after)) : queries.length ≤ count := by
  obtain ⟨hbits, hrange, -⟩ := readQueries_eq_ok_iff.mp h
  obtain ⟨n, hread, hfew, -⟩ := coin.readQueries_eq_skip hbits hrange
  obtain ⟨rfl, -⟩ := Prod.mk.inj (Except.ok.inj (h.symm.trans hread))
  exact length_pick_le_of_few hfew

theorem exists_readQueries {count bits : Nat} (coin : Coin) (hbits : bits ≤ 64)
    (hcount : count ≤ 2 ^ bits) :
    ∃ queries after, coin.readQueries count bits = .ok (queries, after) :=
  ⟨_, _, readQueries_eq_ok_iff.mpr ⟨hbits, hcount, rfl⟩⟩

end StarkVerifier.Coin
