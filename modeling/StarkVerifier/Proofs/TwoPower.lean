import Mathlib.Algebra.Order.Ring.Nat
import Mathlib.Data.Nat.Log
import Mathlib.Data.Nat.Size
import Mathlib.Tactic.Ring
import StarkVerifier.Word

/-!
# Powers of two

Logarithms and zero bits of powers of two, the least one above a number, the number of significant bits,
and the reversal of bits as a permutation that undoes itself.
-/

namespace StarkVerifier

/-! ## Powers -/

theorem isTwoPower_iff {n : Nat} : isTwoPower n = true ↔ n = 2 ^ n.log2 := by
  rw [isTwoPower, Bool.and_eq_true, decide_eq_true_eq, decide_eq_true_eq]
  constructor
  · rintro ⟨-, h⟩
    exact h.symm
  · intro h
    have := Nat.two_pow_pos n.log2
    exact ⟨by omega, h.symm⟩

theorem isTwoPower_two_pow (k : Nat) : isTwoPower (2 ^ k) = true := by
  rw [isTwoPower_iff, Nat.log2_two_pow]

theorem isTwoPower_iff_isPowerOfTwo {n : Nat} : isTwoPower n = true ↔ n.isPowerOfTwo := by
  constructor
  · intro h
    exact ⟨_, isTwoPower_iff.mp h⟩
  · rintro ⟨k, rfl⟩
    exact isTwoPower_two_pow k

theorem two_pow_succ_div_two (k : Nat) : 2 ^ (k + 1) / 2 = 2 ^ k := by
  rw [Nat.pow_succ, Nat.mul_div_cancel _ Nat.two_pos]

theorem trailingZerosWithin_two_pow {width k : Nat} (h : k ≤ width) :
    trailingZerosWithin width (2 ^ k) = k := by
  induction width generalizing k with
  | zero =>
      obtain rfl : k = 0 := by omega
      rfl
  | succ width ih =>
      rw [trailingZerosWithin]
      cases k with
      | zero => rfl
      | succ k =>
          have heven : ¬2 ^ (k + 1) % 2 = 1 := by
            rw [Nat.pow_succ]
            omega
          rw [if_neg heven, two_pow_succ_div_two, ih (by omega)]

theorem trailingZeros_two_pow {k : Nat} (h : k ≤ 64) : trailingZeros (2 ^ k) = k :=
  trailingZerosWithin_two_pow h

theorem log2_lt_of_lt_two_pow {k n : Nat} (hk : 0 < k) (h : n < 2 ^ k) : n.log2 < k := by
  rcases Nat.eq_zero_or_pos n with rfl | hpos
  · rwa [Nat.log2_zero]
  · exact (Nat.log2_lt (Nat.ne_of_gt hpos)).mpr h

/-- A word that is a power of two has as many zero bits as its logarithm says. -/
theorem trailingZeros_eq_log2 {n : Nat} (h : isTwoPower n = true) (hlt : n < 2 ^ 64) :
    trailingZeros n = n.log2 := by
  have hlog := log2_lt_of_lt_two_pow (by decide) hlt
  rw [isTwoPower_iff.mp h, trailingZeros_two_pow hlog.le, Nat.log2_two_pow]

theorem two_pow_shiftRight {k n : Nat} (h : k ≤ n) : 2 ^ n >>> k = 2 ^ (n - k) := by
  rw [Nat.shiftRight_eq_div_pow, Nat.pow_div h Nat.two_pos]

theorem two_pow_div_two_pow {k n : Nat} (h : k ≤ n) : 2 ^ n / 2 ^ k = 2 ^ (n - k) :=
  Nat.pow_div h Nat.two_pos

/-! ## The next power -/

theorem isPowerOfTwo_nextTwoPower (n : Nat) : (nextTwoPower n).isPowerOfTwo := by
  unfold nextTwoPower
  by_cases h : n ≤ 1
  · exact ⟨0, if_pos h⟩
  · exact ⟨_, if_neg h⟩

theorem nextTwoPower_le_two_pow_iff {n k : Nat} : nextTwoPower n ≤ 2 ^ k ↔ n ≤ 2 ^ k := by
  have hpos := Nat.two_pow_pos k
  unfold nextTwoPower
  by_cases h : n ≤ 1
  · rw [if_pos h]
    omega
  · have hlog : (n - 1).log2 < k ↔ n - 1 < 2 ^ k := Nat.log2_lt (by omega)
    rw [if_neg h, Nat.pow_le_pow_iff_right Nat.one_lt_two, Nat.succ_le_iff, hlog]
    omega

theorem le_nextTwoPower (n : Nat) : n ≤ nextTwoPower n := by
  obtain ⟨k, hk⟩ := isPowerOfTwo_nextTwoPower n
  rw [hk]
  exact nextTwoPower_le_two_pow_iff.mp hk.le

/-! ## Significant bits -/

theorem size_eq_log2_add_one {n : Nat} (h : n ≠ 0) : n.size = n.log2 + 1 := by
  refine Nat.le_antisymm ?_ ?_
  · exact Nat.size_le.mpr Nat.lt_log2_self
  · exact Nat.lt_size.mpr (Nat.log2_self_le h)

/-- A part that is not zero decides, however many bits stand below it. -/
theorem size_two_pow_mul_add {k high low : Nat} (hhigh : high ≠ 0) (hlow : low < 2 ^ k) :
    (2 ^ k * high + low).size = k + high.size := by
  refine Nat.le_antisymm ?_ ?_
  · rw [Nat.size_le, Nat.pow_add]
    calc 2 ^ k * high + low < 2 ^ k * high + 2 ^ k := Nat.add_lt_add_left hlow _
      _ = 2 ^ k * (high + 1) := (Nat.mul_succ _ _).symm
      _ ≤ 2 ^ k * 2 ^ high.size := Nat.mul_le_mul_left _ (Nat.lt_size_self high)
  · have hpos : 0 < high.size := Nat.size_pos.mpr (Nat.pos_of_ne_zero hhigh)
    obtain ⟨s, hs⟩ := Nat.exists_eq_add_one.mpr hpos
    have htop : 2 ^ s ≤ high := Nat.lt_size.mp (by omega)
    rw [hs, ← Nat.add_assoc, Nat.succ_le_iff, Nat.lt_size, Nat.pow_add]
    exact (Nat.mul_le_mul_left _ htop).trans (Nat.le_add_right _ _)

/-! ## Reversed bits -/

theorem bitReverse_lt (bits i : Nat) : bitReverse bits i < 2 ^ bits := by
  induction bits generalizing i with
  | zero => exact Nat.one_pos
  | succ bits ih =>
      have htail := ih (i / 2)
      rw [bitReverse, Nat.pow_succ]
      rcases Nat.mod_two_eq_zero_or_one i with h | h
      · rw [h]
        omega
      · rw [h]
        omega

/-- A bit at the top becomes a bit at the bottom. -/
theorem bitReverse_add_top (bits i b : Nat) (hi : i < 2 ^ bits) (hb : b < 2) :
    bitReverse (bits + 1) (b * 2 ^ bits + i) = 2 * bitReverse bits i + b := by
  induction bits generalizing i with
  | zero =>
      obtain rfl : i = 0 := by omega
      simp only [bitReverse, Nat.pow_zero]
      omega
  | succ bits ih =>
      have hhalf : (b * 2 ^ (bits + 1) + i) / 2 = b * 2 ^ bits + i / 2 := by
        rw [Nat.pow_succ, ← Nat.mul_assoc]
        omega
      have hlow : (b * 2 ^ (bits + 1) + i) % 2 = i % 2 := by
        rw [Nat.pow_succ, ← Nat.mul_assoc]
        omega
      rw [Nat.pow_succ] at hi
      rw [bitReverse, hhalf, hlow, ih (i / 2) (by omega), bitReverse]
      ring

theorem bitReverse_bitReverse {bits i : Nat} (h : i < 2 ^ bits) :
    bitReverse bits (bitReverse bits i) = i := by
  induction bits generalizing i with
  | zero =>
      obtain rfl : i = 0 := by simpa using h
      rfl
  | succ bits ih =>
      have hhalf : i / 2 < 2 ^ bits := by
        rw [Nat.pow_succ] at h
        omega
      -- the lowest bit goes to the top, and from there back to the bottom
      rw [show bitReverse (bits + 1) i = i % 2 * 2 ^ bits + bitReverse bits (i / 2) from rfl,
        bitReverse_add_top _ _ _ (bitReverse_lt bits (i / 2)) (Nat.mod_lt i Nat.two_pos), ih hhalf]
      omega

theorem bitReverse_two_mul (bits i : Nat) : bitReverse (bits + 1) (2 * i) = bitReverse bits i := by
  rw [bitReverse, show 2 * i % 2 = 0 by omega, show 2 * i / 2 = i by omega]
  omega

theorem bitReverse_two_mul_add_one (bits i : Nat) :
    bitReverse (bits + 1) (2 * i + 1) = 2 ^ bits + bitReverse bits i := by
  rw [bitReverse, show (2 * i + 1) % 2 = 1 by omega, show (2 * i + 1) / 2 = i by omega,
    Nat.one_mul]

/-- Bits up to the width change places with each other, and those above are gone. -/
theorem testBit_bitReverse (bits i m : Nat) :
    (bitReverse bits i).testBit m = (decide (m < bits) && i.testBit (bits - 1 - m)) := by
  induction bits generalizing i m with
  | zero => simp [bitReverse]
  | succ bits ih =>
      have hlow (k : Nat) : (i / 2).testBit k = i.testBit (k + 1) := Nat.testBit_div_two i k
      rw [bitReverse, Nat.mul_comm, Nat.testBit_two_pow_mul_add _ (bitReverse_lt bits (i / 2))]
      rcases Nat.lt_trichotomy m bits with h | rfl | h
      · have hplace : bits - 1 - m + 1 = bits + 1 - 1 - m := by omega
        rw [if_pos h, ih, hlow, hplace, decide_eq_true h, decide_eq_true (Nat.lt_succ_of_lt h)]
      · simp
      · have hhigh : i % 2 < 2 ^ (m - bits) :=
          Nat.lt_of_lt_of_le (Nat.mod_lt i Nat.two_pos) (Nat.le_self_pow (by omega) 2)
        rw [if_neg (by omega), Nat.testBit_lt_two_pow hhigh, decide_eq_false (by omega),
          Bool.false_and]

example : (List.range 8).map (bitReverse 3) = [0, 4, 2, 6, 1, 5, 3, 7] := by decide

end StarkVerifier
