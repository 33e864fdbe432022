import Mathlib.Data.Nat.Digits.Defs
import Mathlib.Order.Bounds.Basic
import StarkVerifier.Proofs.Bytes
import StarkVerifier.Proofs.TwoPower

/-!
# Numbers of 256 bits

The operations on numbers of 256 bits are the operations on the numbers that their words stand for, for
all operands, all counts of places and every bit. Main statement: `UInt256.operations_exact`.
-/

namespace StarkVerifier

/-! ## Lists of words -/

namespace Word

/-- The number that words stand for, from the lowest up. -/
def value (words : List UInt64) : Nat := Nat.ofDigits (2 ^ 64) (words.map UInt64.toNat)

theorem value_nil : value [] = 0 := rfl

theorem value_cons (w : UInt64) (words : List UInt64) :
    value (w :: words) = 2 ^ 64 * value words + w.toNat := by
  rw [value, List.map_cons, Nat.ofDigits_cons, Nat.add_comm, value]

theorem value_append (words others : List UInt64) :
    value (words ++ others) = value words + 2 ^ (64 * words.length) * value others := by
  rw [value, List.map_append, Nat.ofDigits_append, List.length_map, Nat.pow_mul, value, value]

theorem value_lt (words : List UInt64) : value words < 2 ^ (64 * words.length) := by
  have hdigits : ∀ d ∈ words.map UInt64.toNat, d < 2 ^ 64 := by
    intro d hd
    obtain ⟨w, -, rfl⟩ := List.mem_map.mp hd
    exact w.toNat_lt
  have hlt := Nat.ofDigits_lt_base_pow_length (by decide) hdigits
  rwa [List.length_map, ← Nat.pow_mul] at hlt

theorem value_replicate_zero (k : Nat) : value (List.replicate k 0) = 0 := by
  induction k with
  | zero => rfl
  | succ k ih => rw [List.replicate_succ, value_cons, ih, UInt64.toNat_zero, Nat.mul_zero, Nat.zero_add]

/-- A bit of the number is a bit of the word that its place falls into. -/
theorem testBit_value (words : List UInt64) (i : Nat) :
    (value words).testBit i = (words.getD (i / 64) 0).toNat.testBit (i % 64) := by
  induction words generalizing i with
  | nil => simp [value_nil]
  | cons w words ih =>
      rw [value_cons, Nat.testBit_two_pow_mul_add _ w.toNat_lt]
      by_cases h : i < 64
      · rw [if_pos h, Nat.div_eq_of_lt h, Nat.mod_eq_of_lt h, List.getD_cons_zero]
      · have hdiv : i / 64 = (i - 64) / 64 + 1 := by omega
        have hmod : i % 64 = (i - 64) % 64 := by omega
        rw [if_neg h, ih, hdiv, hmod, List.getD_cons_succ]

theorem bitLength_eq_size (w : UInt64) : bitLength w = w.toNat.size := by
  unfold bitLength
  by_cases h : w = 0
  · rw [if_pos h, h]
    rfl
  · have hne : w.toNat ≠ 0 := fun h0 => h (UInt64.toNat_inj.mp h0)
    rw [if_neg h, size_eq_log2_add_one hne]

/-- The highest word decides, and when it is zero the others do. -/
theorem size_value_concat (low : List UInt64) (w : UInt64) :
    (value (low ++ [w])).size =
      if w ≠ 0 then 64 * low.length + bitLength w else (value low).size := by
  rw [value_append, Nat.add_comm, value_cons, value_nil, Nat.mul_zero, Nat.zero_add]
  by_cases h : w = 0
  · rw [if_neg (not_not.mpr h), h, UInt64.toNat_zero, Nat.mul_zero, Nat.zero_add]
  · have hne : w.toNat ≠ 0 := fun h0 => h (UInt64.toNat_inj.mp h0)
    rw [if_pos h, size_two_pow_mul_add hne (value_lt low), bitLength_eq_size]

/-! ## Shifted words -/

variable {k : Nat}

theorem toNat_ofNat_mod (hk : k < 64) : (UInt64.ofNat k).toNat % 64 = k := by
  rw [UInt64.toNat_ofNat']
  omega

theorem testBit_shiftRight (w : UInt64) (hk : k < 64) (j : Nat) :
    (w >>> UInt64.ofNat k).toNat.testBit j = w.toNat.testBit (k + j) := by
  rw [UInt64.toNat_shiftRight, toNat_ofNat_mod hk, Nat.testBit_shiftRight]

theorem testBit_shiftLeft (w : UInt64) (hk : k < 64) (j : Nat) :
    (w <<< UInt64.ofNat k).toNat.testBit j =
      (decide (j < 64) && (decide (k ≤ j) && w.toNat.testBit (j - k))) := by
  rw [UInt64.toNat_shiftLeft, toNat_ofNat_mod hk, Nat.testBit_mod_two_pow, Nat.testBit_shiftLeft]

theorem shiftRight_and_one_eq_iff (w : UInt64) (hk : k < 64) :
    (w >>> UInt64.ofNat k) &&& 1 = 1 ↔ w.toNat.testBit k = true := by
  have hone : UInt64.toNat 1 = 1 := rfl
  rw [← UInt64.toNat_inj, UInt64.toNat_and, hone, UInt64.toNat_shiftRight, toNat_ofNat_mod hk,
    Nat.and_one_is_mod, Nat.shiftRight_eq_div_pow, Nat.testBit_eq_decide_div_mod_eq, decide_eq_true_eq]

end Word

namespace UInt256

theorem length_words (a : UInt256) : a.words.length = 4 := rfl

theorem toNat_eq_value (a : UInt256) : a.toNat = Word.value a.words := by
  simp only [toNat, words, Word.value_cons, Word.value_nil]
  omega

end UInt256

theorem UInt512.toNat_eq_value (t : UInt512) : t.toNat = Word.value t.words := by
  rw [toNat, UInt256.toNat_eq_value, UInt256.toNat_eq_value, words, Word.value_append]
  rfl

namespace UInt256

/-! ## Sums, differences and products -/

theorem addCarry_eq (a b : UInt256) :
    (a.addCarry b).1.toNat = (a.toNat + b.toNat) % 2 ^ 256 ∧
      ((a.addCarry b).2 = true ↔ 2 ^ 256 ≤ a.toNat + b.toNat) := by
  have hsum := toNat_addCarry a b
  have hlow := (a.addCarry b).1.toNat_lt
  cases hcarry : (a.addCarry b).2 with
  | false =>
      rw [hcarry, Bool.toNat_false] at hsum
      rw [Bool.false_eq_true, false_iff]
      omega
  | true =>
      rw [hcarry, Bool.toNat_true] at hsum
      rw [eq_self, true_iff]
      omega

theorem subBorrow_eq (a b : UInt256) :
    ((a.subBorrow b).1.toNat : ℤ) = ((a.toNat : ℤ) - b.toNat) % 2 ^ 256 ∧
      ((a.subBorrow b).2 = true ↔ a.toNat < b.toNat) := by
  have hdifference := toNat_subBorrow a b
  have ha := a.toNat_lt
  have hb := b.toNat_lt
  have hlow := (a.subBorrow b).1.toNat_lt
  cases hborrow : (a.subBorrow b).2 with
  | false =>
      rw [hborrow, Bool.toNat_false] at hdifference
      rw [Bool.false_eq_true, false_iff]
      omega
  | true =>
      rw [hborrow, Bool.toNat_true] at hdifference
      rw [eq_self, true_iff]
      omega

theorem value_mulWide (a b : UInt256) :
    (a.mulWide b).words.length = 8 ∧ Word.value (a.mulWide b).words = a.toNat * b.toNat := by
  refine ⟨rfl, ?_⟩
  rw [← UInt512.toNat_eq_value, toNat_mulWide]

theorem compare_eq (a b : UInt256) : a.compare b = Ord.compare a.toNat b.toNat := by
  unfold compare
  by_cases hlt : a.toNat < b.toNat
  · rw [if_pos ((lt_iff a b).mpr hlt), Nat.compare_eq_lt.mpr hlt]
  · rw [if_neg fun h => hlt ((lt_iff a b).mp h)]
    by_cases hgt : b.toNat < a.toNat
    · rw [if_pos ((lt_iff b a).mpr hgt), Nat.compare_eq_gt.mpr hgt]
    · rw [if_neg fun h => hgt ((lt_iff b a).mp h), Nat.compare_eq_eq.mpr (by omega)]

/-! ## Bits and shifts -/

theorem word_eq_getD (a : UInt256) (i : Nat) : a.word i = a.words.getD i 0 :=
  match i with
  | 0 => rfl
  | 1 => rfl
  | 2 => rfl
  | 3 => rfl
  | _ + 4 => rfl

theorem testBit_toNat (a : UInt256) (i : Nat) :
    a.toNat.testBit i = (a.word (i / 64)).toNat.testBit (i % 64) := by
  rw [toNat_eq_value, Word.testBit_value, word_eq_getD]

theorem testBit_toNat_of_le (a : UInt256) {i : Nat} (h : 256 ≤ i) : a.toNat.testBit i = false :=
  Nat.testBit_lt_two_pow (a.toNat_lt.trans_le (Nat.pow_le_pow_right Nat.two_pos h))

theorem testBit_eq (a : UInt256) (i : Nat) : a.testBit i = a.toNat.testBit i := by
  rw [testBit_toNat, Bool.eq_iff_iff, testBit, decide_eq_true_eq]
  exact Word.shiftRight_and_one_eq_iff _ (Nat.mod_lt i (by decide))

theorem word_shiftRight (a : UInt256) (n : Nat) {i : Nat} (hi : i < 4) :
    (a.shiftRight n).word i =
      if n % 64 = 0 then a.word (i + n / 64) >>> UInt64.ofNat (n % 64)
      else a.word (i + n / 64) >>> UInt64.ofNat (n % 64) |||
        a.word (i + n / 64 + 1) <<< UInt64.ofNat (64 - n % 64) :=
  match i, hi with
  | 0, _ => rfl
  | 1, _ => rfl
  | 2, _ => rfl
  | 3, _ => rfl

/-- Places below the cut come from the word that is shifted down, the others from the word above it. -/
theorem testBit_word_shiftRight (a : UInt256) (n : Nat) {i j : Nat} (hi : i < 4) (hj : j < 64) :
    ((a.shiftRight n).word i).toNat.testBit j = a.toNat.testBit (n + (64 * i + j)) := by
  have hr : n % 64 < 64 := Nat.mod_lt n (by decide)
  rw [word_shiftRight a n hi, testBit_toNat]
  by_cases hcut : n % 64 + j < 64
  · have hdiv : (n + (64 * i + j)) / 64 = i + n / 64 := by omega
    have hmod : (n + (64 * i + j)) % 64 = n % 64 + j := by omega
    rw [hdiv, hmod]
    split
    · rw [Word.testBit_shiftRight _ hr]
    · have hbelow : ¬64 - n % 64 ≤ j := by omega
      rw [UInt64.toNat_or, Nat.testBit_or, Word.testBit_shiftRight _ hr,
        Word.testBit_shiftLeft _ (by omega), decide_eq_false hbelow, Bool.false_and, Bool.and_false,
        Bool.or_false]
  · have hdiv : (n + (64 * i + j)) / 64 = i + n / 64 + 1 := by omega
    have hmod : (n + (64 * i + j)) % 64 = j - (64 - n % 64) := by omega
    have habove : 64 - n % 64 ≤ j := by omega
    have hgone : (a.word (i + n / 64)).toNat < 2 ^ (n % 64 + j) :=
      (UInt64.toNat_lt _).trans_le (Nat.pow_le_pow_right Nat.two_pos (by omega))
    rw [hdiv, hmod, if_neg (by omega), UInt64.toNat_or, Nat.testBit_or, Word.testBit_shiftRight _ hr,
      Word.testBit_shiftLeft _ (by omega), Nat.testBit_lt_two_pow hgone, decide_eq_true hj,
      decide_eq_true habove, Bool.false_or, Bool.true_and, Bool.true_and]

theorem toNat_shiftRight (a : UInt256) (n : Nat) : (a.shiftRight n).toNat = a.toNat / 2 ^ n := by
  apply Nat.eq_of_testBit_eq
  intro i
  rw [Nat.testBit_div_two_pow]
  by_cases h : i < 256
  · rw [testBit_toNat, testBit_word_shiftRight a n (by omega) (Nat.mod_lt i (by decide)),
      Nat.div_add_mod, Nat.add_comm]
  · rw [testBit_toNat_of_le _ (by omega), testBit_toNat_of_le _ (by omega)]

example : (UInt256.mk 0 1 0 0).shiftRight 1 = ⟨0x8000000000000000, 0, 0, 0⟩ := by decide

theorem toNat_shiftRight_of_le (a : UInt256) {n : Nat} (h : 256 ≤ n) : (a.shiftRight n).toNat = 0 := by
  rw [toNat_shiftRight]
  exact Nat.div_eq_of_lt (a.toNat_lt.trans_le (Nat.pow_le_pow_right Nat.two_pos h))

theorem bitLength_eq_size (a : UInt256) : a.bitLength = a.toNat.size := by
  have h3 : (Word.value a.words).size = if a.w3 ≠ 0 then 192 + Word.bitLength a.w3
      else (Word.value [a.w0, a.w1, a.w2]).size := Word.size_value_concat [a.w0, a.w1, a.w2] a.w3
  have h2 : (Word.value [a.w0, a.w1, a.w2]).size = if a.w2 ≠ 0 then 128 + Word.bitLength a.w2
      else (Word.value [a.w0, a.w1]).size := Word.size_value_concat [a.w0, a.w1] a.w2
  have h1 : (Word.value [a.w0, a.w1]).size = if a.w1 ≠ 0 then 64 + Word.bitLength a.w1
      else (Word.value [a.w0]).size := Word.size_value_concat [a.w0] a.w1
  have h0 : (Word.value [a.w0]).size = Word.bitLength a.w0 := by
    rw [Word.value_cons, Word.value_nil, Nat.mul_zero, Nat.zero_add, Word.bitLength_eq_size]
  rw [toNat_eq_value, h3, h2, h1, h0, bitLength]

theorem isLeast_bitLength (a : UInt256) : IsLeast {m | a.toNat < 2 ^ m} a.bitLength := by
  rw [bitLength_eq_size]
  exact ⟨Nat.lt_size_self _, fun m hm => Nat.size_le.mpr hm⟩

/-! ## The statement -/

/-- Sums, differences and products, the order, bits and shifts, the number of significant bits and the
thirty-two bytes are those of the integers, the sums and differences modulo `2 ^ 256` with what was lost
reported. -/
theorem operations_exact :
    (∀ a b : UInt256,
      ((a.addCarry b).1.toNat = (a.toNat + b.toNat) % 2 ^ 256 ∧
        ((a.addCarry b).2 = true ↔ 2 ^ 256 ≤ a.toNat + b.toNat)) ∧
      (((a.subBorrow b).1.toNat : ℤ) = ((a.toNat : ℤ) - b.toNat) % 2 ^ 256 ∧
        ((a.subBorrow b).2 = true ↔ a.toNat < b.toNat)) ∧
      ((a.mulWide b).words.length = 8 ∧ Word.value (a.mulWide b).words = a.toNat * b.toNat) ∧
      a.compare b = Ord.compare a.toNat b.toNat ∧ (a.lt b = true ↔ a.toNat < b.toNat)) ∧
    (∀ (a : UInt256) (n : Nat),
      ((a.shiftRight n).toNat = a.toNat / 2 ^ n ∧ (256 ≤ n → (a.shiftRight n).toNat = 0)) ∧
      (a.testBit n = a.toNat.testBit n ∧ (256 ≤ n → a.testBit n = false))) ∧
    (∀ a : UInt256, a.toNat = Word.value a.words ∧ IsLeast {m | a.toNat < 2 ^ m} a.bitLength ∧
      a.toBytes.length = 32 ∧ Bytes.toNat a.toBytes = a.toNat ∧ ofBytes a.toBytes = a) ∧
    ∀ bytes : Bytes, bytes.length = 32 →
      (ofBytes bytes).toNat = Bytes.toNat bytes ∧ (ofBytes bytes).toBytes = bytes := by
  refine ⟨fun a b => ?_, fun a n => ⟨⟨toNat_shiftRight a n, toNat_shiftRight_of_le a⟩, testBit_eq a n, ?_⟩,
    fun a => ?_, fun bytes hbytes => ⟨toNat_ofBytes hbytes, toBytes_ofBytes hbytes⟩⟩
  · exact ⟨addCarry_eq a b, subBorrow_eq a b, value_mulWide a b, compare_eq a b, lt_iff a b⟩
  · intro hn
    rw [testBit_eq, testBit_toNat_of_le a hn]
  · exact ⟨toNat_eq_value a, isLeast_bitLength a, a.length_toBytes, toNat_toBytes a, ofBytes_toBytes a⟩

/-- The largest number, shifted across three words and past the last, and a number spelled with its highest
bit and its lowest. -/
theorem operations_exact_largest :
    let a : UInt256 := .ofNat (2 ^ 256 - 1)
    let bytes : Bytes := 0x80 :: List.replicate 30 0 ++ [1]
    256 ≤ 300 ∧ bytes.length = 32 ∧ (a.shiftRight 129).toNat = 2 ^ 127 - 1 ∧
      (a.shiftRight 300).toNat = 0 ∧ a.testBit 300 = false ∧
      (ofBytes bytes).toNat = 2 ^ 255 + 1 ∧ (ofBytes bytes).toBytes = bytes := by
  intro a bytes
  have hplace : 256 ≤ 300 := by decide
  have hlength : bytes.length = 32 := by decide
  have hshift : a.toNat / 2 ^ 129 = 2 ^ 127 - 1 := by decide
  have hvalue : Bytes.toNat bytes = 2 ^ 255 + 1 := by decide
  obtain ⟨-, hplaces, -, hbytes⟩ := operations_exact
  exact ⟨hplace, hlength, (hplaces a 129).1.1.trans hshift, (hplaces a 300).1.2 hplace,
    (hplaces a 300).2.2 hplace, (hbytes bytes hlength).1.trans hvalue, (hbytes bytes hlength).2⟩

end UInt256
end StarkVerifier
