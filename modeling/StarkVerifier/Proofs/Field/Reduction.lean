import Mathlib.Data.Nat.ModEq
import Mathlib.Tactic.Ring
import StarkVerifier.Field.Montgomery
import StarkVerifier.Proofs.UInt256

/-!
# Montgomery reduction

A reduction clears the four low words of eight, one after the other, by adding multiples of the modulus. The
eight words and the one carry above the window stand for the argument and what has been added to it at every
point, so no carry is lost, and what is left is below twice the modulus. Every sum fits two words.

Main statement: `reduce_exact`.
-/

namespace StarkVerifier

/-! ## Sums kept in two words -/

theorem DoubleWord.toNat_injective : Function.Injective DoubleWord.toNat := by
  rintro ⟨low, high⟩ ⟨low', high'⟩ h
  have hlow := low.toNat_lt
  have hlow' := low'.toNat_lt
  simp only [DoubleWord.toNat] at h
  rw [DoubleWord.mk.injEq, ← UInt64.toNat_inj, ← UInt64.toNat_inj]
  omega

theorem DoubleWord.toNat_lt (w : DoubleWord) : w.toNat < 2 ^ 128 := by
  have hlow := w.low.toNat_lt
  have hhigh := w.high.toNat_lt
  rw [DoubleWord.toNat]
  omega

namespace Word

/-- Two words for a number that fits them. -/
def double? (n : Nat) : Option DoubleWord :=
  if n < 2 ^ 128 then some ⟨.ofNat n, .ofNat (n / 2 ^ 64)⟩ else none

/-- `a + b + carry`, where each of the two sums has to fit two words. -/
def addCarry? (a b carry : UInt64) : Option DoubleWord := do
  let sum ← double? (a.toNat + b.toNat)
  double? (sum.toNat + carry.toNat)

/-- `a + b * c + carry`, where the product and each of the two sums have to fit two words. -/
def mulAdd? (a b c carry : UInt64) : Option DoubleWord := do
  let product ← double? (b.toNat * c.toNat)
  let sum ← double? (a.toNat + product.toNat)
  double? (sum.toNat + carry.toNat)

theorem exists_double? {n : Nat} (h : n < 2 ^ 128) : ∃ w, double? n = some w ∧ w.toNat = n := by
  refine ⟨_, if_pos h, ?_⟩
  rw [DoubleWord.toNat, UInt64.toNat_ofNat', UInt64.toNat_ofNat']
  omega

theorem double?_toNat (w : DoubleWord) : double? w.toNat = some w := by
  obtain ⟨w', hw', hvalue⟩ := exists_double? w.toNat_lt
  rw [hw', DoubleWord.toNat_injective hvalue]

theorem addCarry?_eq (a b carry : UInt64) : addCarry? a b carry = some (addCarry a b carry) := by
  have ha := a.toNat_lt
  have hb := b.toNat_lt
  obtain ⟨sum, hsum, hs⟩ := exists_double? (n := a.toNat + b.toNat) (by omega)
  simp only [addCarry?, hsum, hs, Option.bind_eq_bind, Option.bind_some]
  rw [← toNat_addCarry, double?_toNat]

theorem mulAdd?_eq (a b c carry : UInt64) : mulAdd? a b c carry = some (mulAdd a b c carry) := by
  have ha := a.toNat_lt
  have hbc : b.toNat * c.toNat ≤ (2 ^ 64 - 1) * (2 ^ 64 - 1) :=
    Nat.mul_le_mul (Nat.le_pred_of_lt b.toNat_lt) (Nat.le_pred_of_lt c.toNat_lt)
  obtain ⟨product, hproduct, hp⟩ := exists_double? (n := b.toNat * c.toNat) (by omega)
  obtain ⟨sum, hsum, hs⟩ := exists_double? (n := a.toNat + b.toNat * c.toNat) (by omega)
  simp only [mulAdd?, hproduct, hp, hsum, hs, Option.bind_eq_bind, Option.bind_some]
  rw [← toNat_mulAdd, double?_toNat]

end Word

namespace Montgomery

/-! ## One word -/

namespace Window

/-- A step in which every product and sum has to fit two words, and the word that is dropped has to be
zero. -/
def step? (s : Window) (next : UInt64) : Option Window := do
  let m := 0 - s.words.w0
  let p0 ← Word.mulAdd? s.words.w0 m modulusWords.w0 0
  let p1 ← Word.mulAdd? s.words.w1 m modulusWords.w1 p0.high
  let p2 ← Word.mulAdd? s.words.w2 m modulusWords.w2 p1.high
  let p3 ← Word.mulAdd? s.words.w3 m modulusWords.w3 p2.high
  let top ← Word.addCarry? next p3.high s.carry
  if p0.low = 0 then some ⟨⟨p1.low, p2.low, p3.low, top.low⟩, top.high⟩ else none

/-- The modulus is one modulo `2 ^ 64`, so the multiple of it that is added clears the word. -/
theorem low_mulAdd_neg (w : UInt64) : (Word.mulAdd w (0 - w) modulusWords.w0 0).low = 0 := by
  have hsum := Word.toNat_mulAdd w (0 - w) modulusWords.w0 0
  have hone : modulusWords.w0.toNat = 1 := rfl
  have hneg : (0 - w).toNat = (2 ^ 64 - w.toNat) % 2 ^ 64 := by
    rw [UInt64.toNat_sub]
    simp
  have hw := w.toNat_lt
  have hlow := (Word.mulAdd w (0 - w) modulusWords.w0 0).low.toNat_lt
  rw [DoubleWord.toNat, hone, hneg, UInt64.toNat_zero, Nat.mul_one, Nat.add_zero] at hsum
  apply UInt64.toNat_inj.mp
  rw [UInt64.toNat_zero]
  omega

theorem step?_eq (s : Window) (next : UInt64) : s.step? next = some (s.step next) := by
  simp only [step?, Word.mulAdd?_eq, Word.addCarry?_eq, Option.bind_eq_bind, Option.bind_some]
  rw [if_pos (low_mulAdd_neg s.words.w0)]
  rfl

theorem carry_step_le {s : Window} (h : s.carry.toNat ≤ 1) (next : UInt64) :
    (s.step next).carry.toNat ≤ 1 := by
  have hstep := s.toNat_step next
  have hwords := s.words.toNat_lt
  have hnext := next.toNat_lt
  have hm := (0 - s.words.w0).toNat_lt
  generalize (0 - s.words.w0).toNat = m at *
  simp only [toNat, modulus] at hstep
  omega

/-! ## All words -/

theorem foldlM_step? (s : Window) (next : List UInt64) :
    next.foldlM step? s = some (next.foldl step s) := by
  induction next generalizing s with
  | nil => rfl
  | cons w next ih =>
      rw [List.foldlM_cons, step?_eq, Option.bind_eq_bind, Option.bind_some, ih, List.foldl_cons]

theorem carry_foldl_step_le {s : Window} (h : s.carry.toNat ≤ 1) (next : List UInt64) :
    (next.foldl step s).carry.toNat ≤ 1 := by
  induction next generalizing s with
  | nil => exact h
  | cons w next ih => exact ih (carry_step_le h w)

/-- A run adds a multiple of the modulus, and moves the window up by as many words as it takes in. -/
theorem toNat_foldl_step (s : Window) (next : List UInt64) :
    ∃ m < 2 ^ (64 * next.length), 2 ^ (64 * next.length) * (next.foldl step s).toNat =
      s.toNat + 2 ^ 256 * Word.value next + m * modulus := by
  induction next generalizing s with
  | nil => exact ⟨0, Nat.one_pos, by simp [Word.value_nil]⟩
  | cons w next ih =>
      obtain ⟨m, hm, hrest⟩ := ih (s.step w)
      have hstep := s.toNat_step w
      have hq := (0 - s.words.w0).toNat_lt
      generalize (0 - s.words.w0).toNat = q at *
      have hpow : 2 ^ (64 * (next.length + 1)) = 2 ^ 64 * 2 ^ (64 * next.length) := by
        rw [Nat.mul_succ, Nat.pow_add, Nat.mul_comm]
      rw [List.foldl_cons, List.length_cons, Word.value_cons, hpow]
      -- the multiple that the first step adds is the lowest word of the whole multiple
      refine ⟨q + 2 ^ 64 * m, by omega, ?_⟩
      calc 2 ^ 64 * 2 ^ (64 * next.length) * (next.foldl step (s.step w)).toNat
          = 2 ^ 64 * (s.step w).toNat + 2 ^ 64 * (2 ^ 256 * Word.value next + m * modulus) := by
            rw [Nat.mul_assoc, hrest, Nat.add_assoc, Nat.mul_add]
        _ = s.toNat + 2 ^ 256 * (2 ^ 64 * Word.value next + w.toNat) + (q + 2 ^ 64 * m) * modulus := by
            rw [hstep]
            ring

end Window

/-! ## The eight words -/

/-- The window after `k` words have been taken in. -/
def windowAfter (t : UInt512) (k : Nat) : Window :=
  (t.high.words.take k).foldl Window.step ⟨t.low, 0⟩

theorem windowAfter_four (t : UInt512) : windowAfter t 4 = fold t := rfl

theorem carry_windowAfter_le (t : UInt512) (k : Nat) : (windowAfter t k).carry.toNat ≤ 1 := by
  have hstart : (⟨t.low, 0⟩ : Window).carry.toNat ≤ 1 := Nat.zero_le 1
  exact Window.carry_foldl_step_le hstart _

/-- The run of a reduction in checked steps. -/
def fold? (t : UInt512) : Option Window := t.high.words.foldlM Window.step? ⟨t.low, 0⟩

theorem fold?_eq (t : UInt512) : fold? t = some (fold t) := Window.foldlM_step? _ _

/-- The eight words after `k` of them have been cleared: zeros, the window, and the words that it has not
taken in. -/
def accumulator (t : UInt512) (k : Nat) : List UInt64 :=
  List.replicate k 0 ++ (windowAfter t k).words.words ++ t.high.words.drop k

/-- What the eight words stand for together with the carry, which is for the word above the window. -/
def accumulated (t : UInt512) (k : Nat) : Nat :=
  Word.value (accumulator t k) + 2 ^ (64 * (k + 4)) * (windowAfter t k).carry.toNat

variable {t : UInt512} {k : Nat}

theorem accumulator_zero (t : UInt512) : accumulator t 0 = t.words := by
  rw [accumulator, List.replicate_zero, List.nil_append, List.drop_zero]
  rfl

theorem length_accumulator (hk : k ≤ 4) : (accumulator t k).length = 8 := by
  rw [accumulator, List.length_append, List.length_append, List.length_replicate, List.length_drop,
    UInt256.length_words, UInt256.length_words]
  omega

theorem accumulated_eq (t : UInt512) (k : Nat) :
    accumulated t k = 2 ^ (64 * k) * (windowAfter t k).toNat +
      2 ^ (64 * (k + 4)) * Word.value (t.high.words.drop k) := by
  have hpow : 2 ^ (64 * (k + 4)) = 2 ^ (64 * k) * 2 ^ 256 := by
    rw [Nat.mul_add, Nat.pow_add]
  rw [accumulated, accumulator, Word.value_append, Word.value_append, Word.value_replicate_zero,
    ← UInt256.toNat_eq_value, List.length_append, List.length_replicate, UInt256.length_words,
    Window.toNat, hpow]
  ring

/-- Only multiples of the modulus are added, and nothing is lost on the way. -/
theorem exists_accumulated_eq (t : UInt512) (hk : k ≤ 4) :
    ∃ m < 2 ^ (64 * k), accumulated t k = t.toNat + m * modulus := by
  have hlength : (t.high.words.take k).length = k := by
    rw [List.length_take, UInt256.length_words, Nat.min_eq_left hk]
  obtain ⟨m, hm, hrun⟩ := Window.toNat_foldl_step ⟨t.low, 0⟩ (t.high.words.take k)
  rw [hlength] at hm hrun
  have hstart : Window.toNat ⟨t.low, 0⟩ = t.low.toNat := by
    rw [Window.toNat, UInt64.toNat_zero, Nat.mul_zero, Nat.add_zero]
  have hhigh : t.high.toNat =
      Word.value (t.high.words.take k) + 2 ^ (64 * k) * Word.value (t.high.words.drop k) := by
    have happend := Word.value_append (t.high.words.take k) (t.high.words.drop k)
    rwa [List.take_append_drop, hlength, ← UInt256.toNat_eq_value] at happend
  refine ⟨m, hm, ?_⟩
  rw [accumulated_eq, windowAfter, hrun, hstart, UInt512.toNat, hhigh, Nat.mul_add, Nat.pow_add]
  ring

theorem accumulated_lt (h : t.toNat < modulus * 2 ^ 256) (hk : k ≤ 4) : accumulated t k < 2 ^ 512 := by
  obtain ⟨m, hm, heq⟩ := exists_accumulated_eq t hk
  have hbound : m < 2 ^ 256 := hm.trans_le (Nat.pow_le_pow_right Nat.two_pos (by omega))
  rw [heq]
  simp only [modulus] at *
  omega

theorem toNat_fold_lt (h : t.toNat < modulus * 2 ^ 256) : (fold t).toNat < 2 * modulus := by
  obtain ⟨m, hm, hfold⟩ := toNat_fold t
  simp only [modulus] at *
  omega

theorem carry_fold (h : t.toNat < modulus * 2 ^ 256) : (fold t).carry = 0 := by
  have hlt := toNat_fold_lt h
  apply UInt64.toNat_inj.mp
  simp only [Window.toNat, modulus, UInt64.toNat_zero] at *
  omega

/-! ## The statement -/

/-- Below `2 ^ 256` times the modulus a reduction is a division by `2 ^ 256` modulo the modulus. It runs the
same when every product and sum has to fit two words and every word that is dropped has to be zero. The
eight words start as those of the argument, and after each word they and the carry stand for the argument
and a multiple of the modulus, within 512 bits. In the end no carry is left, and one subtraction at most is
needed for the remainder. -/
theorem reduce_exact (h : t.toNat < modulus * 2 ^ 256) :
    (reduce t).toNat < modulus ∧ (reduce t).toNat * 2 ^ 256 ≡ t.toNat [MOD modulus] ∧
    fold? t = some (fold t) ∧
    (t.toNat = Word.value t.words ∧ accumulator t 0 = t.words) ∧
    (∀ k ≤ 4, (accumulator t k).length = 8 ∧ (windowAfter t k).carry.toNat ≤ 1 ∧
      accumulated t k < 2 ^ 512 ∧ ∃ m < 2 ^ (64 * k), accumulated t k = t.toNat + m * modulus) ∧
    windowAfter t 4 = fold t ∧ (fold t).carry = 0 ∧ (fold t).words.toNat < 2 * modulus ∧
    (reduce t).toNat = (fold t).words.toNat % modulus := by
  have hcarry := carry_fold h
  have hwindow : (fold t).toNat = (fold t).words.toNat := by
    rw [Window.toNat, hcarry, UInt64.toNat_zero, Nat.mul_zero, Nat.add_zero]
  have hlast := toNat_fold_lt h
  have hreduce := toNat_reduce h
  rw [hwindow] at hlast hreduce
  exact ⟨toNat_reduce_lt h, reduce_mul_mod h, fold?_eq t,
    ⟨t.toNat_eq_value, accumulator_zero t⟩,
    fun k hk => ⟨length_accumulator hk, carry_windowAfter_le t k, accumulated_lt h hk,
      exists_accumulated_eq t hk⟩,
    windowAfter_four t, hcarry, hlast, hreduce⟩

/-- Carries out of three windows in a row, and leaves more than the modulus. -/
def carrying : UInt512 where
  low := ⟨1, 0, 0, 0⟩
  high := ⟨0xffffffffffffffff, 0xffffffffffffffff, 0xffffffffffffffff, 0x0800000000000010⟩

theorem reduce_exact_carrying :
    carrying.toNat < modulus * 2 ^ 256 ∧
    ((windowAfter carrying 1).carry = 1 ∧ (windowAfter carrying 2).carry = 1 ∧
      (windowAfter carrying 3).carry = 1 ∧ modulus ≤ (fold carrying).words.toNat) ∧
    (reduce carrying).toNat < modulus ∧
    (reduce carrying).toNat * 2 ^ 256 ≡ carrying.toNat [MOD modulus] ∧
    fold? carrying = some (fold carrying) ∧ (fold carrying).carry = 0 ∧
    accumulated carrying 3 < 2 ^ 512 := by
  have hsmall : carrying.toNat < modulus * 2 ^ 256 := by decide
  obtain ⟨hlt, hmod, hchecked, -, hwords, -, hcarry, -, -⟩ := reduce_exact hsmall
  exact ⟨hsmall, ⟨by decide, by decide, by decide, by decide⟩, hlt, hmod, hchecked, hcarry,
    (hwords 3 (by decide)).2.2.1⟩

end Montgomery
end StarkVerifier
