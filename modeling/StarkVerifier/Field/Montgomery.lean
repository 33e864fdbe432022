import StarkVerifier.UInt256
/-!
Montgomery reduction modulo `2 ^ 251 + 17 * 2 ^ 192 + 1`: division by `2 ^ 256` without a trial
quotient. Main statement: `reduce` is below the modulus, and `2 ^ 256` times it is the argument
modulo the modulus.
-/

namespace StarkVerifier

/-- `2 ^ 251 + 17 * 2 ^ 192 + 1`, a prime. -/
def modulus : Nat := 0x0800000000000011000000000000000000000000000000000000000000000001

namespace Montgomery

def modulusWords : UInt256 := ⟨1, 0, 0, 0x0800000000000011⟩

theorem toNat_modulusWords : modulusWords.toNat = modulus := rfl

/-- A window of 256 bits that moves up the number under reduction, with the carry above it. -/
structure Window where
  words : UInt256
  carry : UInt64

namespace Window

def toNat (s : Window) : Nat := s.words.toNat + 2 ^ 256 * s.carry.toNat

/-- Adds the multiple of the modulus that clears the lowest word, drops that word and takes in
`next` at the top. The modulus is one modulo `2 ^ 64`, so the multiplier is the negated word. -/
@[inline] def step (s : Window) (next : UInt64) : Window :=
  let r := s.words.mulAdd (0 - s.words.w0) modulusWords
  let top := Word.addCarry next r.rest.w3 s.carry
  ⟨⟨r.rest.w0, r.rest.w1, r.rest.w2, top.low⟩, top.high⟩

theorem toNat_step (s : Window) (next : UInt64) :
    2 ^ 64 * (s.step next).toNat =
      s.toNat + 2 ^ 256 * next.toNat + (0 - s.words.w0).toNat * modulus := by
  have hw := s.words.toNat_words_lt
  have hr := UInt256.toNat_mulAdd s.words (0 - s.words.w0) modulusWords
  have ht := Word.toNat_addCarry next (s.words.mulAdd (0 - s.words.w0) modulusWords).rest.w3 s.carry
  have hm : (0 - s.words.w0).toNat = (2 ^ 64 - s.words.w0.toNat) % 2 ^ 64 := by
    rw [UInt64.toNat_sub]
    simp
  rw [toNat_modulusWords] at hr
  simp only [step, toNat, UInt256.Row.toNat, UInt256.toNat_mk, DoubleWord.toNat, modulus] at *
  generalize s.words.mulAdd (0 - s.words.w0) modulusWords = r at *
  generalize Word.addCarry next r.rest.w3 s.carry = t at *
  have hr0 := r.lowest.toNat_lt
  simp only [UInt256.toNat] at *
  omega

end Window

/-- The last window of the reduction. -/
@[inline] def fold (t : UInt512) : Window :=
  ((((⟨t.low, 0⟩ : Window).step t.high.w0).step t.high.w1).step t.high.w2).step t.high.w3

theorem toNat_fold (t : UInt512) :
    ∃ m < 2 ^ 256, 2 ^ 256 * (fold t).toNat = t.toNat + m * modulus := by
  have h0 := Window.toNat_step ⟨t.low, 0⟩ t.high.w0
  have h1 := Window.toNat_step ((⟨t.low, 0⟩ : Window).step t.high.w0) t.high.w1
  have h2 := Window.toNat_step (((⟨t.low, 0⟩ : Window).step t.high.w0).step t.high.w1) t.high.w2
  have h3 := Window.toNat_step
    ((((⟨t.low, 0⟩ : Window).step t.high.w0).step t.high.w1).step t.high.w2) t.high.w3
  simp only [fold, UInt512.toNat]
  have hs : (⟨t.low, 0⟩ : Window).toNat = t.low.toNat := by simp [Window.toNat]
  rw [hs] at h0
  generalize (⟨t.low, 0⟩ : Window).step t.high.w0 = s1 at *
  generalize s1.step t.high.w1 = s2 at *
  generalize s2.step t.high.w2 = s3 at *
  generalize s3.step t.high.w3 = s4 at *
  have b0 := (0 - (⟨t.low, 0⟩ : Window).words.w0).toNat_lt
  have b1 := (0 - s1.words.w0).toNat_lt
  have b2 := (0 - s2.words.w0).toNat_lt
  have b3 := (0 - s3.words.w0).toNat_lt
  refine ⟨(0 - (⟨t.low, 0⟩ : Window).words.w0).toNat + 2 ^ 64 * (0 - s1.words.w0).toNat +
    2 ^ 128 * (0 - s2.words.w0).toNat + 2 ^ 192 * (0 - s3.words.w0).toNat, by omega, ?_⟩
  have ht : t.high.toNat = t.high.w0.toNat + 2 ^ 64 * t.high.w1.toNat + 2 ^ 128 * t.high.w2.toNat +
    2 ^ 192 * t.high.w3.toNat := rfl
  simp only [modulus] at *
  omega

/-- The argument divided by `2 ^ 256` modulo the modulus, for arguments below `2 ^ 256` times the
modulus. -/
def reduce (t : UInt512) : UInt256 :=
  let s := fold t
  if s.carry ≠ 0 ∨ s.words.lt modulusWords = false then (s.words.subBorrow modulusWords).1
  else s.words

/-- Before the last subtraction the window is below twice the modulus, so one suffices. -/
theorem toNat_reduce {t : UInt512} (h : t.toNat < modulus * 2 ^ 256) :
    (reduce t).toNat = (fold t).toNat % modulus := by
  obtain ⟨m, hm, hf⟩ := toNat_fold t
  have hsub := UInt256.toNat_subBorrow (fold t).words modulusWords
  have hlt := UInt256.lt_iff (fold t).words modulusWords
  have hlow := ((fold t).words.subBorrow modulusWords).1.toNat_lt
  have hwords := (fold t).words.toNat_lt
  simp only [reduce, Window.toNat, toNat_modulusWords] at *
  generalize (fold t).words = w at *
  generalize (fold t).carry = c at *
  simp only [modulus] at *
  have bound : w.toNat + 2 ^ 256 * c.toNat < 2 * 0x0800000000000011000000000000000000000000000000000000000000000001 := by
    omega
  have hc : c = 0 := UInt64.toNat_inj.mp (by simp; omega)
  subst hc
  rw [UInt64.toNat_zero, Nat.mul_zero, Nat.add_zero] at *
  cases hw : w.lt modulusWords
  · rw [hw] at hlt
    simp only [ne_eq, not_true_eq_false, or_true, if_true]
    have hge : ¬ w.toNat < 0x0800000000000011000000000000000000000000000000000000000000000001 := by
      intro h'
      simpa using hlt.mpr h'
    cases hb : (w.subBorrow modulusWords).2
    · simp only [hb, Bool.toNat_false] at hsub
      omega
    · simp only [hb, Bool.toNat_true] at hsub
      omega
  · rw [hw] at hlt
    simp only [ne_eq, not_true_eq_false, false_or, Bool.true_eq_false, if_false]
    exact (Nat.mod_eq_of_lt (hlt.mp rfl)).symm

theorem toNat_reduce_lt {t : UInt512} (h : t.toNat < modulus * 2 ^ 256) :
    (reduce t).toNat < modulus := by
  rw [toNat_reduce h]
  exact Nat.mod_lt _ (by decide)

theorem reduce_mul_mod {t : UInt512} (h : t.toNat < modulus * 2 ^ 256) :
    (reduce t).toNat * 2 ^ 256 % modulus = t.toNat % modulus := by
  obtain ⟨m, -, hf⟩ := toNat_fold t
  rw [toNat_reduce h, Nat.mod_mul_mod, Nat.mul_comm, hf, Nat.add_mul_mod_self_right]

/-! ## Residues: numbers below the modulus -/

/-- `2 ^ 256` modulo the modulus: the Montgomery form of one. -/
def one : UInt256 :=
  ⟨0xffffffffffffffe1, 0xffffffffffffffff, 0xffffffffffffffff, 0x07fffffffffffdf0⟩

/-- `2 ^ 512` modulo the modulus: a product with it enters Montgomery form. -/
def square : UInt256 :=
  ⟨0xfffffd737e000401, 0x00000001330fffff, 0xffffffffff6f8000, 0x07ffd4ab5e008810⟩

def add (a b : UInt256) : UInt256 :=
  let s := (a.addCarry b).1
  if s.lt modulusWords then s else (s.subBorrow modulusWords).1

def sub (a b : UInt256) : UInt256 :=
  let d := a.subBorrow b
  if d.2 then (d.1.addCarry modulusWords).1 else d.1

def mul (a b : UInt256) : UInt256 := reduce (a.mulWide b)

theorem toNat_add {a b : UInt256} (ha : a.toNat < modulus) (hb : b.toNat < modulus) :
    (add a b).toNat = (a.toNat + b.toNat) % modulus := by
  have hs := UInt256.toNat_addCarry a b
  have hlt := UInt256.lt_iff (a.addCarry b).1 modulusWords
  have hd := UInt256.toNat_subBorrow (a.addCarry b).1 modulusWords
  have hlow := ((a.addCarry b).1.subBorrow modulusWords).1.toNat_lt
  simp only [add, toNat_modulusWords] at *
  generalize (a.addCarry b).1 = s at *
  have hcarry : (a.addCarry b).2 = false := by
    cases h : (a.addCarry b).2
    · rfl
    · simp only [h, Bool.toNat_true, modulus] at *
      omega
  rw [hcarry, Bool.toNat_false] at hs
  by_cases h : s.lt modulusWords = true
  · rw [if_pos h]
    simp only [h, true_iff, modulus] at *
    omega
  · rw [if_neg h]
    simp only [h, false_iff, modulus, Bool.false_eq_true] at *
    cases hb : (s.subBorrow modulusWords).2
    · simp only [hb, Bool.toNat_false] at hd
      omega
    · simp only [hb, Bool.toNat_true] at hd
      omega

theorem toNat_sub {a b : UInt256} (ha : a.toNat < modulus) (hb : b.toNat < modulus) :
    (sub a b).toNat = (a.toNat + (modulus - b.toNat)) % modulus := by
  have hd := UInt256.toNat_subBorrow a b
  have hs := UInt256.toNat_addCarry (a.subBorrow b).1 modulusWords
  have hlow := (a.subBorrow b).1.toNat_lt
  have hlow' := ((a.subBorrow b).1.addCarry modulusWords).1.toNat_lt
  simp only [sub, toNat_modulusWords] at *
  cases h : (a.subBorrow b).2
  · simp only [h, Bool.toNat_false, Bool.false_eq_true, if_false, modulus] at *
    omega
  · simp only [h, Bool.toNat_true, if_true, modulus] at *
    cases hc : ((a.subBorrow b).1.addCarry modulusWords).2
    · simp only [hc, Bool.toNat_false] at hs
      omega
    · simp only [hc, Bool.toNat_true] at hs
      omega

theorem toNat_mul_lt (a : UInt256) {b : UInt256} (hb : b.toNat < modulus) :
    (mul a b).toNat < modulus := by
  refine toNat_reduce_lt ?_
  rw [UInt256.toNat_mulWide, Nat.mul_comm]
  exact Nat.mul_lt_mul'' hb a.toNat_lt

theorem mul_mod (a : UInt256) {b : UInt256} (hb : b.toNat < modulus) :
    (mul a b).toNat * 2 ^ 256 % modulus = a.toNat * b.toNat % modulus := by
  rw [← UInt256.toNat_mulWide]
  refine reduce_mul_mod ?_
  rw [UInt256.toNat_mulWide, Nat.mul_comm]
  exact Nat.mul_lt_mul'' hb a.toNat_lt

theorem toNat_square_lt : square.toNat < modulus := by decide

theorem toNat_one_lt : one.toNat < modulus := by decide

end Montgomery
end StarkVerifier
