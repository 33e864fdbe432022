import StarkVerifier.Word
/-!
Numbers of 256 bits, four words from the lowest up, and their products of 512 bits. Each operation
comes with its law on `toNat`.
-/

namespace StarkVerifier

structure UInt256 where
  w0 : UInt64
  w1 : UInt64
  w2 : UInt64
  w3 : UInt64
deriving DecidableEq

/-- A number of 512 bits, its lower half first. -/
structure UInt512 where
  low : UInt256
  high : UInt256
deriving DecidableEq

namespace UInt256

def toNat (a : UInt256) : Nat :=
  a.w0.toNat + 2 ^ 64 * a.w1.toNat + 2 ^ 128 * a.w2.toNat + 2 ^ 192 * a.w3.toNat

/-- The number modulo `2 ^ 256`. -/
def ofNat (n : Nat) : UInt256 :=
  ⟨.ofNat n, .ofNat (n >>> 64), .ofNat (n >>> 128), .ofNat (n >>> 192)⟩

def ofWord (w : UInt64) : UInt256 := ⟨w, 0, 0, 0⟩

theorem toNat_mk (w0 w1 w2 w3 : UInt64) : toNat ⟨w0, w1, w2, w3⟩ =
    w0.toNat + 2 ^ 64 * w1.toNat + 2 ^ 128 * w2.toNat + 2 ^ 192 * w3.toNat := (rfl)

/-- From the lowest word up. -/
def words (a : UInt256) : List UInt64 := [a.w0, a.w1, a.w2, a.w3]

theorem toNat_words_lt (a : UInt256) :
    a.w0.toNat < 2 ^ 64 ∧ a.w1.toNat < 2 ^ 64 ∧ a.w2.toNat < 2 ^ 64 ∧ a.w3.toNat < 2 ^ 64 :=
  ⟨a.w0.toNat_lt, a.w1.toNat_lt, a.w2.toNat_lt, a.w3.toNat_lt⟩

theorem toNat_lt (a : UInt256) : a.toNat < 2 ^ 256 := by
  have := a.toNat_words_lt
  simp only [toNat]
  omega

theorem toNat_inj {a b : UInt256} : a.toNat = b.toNat ↔ a = b := by
  constructor
  · intro h
    have ha := a.toNat_words_lt
    have hb := b.toNat_words_lt
    cases a
    cases b
    simp only [toNat, mk.injEq, ← UInt64.toNat_inj] at *
    omega
  · rintro rfl
    rfl

theorem toNat_ofNat (n : Nat) : (ofNat n).toNat = n % 2 ^ 256 := by
  simp only [toNat, ofNat, UInt64.toNat_ofNat', Nat.shiftRight_eq_div_pow]
  omega

theorem toNat_ofWord (w : UInt64) : (ofWord w).toNat = w.toNat := by simp [ofWord, toNat]

/-! ## Order -/

/-- The highest word that differs decides. -/
def lt (a b : UInt256) : Bool :=
  if a.w3 ≠ b.w3 then a.w3 < b.w3
  else if a.w2 ≠ b.w2 then a.w2 < b.w2
  else if a.w1 ≠ b.w1 then a.w1 < b.w1
  else a.w0 < b.w0

theorem lt_iff (a b : UInt256) : lt a b = true ↔ a.toNat < b.toNat := by
  have ha := a.toNat_words_lt
  have hb := b.toNat_words_lt
  simp only [lt, toNat, ne_eq, ← UInt64.toNat_inj, UInt64.lt_iff_toNat_lt]
  split
  · simp only [decide_eq_true_eq]
    omega
  · split
    · simp only [decide_eq_true_eq]
      omega
    · split <;> simp only [decide_eq_true_eq] <;> omega

def compare (a b : UInt256) : Ordering :=
  if lt a b then .lt else if lt b a then .gt else .eq

/-! ## Sum and difference -/

/-- The sum modulo `2 ^ 256`, and whether it overflowed. -/
@[inline] def addCarry (a b : UInt256) : UInt256 × Bool :=
  let s0 := Word.addCarry a.w0 b.w0 0
  let s1 := Word.addCarry a.w1 b.w1 s0.high
  let s2 := Word.addCarry a.w2 b.w2 s1.high
  let s3 := Word.addCarry a.w3 b.w3 s2.high
  (⟨s0.low, s1.low, s2.low, s3.low⟩, s3.high != 0)

/-- The difference modulo `2 ^ 256`, and whether it was negative. -/
@[inline] def subBorrow (a b : UInt256) : UInt256 × Bool :=
  let d0 := Word.subBorrow a.w0 b.w0 0
  let d1 := Word.subBorrow a.w1 b.w1 d0.high
  let d2 := Word.subBorrow a.w2 b.w2 d1.high
  let d3 := Word.subBorrow a.w3 b.w3 d2.high
  (⟨d0.low, d1.low, d2.low, d3.low⟩, d3.high != 0)

theorem toNat_ne_zero {w : UInt64} (h : w.toNat ≤ 1) : (w != 0).toNat = w.toNat := by
  rcases Nat.eq_zero_or_pos w.toNat with h0 | h0
  · simp [show w = 0 from UInt64.toNat_inj.mp h0]
  · simp [show w = 1 from UInt64.toNat_inj.mp (by simp; omega)]

theorem toNat_addCarry (a b : UInt256) :
    (addCarry a b).1.toNat + 2 ^ 256 * (addCarry a b).2.toNat = a.toNat + b.toNat := by
  have ha := a.toNat_words_lt
  have hb := b.toNat_words_lt
  have zero : UInt64.toNat 0 = 0 := rfl
  have l0 := Word.toNat_addCarry a.w0 b.w0 0
  have l1 := Word.toNat_addCarry a.w1 b.w1 (Word.addCarry a.w0 b.w0 0).high
  have l2 := Word.toNat_addCarry a.w2 b.w2
    (Word.addCarry a.w1 b.w1 (Word.addCarry a.w0 b.w0 0).high).high
  have l3 := Word.toNat_addCarry a.w3 b.w3 (Word.addCarry a.w2 b.w2
    (Word.addCarry a.w1 b.w1 (Word.addCarry a.w0 b.w0 0).high).high).high
  simp only [addCarry, toNat, DoubleWord.toNat] at *
  generalize Word.addCarry a.w0 b.w0 0 = s0 at *
  generalize Word.addCarry a.w1 b.w1 s0.high = s1 at *
  generalize Word.addCarry a.w2 b.w2 s1.high = s2 at *
  generalize Word.addCarry a.w3 b.w3 s2.high = s3 at *
  rw [toNat_ne_zero (by omega)]
  omega

theorem toNat_subBorrow (a b : UInt256) :
    a.toNat + 2 ^ 256 * (subBorrow a b).2.toNat = b.toNat + (subBorrow a b).1.toNat := by
  have zero : UInt64.toNat 0 = 0 := rfl
  have l0 := Word.toNat_subBorrow a.w0 b.w0 0 (by decide)
  have l1 := Word.toNat_subBorrow a.w1 b.w1 _ l0.1
  have l2 := Word.toNat_subBorrow a.w2 b.w2 _ l1.1
  have l3 := Word.toNat_subBorrow a.w3 b.w3 _ l2.1
  simp only [subBorrow, toNat] at *
  generalize Word.subBorrow a.w0 b.w0 0 = d0 at *
  generalize Word.subBorrow a.w1 b.w1 d0.high = d1 at *
  generalize Word.subBorrow a.w2 b.w2 d1.high = d2 at *
  generalize Word.subBorrow a.w3 b.w3 d2.high = d3 at *
  rw [toNat_ne_zero l3.1]
  omega

/-! ## Product -/

/-- A number of 320 bits: its lowest word, then the rest. -/
structure Row where
  lowest : UInt64
  rest : UInt256

namespace Row

def toNat (r : Row) : Nat := r.lowest.toNat + 2 ^ 64 * r.rest.toNat

end Row

/-- `a + b * c`, which always fits five words. -/
@[inline] def mulAdd (a : UInt256) (b : UInt64) (c : UInt256) : Row :=
  let p0 := Word.mulAdd a.w0 b c.w0 0
  let p1 := Word.mulAdd a.w1 b c.w1 p0.high
  let p2 := Word.mulAdd a.w2 b c.w2 p1.high
  let p3 := Word.mulAdd a.w3 b c.w3 p2.high
  ⟨p0.low, p1.low, p2.low, p3.low, p3.high⟩

theorem toNat_mulAdd (a : UInt256) (b : UInt64) (c : UInt256) :
    (mulAdd a b c).toNat = a.toNat + b.toNat * c.toNat := by
  have zero : UInt64.toNat 0 = 0 := rfl
  have l0 := Word.toNat_mulAdd a.w0 b c.w0 0
  have l1 := Word.toNat_mulAdd a.w1 b c.w1 (Word.mulAdd a.w0 b c.w0 0).high
  have l2 := Word.toNat_mulAdd a.w2 b c.w2
    (Word.mulAdd a.w1 b c.w1 (Word.mulAdd a.w0 b c.w0 0).high).high
  have l3 := Word.toNat_mulAdd a.w3 b c.w3 (Word.mulAdd a.w2 b c.w2
    (Word.mulAdd a.w1 b c.w1 (Word.mulAdd a.w0 b c.w0 0).high).high).high
  simp only [mulAdd, toNat, Row.toNat, DoubleWord.toNat, Nat.mul_add,
    Nat.mul_left_comm b.toNat] at *
  generalize Word.mulAdd a.w0 b c.w0 0 = p0 at *
  generalize Word.mulAdd a.w1 b c.w1 p0.high = p1 at *
  generalize Word.mulAdd a.w2 b c.w2 p1.high = p2 at *
  generalize Word.mulAdd a.w3 b c.w3 p2.high = p3 at *
  omega

/-- The whole product, one row for each word of `a`. -/
def mulWide (a b : UInt256) : UInt512 :=
  let r0 := mulAdd ⟨0, 0, 0, 0⟩ a.w0 b
  let r1 := mulAdd r0.rest a.w1 b
  let r2 := mulAdd r1.rest a.w2 b
  let r3 := mulAdd r2.rest a.w3 b
  ⟨⟨r0.lowest, r1.lowest, r2.lowest, r3.lowest⟩, r3.rest⟩

end UInt256

namespace UInt512

def toNat (t : UInt512) : Nat := t.low.toNat + 2 ^ 256 * t.high.toNat

/-- From the lowest word up. -/
def words (t : UInt512) : List UInt64 := t.low.words ++ t.high.words

end UInt512

namespace UInt256

theorem toNat_mulWide (a b : UInt256) : (mulWide a b).toNat = a.toNat * b.toNat := by
  have zero : toNat ⟨0, 0, 0, 0⟩ = 0 := rfl
  have l0 := toNat_mulAdd ⟨0, 0, 0, 0⟩ a.w0 b
  have l1 := toNat_mulAdd (mulAdd ⟨0, 0, 0, 0⟩ a.w0 b).rest a.w1 b
  have l2 := toNat_mulAdd (mulAdd (mulAdd ⟨0, 0, 0, 0⟩ a.w0 b).rest a.w1 b).rest a.w2 b
  have l3 := toNat_mulAdd
    (mulAdd (mulAdd (mulAdd ⟨0, 0, 0, 0⟩ a.w0 b).rest a.w1 b).rest a.w2 b).rest a.w3 b
  rw [zero] at l0
  simp only [mulWide, UInt512.toNat, Row.toNat] at *
  generalize mulAdd ⟨0, 0, 0, 0⟩ a.w0 b = r0 at *
  generalize mulAdd r0.rest a.w1 b = r1 at *
  generalize mulAdd r1.rest a.w2 b = r2 at *
  generalize mulAdd r2.rest a.w3 b = r3 at *
  have expand : a.toNat * b.toNat = a.w0.toNat * b.toNat + 2 ^ 64 * (a.w1.toNat * b.toNat) +
      2 ^ 128 * (a.w2.toNat * b.toNat) + 2 ^ 192 * (a.w3.toNat * b.toNat) := by
    rw [toNat, Nat.add_mul, Nat.add_mul, Nat.add_mul, Nat.mul_assoc, Nat.mul_assoc, Nat.mul_assoc]
  rw [expand, toNat_mk]
  omega

/-! ## Bits -/

/-- Zero past the highest word. -/
def word (a : UInt256) : Nat → UInt64
  | 0 => a.w0
  | 1 => a.w1
  | 2 => a.w2
  | 3 => a.w3
  | _ => 0

def testBit (a : UInt256) (i : Nat) : Bool :=
  (a.word (i / 64) >>> UInt64.ofNat (i % 64)) &&& 1 = 1

/-- Number of significant bits, none for zero. -/
def bitLength (a : UInt256) : Nat :=
  if a.w3 ≠ 0 then 192 + Word.bitLength a.w3
  else if a.w2 ≠ 0 then 128 + Word.bitLength a.w2
  else if a.w1 ≠ 0 then 64 + Word.bitLength a.w1
  else Word.bitLength a.w0

def shiftRight (a : UInt256) (n : Nat) : UInt256 :=
  let shifted (i : Nat) : UInt64 :=
    let low := a.word (i + n / 64) >>> UInt64.ofNat (n % 64)
    if n % 64 = 0 then low
    else low ||| a.word (i + n / 64 + 1) <<< UInt64.ofNat (64 - n % 64)
  ⟨shifted 0, shifted 1, shifted 2, shifted 3⟩

end UInt256
end StarkVerifier
