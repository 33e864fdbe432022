/-!
Powers of two among the natural numbers, and 64-bit words: sums, differences and products kept at their
full width.
-/

namespace StarkVerifier

/- Powers of numbers are the core library's, whatever algebra is imported beside them. -/
attribute [instance (high)] instPowNat
attribute [default_instance 20000] instPowNat

def isTwoPower (n : Nat) : Bool := n ≠ 0 && 2 ^ n.log2 = n

/-- The least power of two that is no less. -/
def nextTwoPower (n : Nat) : Nat := if n ≤ 1 then 1 else 2 ^ ((n - 1).log2 + 1)

/-- Zero bits below the lowest one bit, counted up to `width`. -/
def trailingZerosWithin : Nat → Nat → Nat
  | 0, _ => 0
  | width + 1, n => if n % 2 = 1 then 0 else trailingZerosWithin width (n / 2) + 1

/-- Zero bits below the lowest one bit of a 64-bit word, all 64 for zero. -/
def trailingZeros (n : Nat) : Nat := trailingZerosWithin 64 n

/-- The lowest `bits` bits in reverse order. -/
def bitReverse : Nat → Nat → Nat
  | 0, _ => 0
  | bits + 1, i => (i % 2) * 2 ^ bits + bitReverse bits (i / 2)

/-! ## Carries -/

/-- Two words that stand for `low + 2 ^ 64 * high`. -/
structure DoubleWord where
  low : UInt64
  high : UInt64
deriving DecidableEq

namespace DoubleWord

def toNat (w : DoubleWord) : Nat := w.low.toNat + 2 ^ 64 * w.high.toNat

end DoubleWord

namespace Word

/-- Number of significant bits, none for zero. -/
def bitLength (w : UInt64) : Nat := if w = 0 then 0 else w.toNat.log2 + 1

/-- One when the condition holds, else zero. -/
@[inline] def ofBool (b : Bool) : UInt64 := if b then 1 else 0

/-- `a + b + carry`. -/
@[inline] def addCarry (a b carry : UInt64) : DoubleWord :=
  let s := a + b
  let t := s + carry
  ⟨t, ofBool (s < a) + ofBool (t < s)⟩

/-- `a - b - borrow`; the high word is one when the difference is negative. -/
@[inline] def subBorrow (a b borrow : UInt64) : DoubleWord :=
  let d := a - b
  ⟨d - borrow, ofBool (a < b) ||| ofBool (d < borrow)⟩

/-- `a * b`, from the products of the 32-bit halves. -/
@[inline] def mulWide (a b : UInt64) : DoubleWord :=
  let a0 := a &&& 0xffffffff
  let a1 := a >>> 32
  let b0 := b &&& 0xffffffff
  let b1 := b >>> 32
  let p00 := a0 * b0
  let p01 := a0 * b1
  let p10 := a1 * b0
  let middle := (p00 >>> 32) + (p01 &&& 0xffffffff) + (p10 &&& 0xffffffff)
  ⟨a * b, a1 * b1 + (p01 >>> 32) + (p10 >>> 32) + (middle >>> 32)⟩

/-- `a + b * c + carry`, which always fits two words. -/
@[inline] def mulAdd (a b c carry : UInt64) : DoubleWord :=
  let p := mulWide b c
  let s := addCarry p.low a carry
  ⟨s.low, p.high + s.high⟩

theorem toNat_ofBool (p : Prop) [Decidable p] :
    (ofBool (decide p)).toNat = if p then 1 else 0 := by
  by_cases h : p <;> simp [ofBool, h]

theorem toNat_addCarry (a b carry : UInt64) :
    (addCarry a b carry).toNat = a.toNat + b.toNat + carry.toNat := by
  have ha := a.toNat_lt
  have hb := b.toNat_lt
  have hc := carry.toNat_lt
  simp only [addCarry, DoubleWord.toNat, UInt64.toNat_add, toNat_ofBool, UInt64.lt_iff_toNat_lt]
  split <;> split <;> omega

theorem toNat_subBorrow (a b borrow : UInt64) (h : borrow.toNat ≤ 1) :
    (subBorrow a b borrow).high.toNat ≤ 1 ∧
      a.toNat + 2 ^ 64 * (subBorrow a b borrow).high.toNat =
        b.toNat + borrow.toNat + (subBorrow a b borrow).low.toNat := by
  have ha := a.toNat_lt
  have hb := b.toNat_lt
  simp only [subBorrow, UInt64.toNat_sub, UInt64.toNat_or, toNat_ofBool, UInt64.lt_iff_toNat_lt]
  split <;> split <;> simp <;> omega

theorem toNat_mulWide (a b : UInt64) : (mulWide a b).toNat = a.toNat * b.toNat := by
  have ha := a.toNat_lt
  have hb := b.toNat_lt
  have mask (x : UInt64) : (x &&& 0xffffffff).toNat = x.toNat % 2 ^ 32 := by
    simpa using Nat.and_two_pow_sub_one_eq_mod x.toNat 32
  have shift (x : UInt64) : (x >>> 32).toNat = x.toNat / 2 ^ 32 := by
    simp [Nat.shiftRight_eq_div_pow]
  simp only [mulWide, DoubleWord.toNat, UInt64.toNat_add, UInt64.toNat_mul, mask, shift]
  have ha' := Nat.div_add_mod a.toNat (2 ^ 32)
  have hb' := Nat.div_add_mod b.toNat (2 ^ 32)
  have ha0 := Nat.mod_lt a.toNat (show 0 < 2 ^ 32 by decide)
  have hb0 := Nat.mod_lt b.toNat (show 0 < 2 ^ 32 by decide)
  have ha1 : a.toNat / 2 ^ 32 < 2 ^ 32 := by omega
  have hb1 : b.toNat / 2 ^ 32 < 2 ^ 32 := by omega
  generalize a.toNat / 2 ^ 32 = a1 at *
  generalize a.toNat % 2 ^ 32 = a0 at *
  generalize b.toNat / 2 ^ 32 = b1 at *
  generalize b.toNat % 2 ^ 32 = b0 at *
  have expand : a.toNat * b.toNat = a0 * b0 + 2 ^ 32 * (a0 * b1 + a1 * b0) + 2 ^ 64 * (a1 * b1) := by
    rw [← ha', ← hb']
    simp only [Nat.add_mul, Nat.mul_add, Nat.mul_assoc, Nat.mul_left_comm _ (2 ^ 32)]
    omega
  have bound {x y : Nat} (hx : x < 2 ^ 32) (hy : y < 2 ^ 32) : x * y ≤ (2 ^ 32 - 1) * (2 ^ 32 - 1) :=
    Nat.mul_le_mul (by omega) (by omega)
  have h00 := bound ha0 hb0
  have h01 := bound ha0 hb1
  have h10 := bound ha1 hb0
  have h11 := bound ha1 hb1
  rw [expand]
  generalize a0 * b0 = p00 at *
  generalize a0 * b1 = p01 at *
  generalize a1 * b0 = p10 at *
  generalize a1 * b1 = p11 at *
  omega

theorem toNat_mulAdd (a b c carry : UInt64) :
    (mulAdd a b c carry).toNat = a.toNat + b.toNat * c.toNat + carry.toNat := by
  have ha := a.toNat_lt
  have hc := carry.toNat_lt
  have hbc : b.toNat * c.toNat ≤ (2 ^ 64 - 1) * (2 ^ 64 - 1) :=
    Nat.mul_le_mul (Nat.le_pred_of_lt b.toNat_lt) (Nat.le_pred_of_lt c.toNat_lt)
  have hp := toNat_mulWide b c
  have hs := toNat_addCarry (mulWide b c).low a carry
  have hl := (mulWide b c).low.toNat_lt
  have hsl := (addCarry (mulWide b c).low a carry).low.toNat_lt
  simp only [mulAdd, DoubleWord.toNat, UInt64.toNat_add] at *
  generalize b.toNat * c.toNat = p at *
  omega

end Word
end StarkVerifier
