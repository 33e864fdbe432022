import StarkVerifier.Field.Montgomery
import StarkVerifier.Text
import StarkVerifier.Word
/-!
Elements of the prime field, held in Montgomery form. The form is below the modulus by type, so equal
elements have equal words. Evaluation domains are the powers of an element whose order is a power of two.
-/

namespace StarkVerifier

inductive FieldError where
  | divisionByZero
  | notCanonical (value : UInt256)
  | invalidHex (text : String)
  | invalidLength (expected actual : Nat)
  | unsupportedDomain (logSize : Nat)
  | notPowerOfTwo (size : Nat)
deriving DecidableEq

namespace FieldError

def message : FieldError → String
  | divisionByZero => "division by zero"
  | notCanonical value => s!"value {value.toHex} is not a canonical field element"
  | invalidHex text => s!"invalid hex literal {Text.quoted text}"
  | invalidLength expected actual => s!"expected {expected} bytes, got {actual}"
  | unsupportedDomain logSize => s!"no evaluation domain of size 2^{logSize}"
  | notPowerOfTwo size => s!"domain size {size} is not a power of two"

end FieldError

/-! ## Elements -/

structure Felt where
  mont : UInt256
  mont_lt : mont.toNat < modulus
deriving DecidableEq

namespace Felt

/-- Modulo the modulus. -/
def ofUInt256 (x : UInt256) : Felt :=
  ⟨Montgomery.mul x Montgomery.square, Montgomery.toNat_mul_lt x Montgomery.toNat_square_lt⟩

def ofWord (w : UInt64) : Felt := ofUInt256 (.ofWord w)

/-- Modulo the modulus. -/
def ofNat (n : Nat) : Felt := ofUInt256 (.ofNat (n % modulus))

/-- The number below the modulus that the element stands for. -/
def toUInt256 (a : Felt) : UInt256 := Montgomery.reduce ⟨a.mont, ⟨0, 0, 0, 0⟩⟩

def toNat (a : Felt) : Nat := a.toUInt256.toNat

instance : Zero Felt := ⟨⟨⟨0, 0, 0, 0⟩, by decide⟩⟩

instance : One Felt := ⟨⟨Montgomery.one, Montgomery.toNat_one_lt⟩⟩

instance : Inhabited Felt := ⟨0⟩

instance : Add Felt where
  add a b := ⟨Montgomery.add a.mont b.mont, by
    rw [Montgomery.toNat_add a.mont_lt b.mont_lt]
    exact Nat.mod_lt _ (by decide)⟩

instance : Sub Felt where
  sub a b := ⟨Montgomery.sub a.mont b.mont, by
    rw [Montgomery.toNat_sub a.mont_lt b.mont_lt]
    exact Nat.mod_lt _ (by decide)⟩

instance : Neg Felt := ⟨fun a => 0 - a⟩

instance : Mul Felt where
  mul a b := ⟨Montgomery.mul a.mont b.mont, Montgomery.toNat_mul_lt a.mont b.mont_lt⟩

/-- Three generates the multiplicative group. -/
def generator : Felt := ofWord 3

def square (a : Felt) : Felt := a * a

/-- The power by the lowest `bits` bits of `n`, from the highest down. -/
def powBits (a : Felt) (n : Nat) : Nat → Felt
  | 0 => 1
  | bits + 1 =>
    let root := powBits a (n / 2) bits
    if n % 2 = 1 then root * root * a else root * root

def pow (a : Felt) (n : Nat) : Felt := powBits a n (if n = 0 then 0 else n.log2 + 1)

instance : Pow Felt Nat := ⟨pow⟩

def sum (as : List Felt) : Felt := as.foldl (· + ·) 0

def product (as : List Felt) : Felt := as.foldl (· * ·) 1

/-- The power by two less than the modulus. -/
def inverse (a : Felt) : Except FieldError Felt :=
  if a = 0 then .error .divisionByZero else .ok (a ^ (modulus - 2))

/-! ## Encodings -/

/-- Refuses numbers from the modulus on, so that each element has one spelling. -/
def ofCanonical (x : UInt256) : Except FieldError Felt :=
  if x.lt Montgomery.modulusWords then .ok (ofUInt256 x) else .error (.notCanonical x)

def toBytes (a : Felt) : Bytes := a.toUInt256.toBytes

/-- Exactly 32 bytes, the highest first. -/
def ofBytes (bytes : Bytes) : Except FieldError Felt :=
  if bytes.length = 32 then ofCanonical (.ofBytes bytes)
  else .error (.invalidLength 32 bytes.length)

def toHex (a : Felt) : String := a.toUInt256.toHex

def ofHex (text : String) : Except FieldError Felt :=
  match UInt256.ofHex? text with
  | some x => ofCanonical x
  | none => .error (.invalidHex text)

theorem length_toBytes (a : Felt) : a.toBytes.length = 32 := rfl

/-! ## Polynomials -/

/-- Horner's rule. -/
def evalPoly (coefficients : List Felt) (x : Felt) : Felt :=
  coefficients.foldr (fun c value => value * x + c) 0

end Felt

/-! ## Domains -/

structure EvalDomain where
  generator : Felt
  logSize : Nat
deriving DecidableEq

namespace EvalDomain

def size (d : EvalDomain) : Nat := 2 ^ d.logSize

/-- The domain of size `2 ^ logSize`, for 1 up to 63. -/
def ofLogSize (logSize : Nat) : Except FieldError EvalDomain :=
  if logSize = 0 ∨ 63 < logSize then .error (.unsupportedDomain logSize)
  else .ok ⟨Felt.generator ^ ((modulus - 1) >>> logSize), logSize⟩

def ofSize (size : Nat) : Except FieldError EvalDomain :=
  if isTwoPower size then ofLogSize size.log2 else .error (.notPowerOfTwo size)

def element (d : EvalDomain) (i : Nat) : Felt := d.generator ^ (i % d.size)

def inverseElement (d : EvalDomain) (i : Nat) : Felt := d.element (d.size - i % d.size)

def bitReversedElement (d : EvalDomain) (i : Nat) : Felt := d.element (bitReverse d.logSize i)

end EvalDomain
end StarkVerifier
