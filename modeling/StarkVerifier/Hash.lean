import StarkVerifier.Bytes
import StarkVerifier.Field.Basic
/-! The Keccak sponge with a rate of 136 bytes, its digests of 32, and the two hashes of the protocol. -/

namespace StarkVerifier

/-! ## Sponge -/

namespace Keccak

/-- Five lanes with the same `y`. -/
structure Plane where
  x0 : UInt64
  x1 : UInt64
  x2 : UInt64
  x3 : UInt64
  x4 : UInt64

/-- Twenty-five lanes, by their `y`. -/
structure State where
  y0 : Plane
  y1 : Plane
  y2 : Plane
  y3 : Plane
  y4 : Plane

@[inline] def rotate (w : UInt64) (n : UInt64) : UInt64 := (w <<< n) ||| (w >>> (64 - n))

@[inline] def Plane.xor (a b : Plane) : Plane :=
  ⟨a.x0 ^^^ b.x0, a.x1 ^^^ b.x1, a.x2 ^^^ b.x2, a.x3 ^^^ b.x3, a.x4 ^^^ b.x4⟩

/-- What each column adds to its lanes: the parities of its two neighbours, one of them rotated. -/
@[inline] def Plane.spread (c : Plane) : Plane :=
  ⟨c.x4 ^^^ rotate c.x1 1, c.x0 ^^^ rotate c.x2 1, c.x1 ^^^ rotate c.x3 1,
    c.x2 ^^^ rotate c.x4 1, c.x3 ^^^ rotate c.x0 1⟩

/-- The step within a plane, the only one that is not linear. -/
@[inline] def Plane.chi (b : Plane) : Plane :=
  ⟨b.x0 ^^^ (~~~b.x1 &&& b.x2), b.x1 ^^^ (~~~b.x2 &&& b.x3), b.x2 ^^^ (~~~b.x3 &&& b.x4),
    b.x3 ^^^ (~~~b.x4 &&& b.x0), b.x4 ^^^ (~~~b.x0 &&& b.x1)⟩

def State.zero : State :=
  let z : Plane := ⟨0, 0, 0, 0, 0⟩
  ⟨z, z, z, z, z⟩

@[inline] def State.theta (s : State) : State :=
  let d := ((((s.y0.xor s.y1).xor s.y2).xor s.y3).xor s.y4).spread
  ⟨s.y0.xor d, s.y1.xor d, s.y2.xor d, s.y3.xor d, s.y4.xor d⟩

/-- Rotates each lane and moves it to its new place. -/
@[inline] def State.rhoPi (s : State) : State where
  y0 := ⟨s.y0.x0, rotate s.y1.x1 44, rotate s.y2.x2 43, rotate s.y3.x3 21, rotate s.y4.x4 14⟩
  y1 := ⟨rotate s.y0.x3 28, rotate s.y1.x4 20, rotate s.y2.x0 3, rotate s.y3.x1 45,
    rotate s.y4.x2 61⟩
  y2 := ⟨rotate s.y0.x1 1, rotate s.y1.x2 6, rotate s.y2.x3 25, rotate s.y3.x4 8,
    rotate s.y4.x0 18⟩
  y3 := ⟨rotate s.y0.x4 27, rotate s.y1.x0 36, rotate s.y2.x1 10, rotate s.y3.x2 15,
    rotate s.y4.x3 56⟩
  y4 := ⟨rotate s.y0.x2 62, rotate s.y1.x3 55, rotate s.y2.x4 39, rotate s.y3.x0 41,
    rotate s.y4.x1 2⟩

/-- Breaks the symmetry between rounds. -/
@[inline] def State.iota (s : State) (constant : UInt64) : State :=
  { s with y0 := { s.y0 with x0 := s.y0.x0 ^^^ constant } }

def State.round (s : State) (constant : UInt64) : State :=
  let b := s.theta.rhoPi
  State.iota ⟨b.y0.chi, b.y1.chi, b.y2.chi, b.y3.chi, b.y4.chi⟩ constant

def roundConstants : List UInt64 := [
  0x0000000000000001, 0x0000000000008082, 0x800000000000808a, 0x8000000080008000,
  0x000000000000808b, 0x0000000080000001, 0x8000000080008081, 0x8000000000008009,
  0x000000000000008a, 0x0000000000000088, 0x0000000080008009, 0x000000008000000a,
  0x000000008000808b, 0x800000000000008b, 0x8000000000008089, 0x8000000000008003,
  0x8000000000008002, 0x8000000000000080, 0x000000000000800a, 0x800000008000000a,
  0x8000000080008081, 0x8000000000008080, 0x0000000080000001, 0x8000000080008008]

def permute (s : State) : State := roundConstants.foldl State.round s

/-- Bytes taken in between two permutations. -/
def rate : Nat := 136

/-- Fills up to a whole number of blocks: a one bit first, a one bit last. -/
def padding (length : Nat) : Bytes :=
  let free := rate - length % rate
  if free = 1 then [0x81] else 0x01 :: List.replicate (free - 2) 0 ++ [0x80]

/-- The lane eight bytes spell, the first byte the lowest. -/
def lane (b0 b1 b2 b3 b4 b5 b6 b7 : UInt8) : UInt64 :=
  b0.toUInt64 ||| (b1.toUInt64 <<< 8) ||| (b2.toUInt64 <<< 16) ||| (b3.toUInt64 <<< 24) |||
    (b4.toUInt64 <<< 32) ||| (b5.toUInt64 <<< 40) ||| (b6.toUInt64 <<< 48) ||| (b7.toUInt64 <<< 56)

def lanes : Bytes → List UInt64
  | b0 :: b1 :: b2 :: b3 :: b4 :: b5 :: b6 :: b7 :: rest => lane b0 b1 b2 b3 b4 b5 b6 b7 :: lanes rest
  | _ => []

/-- Seventeen lanes to a block. -/
def absorb (s : State) : List UInt64 → State
  | w0 :: w1 :: w2 :: w3 :: w4 :: w5 :: w6 :: w7 :: w8 :: w9 :: w10 :: w11 :: w12 :: w13 :: w14 ::
      w15 :: w16 :: rest =>
    absorb (permute ⟨s.y0.xor ⟨w0, w1, w2, w3, w4⟩, s.y1.xor ⟨w5, w6, w7, w8, w9⟩,
      s.y2.xor ⟨w10, w11, w12, w13, w14⟩, s.y3.xor ⟨w15, w16, 0, 0, 0⟩, s.y4⟩) rest
  | _ => s

/-- Eight bytes, the lowest first. -/
def laneBytes (w : UInt64) : Bytes :=
  [w.toUInt8, (w >>> 8).toUInt8, (w >>> 16).toUInt8, (w >>> 24).toUInt8, (w >>> 32).toUInt8,
    (w >>> 40).toUInt8, (w >>> 48).toUInt8, (w >>> 56).toUInt8]

def hash (message : Bytes) : Bytes :=
  let s := absorb .zero (lanes (message ++ padding message.length))
  laneBytes s.y0.x0 ++ laneBytes s.y0.x1 ++ laneBytes s.y0.x2 ++ laneBytes s.y0.x3

theorem length_hash (message : Bytes) : (hash message).length = 32 := rfl

end Keccak

/-! ## Digests -/

structure Digest where
  bytes : Bytes
  length_bytes : bytes.length = 32
deriving DecidableEq

namespace HexError

def message : HexError → String
  | oddLength => "Odd number of digits"
  | wrongLength => "Invalid string length"
  | badDigit byte position =>
    s!"Invalid character {Text.quotedChar (Char.ofNat byte.toNat)} at position {position}"

end HexError

namespace Digest

def zero : Digest := ⟨List.replicate 32 0, rfl⟩

instance : Inhabited Digest := ⟨zero⟩

def ofBytes? (bytes : Bytes) : Option Digest :=
  if h : bytes.length = 32 then some ⟨bytes, h⟩ else none

/-- By the big-endian numbers. -/
def compare (a b : Digest) : Ordering := Ord.compare a.bytes b.bytes

/-- All 64 digits and no mark. -/
def toHex (d : Digest) : String := String.ofList (Hex.encode d.bytes)

def ofHex? (text : String) : Option Digest := Hex.decode? text.toList >>= ofBytes?

/-- With or without `0x`. The length is judged before the digits, an odd one first. -/
def ofMarkedHex (text : String) : Except HexError Digest :=
  let digits := String.ofList (Hex.stripMark text.toList)
  let size := digits.utf8ByteSize
  if size % 2 = 1 then .error .oddLength
  else if size ≠ 64 then .error .wrongLength
  else match ofHex? digits with
    | some d => .ok d
    | none => .error (Hex.fault 0 digits.toUTF8.toList)

end Digest

def keccak (message : Bytes) : Digest := ⟨Keccak.hash message, Keccak.length_hash message⟩

/-- The digest with its last twelve bytes cleared. -/
def maskedKeccak (message : Bytes) : Digest :=
  ⟨(keccak message).bytes.take 20 ++ List.replicate 12 0, by simp [(keccak message).length_bytes]⟩

end StarkVerifier
