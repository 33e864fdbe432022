import StarkVerifier.UInt256
/-! Byte strings, the big-endian numbers they spell, and readers that take values off their front. -/

namespace StarkVerifier

abbrev Bytes := List UInt8

namespace Bytes

/-- The number a byte string spells, its first byte the highest. -/
def toNat (bytes : Bytes) : Nat := bytes.foldl (fun n b => 256 * n + b.toNat) 0

/-- The last `width` bytes of a number, the highest first. -/
def ofNat (width n : Nat) : Bytes :=
  match width with
  | 0 => []
  | width + 1 => ofNat width (n / 256) ++ [UInt8.ofNat n]

/-- The word its last eight bytes spell. -/
def toWord (bytes : Bytes) : UInt64 := bytes.foldl (fun w b => (w <<< 8) ||| b.toUInt64) 0

/-- Eight bytes, the highest first. -/
def ofWord (w : UInt64) : Bytes :=
  [(w >>> 56).toUInt8, (w >>> 48).toUInt8, (w >>> 40).toUInt8, (w >>> 32).toUInt8,
    (w >>> 24).toUInt8, (w >>> 16).toUInt8, (w >>> 8).toUInt8, w.toUInt8]

theorem length_ofNat (width n : Nat) : (ofNat width n).length = width := by
  induction width generalizing n with
  | zero => rfl
  | succ width ih => simp [ofNat, ih]

theorem length_ofWord (w : UInt64) : (ofWord w).length = 8 := rfl

/-- The first `n` bytes and the rest, if there are so many. -/
def splitAt? (n : Nat) (bytes : Bytes) : Option (Bytes × Bytes) :=
  let front := bytes.take n
  if front.length = n then some (front, bytes.drop n) else none

theorem splitAt?_eq_some_iff {n : Nat} {bytes front rest : Bytes} :
    splitAt? n bytes = some (front, rest) ↔ bytes = front ++ rest ∧ front.length = n := by
  simp only [splitAt?]
  constructor
  · intro h
    split at h
    · simp only [Option.some.injEq, Prod.mk.injEq] at h
      obtain ⟨rfl, rfl⟩ := h
      exact ⟨(List.take_append_drop n bytes).symm, by assumption⟩
    · simp at h
  · rintro ⟨rfl, rfl⟩
    simp

end Bytes

namespace UInt256

/-- Thirty-two bytes, the highest first. -/
def toBytes (a : UInt256) : Bytes :=
  Bytes.ofWord a.w3 ++ Bytes.ofWord a.w2 ++ Bytes.ofWord a.w1 ++ Bytes.ofWord a.w0

/-- The number thirty-two bytes spell. -/
def ofBytes (bytes : Bytes) : UInt256 where
  w3 := Bytes.toWord (bytes.take 8)
  w2 := Bytes.toWord ((bytes.drop 8).take 8)
  w1 := Bytes.toWord ((bytes.drop 16).take 8)
  w0 := Bytes.toWord ((bytes.drop 24).take 8)

theorem length_toBytes (a : UInt256) : a.toBytes.length = 32 := rfl

end UInt256

/-! ## Readers -/

abbrev Reader := StateT Bytes Option

namespace Reader

def take (n : Nat) : Reader Bytes := fun bytes => Bytes.splitAt? n bytes

def byte : Reader UInt8
  | [] => none
  | b :: rest => some (b, rest)

/-- A value that may be refused, such as one out of range. -/
def lift (value : Option α) : Reader α := fun bytes => value.map (·, bytes)

/-- `n` values in a row. -/
def times (item : Reader α) : Nat → Bytes → Option (List α × Bytes)
  | 0, bytes => some ([], bytes)
  | n + 1, bytes => do
    let (first, bytes) ← item bytes
    let (others, bytes) ← times item n bytes
    return (first :: others, bytes)

end Reader
end StarkVerifier
