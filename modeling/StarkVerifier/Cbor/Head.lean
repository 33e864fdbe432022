import StarkVerifier.Bytes
import StarkVerifier.Text
/-!
Heads of CBOR items, written in the shortest form and read in any. A reader sees an item's tags only if
it asks for them.
-/

namespace StarkVerifier.Cbor

/-- Kinds of items whose head carries a number. -/
inductive Major where
  | unsigned
  | bytes
  | text
  | array
  | map

namespace Major

def code : Major → Nat
  | unsigned => 0
  | bytes => 2
  | text => 3
  | array => 4
  | map => 5

end Major

/-- The shortest head. -/
def head (major : Major) (n : Nat) : Bytes :=
  let first (low : Nat) : UInt8 := UInt8.ofNat (32 * major.code + low)
  if n < 24 then [first n]
  else if n < 2 ^ 8 then first 24 :: Bytes.ofNat 1 n
  else if n < 2 ^ 16 then first 25 :: Bytes.ofNat 2 n
  else if n < 2 ^ 32 then first 26 :: Bytes.ofNat 4 n
  else first 27 :: Bytes.ofNat 8 n

/-- What a head says. A length of `none` means that the item goes on until a break. -/
inductive Head where
  | unsigned (n : Nat)
  | negative (n : Nat)
  | bytes (length : Option Nat)
  | text (length : Option Nat)
  | array (length : Option Nat)
  | map (length : Option Nat)
  | tag (n : Nat)
  | simple (n : Nat)
  | float
  | break
deriving DecidableEq

/-- The number of a head, from its low five bits and what follows; `none` if it is left open. -/
def argument (low : Nat) : Reader (Option Nat) := do
  if low < 24 then return some low
  match low with
  | 24 => return some (Bytes.toNat (← Reader.take 1))
  | 25 => return some (Bytes.toNat (← Reader.take 2))
  | 26 => return some (Bytes.toNat (← Reader.take 4))
  | 27 => return some (Bytes.toNat (← Reader.take 8))
  | 31 => return none
  | _ => failure

def readHead : Reader Head := do
  let b ← Reader.byte
  let low := b.toNat % 32
  let n ← argument low
  match b.toNat / 32, n with
  | 0, some n => return .unsigned n
  | 1, some n => return .negative n
  | 2, n => return .bytes n
  | 3, n => return .text n
  | 4, n => return .array n
  | 5, n => return .map n
  | 6, some n => return .tag n
  | 7, some n => return if low ≤ 24 then .simple n else .float
  | 7, none => return .break
  | _, _ => failure

/-- The first of at most `fuel` heads that `stop` does not pass over. -/
def readHeadWithin (pass : Head → Bool) : Nat → Bytes → Option (Head × Bytes)
  | 0, _ => none
  | fuel + 1, bytes => do
    let (h, rest) ← readHead bytes
    if pass h then readHeadWithin pass fuel rest else return (h, rest)

/-- The first head that is not passed over. The bytes are counted only if the next one is. -/
def readHeadPast (pass : Head → Bool) : Reader Head := fun bytes => do
  let (h, rest) ← readHead bytes
  if pass h then readHeadWithin pass rest.length rest else return (h, rest)

namespace Head

def isTag : Head → Bool
  | tag _ => true
  | _ => false

/-- A tag of a number that is spelled by a byte string. -/
def isBig : Head → Bool
  | tag 2 | tag 3 => true
  | _ => false

end Head

/-- The head of an item behind its tags. -/
def readUntagged : Reader Head := readHeadPast Head.isTag

/-- Segments of an item of open length, up to its break. `part` recognises the head of a segment;
segments may be of open length themselves, `nested` of which are open. -/
def readSegments (part : Head → Option (Option Nat)) :
    Nat → Nat → Bytes → Option (List Bytes × Bytes)
  | 0, _, _ => none
  | fuel + 1, nested, bytes => do
    let (h, rest) ← readHead bytes
    if h = .break then
      if nested ≤ 1 then return ([], rest) else readSegments part fuel (nested - 1) rest
    else
      match ← part h with
      | none => readSegments part fuel (nested + 1) rest
      | some n =>
        let (first, rest) ← Bytes.splitAt? n rest
        let (others, rest) ← readSegments part fuel nested rest
        return (first :: others, rest)

def bytesPart : Head → Option (Option Nat)
  | .bytes n => some n
  | _ => none

def textPart : Head → Option (Option Nat)
  | .text n => some n
  | _ => none

/-- The segments of an item whose head said this about its length. -/
def readBody (part : Head → Option (Option Nat)) (length : Option Nat) : Reader (List Bytes) :=
  fun bytes =>
    match length with
    | some n => (Bytes.splitAt? n bytes).map fun r => ([r.1], r.2)
    | none => readSegments part bytes.length 1 bytes

/-- The bytes of a byte string whose head has been read. -/
def readBytesBody (length : Option Nat) : Reader Bytes := do
  return (← readBody bytesPart length).flatten

/-- The number that a byte string spells, of at most sixteen bytes after its leading zeros. -/
def readBig : Reader Nat := do
  match ← readHead with
  | .bytes length =>
    let n := Bytes.toNat (← readBytesBody length)
    if n < 2 ^ 128 then return n else failure
  | _ => failure

/-- An integer that is not negative. -/
def readUnsigned : Reader Nat := do
  match ← readHeadPast fun h => h.isTag && !h.isBig with
  | .unsigned n => return n
  | .tag 2 => readBig
  | _ => failure

/-! ## Items that are skipped -/

/-- What is still to come of an open array or map. -/
inductive Rest where
  | items (n : Nat)
  | untilBreak
  | keyOrBreak
  | value

/-- Nesting of arrays, maps and skipped tags that a reader follows. -/
def maxNesting : Nat := 256

/-- Whether a byte string behind a tag is the spelling of a number, which is no nesting. -/
def isSpelling (tag length : Nat) : Bool := (tag == 2 || tag == 3) && length ≤ 16

/-- A negative number has to fit 128 bits with its sign. -/
def fits (tag n : Nat) : Bool := tag == 2 || n < 2 ^ 127

namespace Rest

/-- After one more item, unless there is none to come. -/
def next? : Rest → Option Rest
  | items 0 => none
  | items (n + 1) => some (items n)
  | untilBreak => some untilBreak
  | keyOrBreak => some value
  | value => some keyOrBreak

def mayBreak : Rest → Bool
  | untilBreak | keyOrBreak => true
  | items _ | value => false

end Rest

/-- Skips the items of all open arrays and maps, the innermost first, inside `level` others. -/
def skipWithin (level : Nat) : Nat → List Rest → Bytes → Option Bytes
  | _, [], bytes => some bytes
  | 0, _, _ => none
  | fuel + 1, rest :: stack, bytes =>
    match rest.next? with
    | none => skipWithin level fuel stack bytes
    | some rest' => do
      let (h, bytes) ← readHead bytes
      let enter (inner : Rest) : Option Bytes :=
        if level + stack.length < maxNesting then
          skipWithin level fuel (inner :: rest' :: stack) bytes
        else none
      match h with
      | .break => if rest.mayBreak then skipWithin level fuel stack bytes else none
      | .unsigned _ | .negative _ | .float => skipWithin level fuel (rest' :: stack) bytes
      | .simple n =>
        if 20 ≤ n ∧ n ≤ 23 then skipWithin level fuel (rest' :: stack) bytes else none
      | .bytes length =>
        let (_, bytes) ← readBody bytesPart length bytes
        skipWithin level fuel (rest' :: stack) bytes
      | .text length =>
        let (segments, bytes) ← readBody textPart length bytes
        if segments.all fun s => (Utf8.decode? s).isSome then
          skipWithin level fuel (rest' :: stack) bytes
        else none
      | .array (some n) => enter (.items n)
      | .array none => enter .untilBreak
      | .map (some n) => enter (.items (2 * n))
      | .map none => enter .keyOrBreak
      | .tag n =>
        match readHead bytes with
        | some (.bytes (some length), content) =>
          if isSpelling n length then
            let (digits, bytes) ← Bytes.splitAt? length content
            if fits n (Bytes.toNat digits) then skipWithin level fuel (rest' :: stack) bytes
            else none
          else enter (.items 1)
        | _ => enter (.items 1)

/-- Skips one item inside `level` arrays and maps. -/
def skip (level : Nat) : Reader Unit := fun bytes =>
  (skipWithin level (2 * bytes.length + 2) [.items 1] bytes).map ((), ·)

end StarkVerifier.Cbor
