import StarkVerifier.Json.Basic
import StarkVerifier.Text
/-! Tokens of JSON, found by a machine that takes one byte at a time. -/

namespace StarkVerifier.Json

inductive Token where
  | beginArray
  | endArray
  | beginObject
  | endObject
  | colon
  | comma
  | scalar (value : Json)

/-- Part of a string: a byte that stands for itself, or a UTF-16 unit that was escaped. -/
inductive Piece where
  | byte (b : UInt8)
  | unit (n : Nat)
deriving DecidableEq

namespace Piece

def isHigh (n : Nat) : Bool := 0xd800 ≤ n && n < 0xdc00

def isLow (n : Nat) : Bool := 0xdc00 ≤ n && n < 0xe000

def utf8 (n : Nat) : Bytes := Utf8.encode [Char.ofNat n]

/-- The bytes of a string, if every surrogate has its partner. -/
def bytes? : List Piece → Option Bytes
  | [] => some []
  | byte b :: rest => (bytes? rest).map (b :: ·)
  | [unit n] => if isHigh n || isLow n then none else some (utf8 n)
  | unit n :: byte b :: rest =>
    if isHigh n || isLow n then none else (bytes? (byte b :: rest)).map (utf8 n ++ ·)
  | unit n :: unit m :: rest =>
    if isHigh n then
      if isLow m then
        (bytes? rest).map (utf8 (0x10000 + 0x400 * (n - 0xd800) + (m - 0xdc00)) ++ ·)
      else none
    else if isLow n then none
    else (bytes? (unit m :: rest)).map (utf8 n ++ ·)

def text? (pieces : List Piece) : Option String := do
  return String.ofList (← Utf8.decode? (← bytes? pieces))

/-- What a letter after a backslash stands for. -/
def escaped? (b : UInt8) : Option UInt8 :=
  match Char.ofNat b.toNat with
  | '\x22' => some 0x22
  | '\\' => some 0x5c
  | '/' => some 0x2f
  | 'b' => some 0x08
  | 'f' => some 0x0c
  | 'n' => some 0x0a
  | 'r' => some 0x0d
  | 't' => some 0x09
  | _ => none

end Piece

/-- How far a number has been read. -/
inductive NumberPhase where
  | minus
  | zero
  | whole
  | point
  | fraction
  | exponent
  | sign
  | power
deriving DecidableEq

namespace NumberPhase

def isDigit (b : UInt8) : Bool := 0x30 ≤ b && b ≤ 0x39

def isExponent (b : UInt8) : Bool := b = 0x65 || b = 0x45

def next? (phase : NumberPhase) (b : UInt8) : Option NumberPhase :=
  match phase with
  | minus => if b = 0x30 then some zero else if isDigit b then some whole else none
  | zero => if b = 0x2e then some point else if isExponent b then some exponent else none
  | whole =>
    if isDigit b then some whole
    else if b = 0x2e then some point
    else if isExponent b then some exponent
    else none
  | point => if isDigit b then some fraction else none
  | fraction =>
    if isDigit b then some fraction else if isExponent b then some exponent else none
  | exponent =>
    if b = 0x2b || b = 0x2d then some sign else if isDigit b then some power else none
  | sign => if isDigit b then some power else none
  | power => if isDigit b then some power else none

/-- A number may end here. -/
def isComplete : NumberPhase → Bool
  | zero | whole | fraction | power => true
  | minus | point | exponent | sign => false

end NumberPhase

/-- Where the machine stands between two bytes. Pieces of a string are kept last first. -/
inductive LexerState where
  | blank
  | word (rest : Bytes) (value : Json)
  | string (pieces : List Piece)
  | escape (pieces : List Piece)
  | unicode (pieces : List Piece) (missing value : Nat)
  | number (phase : NumberPhase) (isNatural : Bool) (value : Nat)

/-- The machine with the tokens it has found, last first. -/
structure Lexer where
  state : LexerState
  tokens : List Token

namespace Lexer

def emit (l : Lexer) (t : Token) : Lexer := ⟨.blank, t :: l.tokens⟩

def enter (l : Lexer) (s : LexerState) : Lexer := { l with state := s }

/-- A byte between tokens. -/
def feedBlank (l : Lexer) (b : UInt8) : Option Lexer :=
  match Char.ofNat b.toNat with
  | ' ' | '\t' | '\n' | '\r' => some (l.enter .blank)
  | '[' => some (l.emit .beginArray)
  | ']' => some (l.emit .endArray)
  | '\x7b' => some (l.emit .beginObject)
  | '\x7d' => some (l.emit .endObject)
  | ':' => some (l.emit .colon)
  | ',' => some (l.emit .comma)
  | '\x22' => some (l.enter (.string []))
  | 'n' => some (l.enter (.word [0x75, 0x6c, 0x6c] .null))
  | 't' => some (l.enter (.word [0x72, 0x75, 0x65] (.bool true)))
  | 'f' => some (l.enter (.word [0x61, 0x6c, 0x73, 0x65] (.bool false)))
  | '-' => some (l.enter (.number .minus false 0))
  | '0' => some (l.enter (.number .zero true 0))
  | _ =>
    if NumberPhase.isDigit b then some (l.enter (.number .whole true (b.toNat - 0x30))) else none

def numberToken (isNatural : Bool) (value : Nat) : Token :=
  .scalar (if isNatural then .natural value else .otherNumber)

def feed (l : Lexer) (b : UInt8) : Option Lexer :=
  match l.state with
  | .blank => l.feedBlank b
  | .word [] _ => none
  | .word [last] value => if b = last then some (l.emit (.scalar value)) else none
  | .word (first :: rest) value => if b = first then some (l.enter (.word rest value)) else none
  | .string pieces =>
    if b = 0x22 then some (l.emit (.scalar (.text (Piece.text? pieces.reverse))))
    else if b = 0x5c then some (l.enter (.escape pieces))
    else if b < 0x20 then none
    else some (l.enter (.string (.byte b :: pieces)))
  | .escape pieces =>
    if b = 0x75 then some (l.enter (.unicode pieces 4 0))
    else (Piece.escaped? b).map fun c => l.enter (.string (.byte c :: pieces))
  | .unicode pieces missing value =>
    (Hex.value? (Char.ofNat b.toNat)).map fun digit =>
      let value := 16 * value + digit
      if missing ≤ 1 then l.enter (.string (.unit value :: pieces))
      else l.enter (.unicode pieces (missing - 1) value)
  | .number phase isNatural value =>
    match phase.next? b with
    | some .whole => some (l.enter (.number .whole isNatural (10 * value + (b.toNat - 0x30))))
    | some .zero => some (l.enter (.number .zero isNatural 0))
    | some phase => some (l.enter (.number phase false 0))
    | none =>
      if phase.isComplete then (l.emit (numberToken isNatural value)).feedBlank b else none

/-- All tokens, if the text ends between two of them. -/
def finish? (l : Lexer) : Option (List Token) :=
  match l.state with
  | .blank => some l.tokens.reverse
  | .number phase isNatural value =>
    if phase.isComplete then some (numberToken isNatural value :: l.tokens).reverse else none
  | _ => none

end Lexer

def tokens? (bytes : Bytes) : Option (List Token) :=
  (bytes.foldlM Lexer.feed ⟨.blank, []⟩).bind Lexer.finish?

end StarkVerifier.Json
