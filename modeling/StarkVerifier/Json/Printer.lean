import StarkVerifier.Json.Basic
import StarkVerifier.Text
/-!
JSON text with one item or field to a line, indented by two spaces a level. What cannot be read is
written as null.
-/

namespace StarkVerifier.Json

/-- A character within a string. -/
def escape (c : Char) : List Char :=
  match c with
  | '\x22' => ['\\', '\x22']
  | '\\' => ['\\', '\\']
  | '\x08' => ['\\', 'b']
  | '\x0c' => ['\\', 'f']
  | '\n' => ['\\', 'n']
  | '\r' => ['\\', 'r']
  | '\t' => ['\\', 't']
  | _ =>
    if c.toNat < 0x20 then
      ['\\', 'u', '0', '0', Hex.digit (c.toNat / 16), Hex.digit (c.toNat % 16)]
    else [c]

def printText (s : String) : List Char := '\x22' :: s.toList.flatMap escape ++ ['\x22']

def newline (level : Nat) : List Char := '\n' :: List.replicate (2 * level) ' '

def printScalar : Json → List Char
  | bool true => "true".toList
  | bool false => "false".toList
  | natural n => Nat.toDigits 10 n
  | text (some s) => printText s
  | _ => "null".toList

mutual

/-- A value that stands at the given level. -/
def print (level : Nat) : Json → List Char
  | array [] => ['[', ']']
  | array (item :: items) =>
    '[' :: newline (level + 1) ++ print (level + 1) item ++ printItems (level + 1) items ++
      newline level ++ [']']
  | object [] => ['\x7b', '\x7d']
  | object ((key, value) :: fields) =>
    '\x7b' :: newline (level + 1) ++ printText (key.getD "") ++ [':', ' '] ++
      print (level + 1) value ++ printFields (level + 1) fields ++ newline level ++ ['\x7d']
  | scalar => printScalar scalar

/-- Items after the first. -/
def printItems (level : Nat) : List Json → List Char
  | [] => []
  | item :: items => ',' :: newline level ++ print level item ++ printItems level items

/-- Fields after the first. -/
def printFields (level : Nat) : List (Option String × Json) → List Char
  | [] => []
  | (key, value) :: fields =>
    ',' :: newline level ++ printText (key.getD "") ++ [':', ' '] ++ print level value ++
      printFields level fields

end

end StarkVerifier.Json
