import StarkVerifier.Json.Lexer
/-! JSON values from tokens, by a machine with a stack of the arrays and objects still open. -/

namespace StarkVerifier.Json

/-- An open array or object. Items and fields are kept last first. -/
inductive Frame where
  | array (items : List Json)
  | object (fields : List (Option String × Json)) (key : Option String)

/-- What the machine waits for. -/
inductive ParserState where
  | value (stack : List Frame)
  | firstItem (stack : List Frame)
  | firstField (stack : List Frame)
  | field (stack : List Frame) (fields : List (Option String × Json))
  | colon (stack : List Frame) (fields : List (Option String × Json)) (key : Option String)
  | after (stack : List Frame) (value : Json)

namespace ParserState

def feedValue (stack : List Frame) : Token → Option ParserState
  | .scalar v => some (after stack v)
  | .beginArray => some (firstItem stack)
  | .beginObject => some (firstField stack)
  | _ => none

def feedKey (stack : List Frame) (fields : List (Option String × Json)) :
    Token → Option ParserState
  | .scalar (.text key) => some (colon stack fields key)
  | _ => none

def feed : ParserState → Token → Option ParserState
  | value stack, t => feedValue stack t
  | firstItem stack, .endArray => some (after stack (.array []))
  | firstItem stack, t => feedValue (.array [] :: stack) t
  | firstField stack, .endObject => some (after stack (.object []))
  | firstField stack, t => feedKey stack [] t
  | field stack fields, t => feedKey stack fields t
  | colon stack fields key, .colon => some (value (.object fields key :: stack))
  | after (.array items :: stack) v, .comma => some (value (.array (v :: items) :: stack))
  | after (.array items :: stack) v, .endArray =>
    some (after stack (.array (v :: items).reverse))
  | after (.object fields key :: stack) v, .comma => some (field stack ((key, v) :: fields))
  | after (.object fields key :: stack) v, .endObject =>
    some (after stack (.object ((key, v) :: fields).reverse))
  | _, _ => none

def finish? : ParserState → Option Json
  | after [] v => some v
  | _ => none

end ParserState

def ofTokens? (tokens : List Token) : Option Json :=
  (tokens.foldlM ParserState.feed (.value [])).bind ParserState.finish?

/-- One value with nothing but blanks around it. -/
def parse? (bytes : Bytes) : Option Json := tokens? bytes >>= ofTokens?

end StarkVerifier.Json
