import StarkVerifier.Bytes
/-!
JSON values, as far as a reader of records can tell them apart: natural numbers are kept, other numbers
are only known to be there, and text that is no text is kept as `none`. Such parts may be skipped but
not read.
-/

namespace StarkVerifier

inductive Json where
  | null
  | bool (value : Bool)
  | natural (value : Nat)
  | otherNumber
  | text (value : Option String)
  | array (items : List Json)
  | object (fields : List (Option String × Json))

namespace Json

def ofString (s : String) : Json := text (some s)

def ofFields (fields : List (String × Json)) : Json :=
  object (fields.map fun f => (some f.1, f.2))

def ofList (f : α → Json) (items : List α) : Json := array (items.map f)

/-! ## Reading -/

/-- A natural number below `bound`. -/
def natural? (bound : Nat) : Json → Option Nat
  | natural n => if n < bound then some n else none
  | _ => none

def string? : Json → Option String
  | text s => s
  | _ => none

def list? (f : Json → Option α) : Json → Option (List α)
  | array items => items.mapM f
  | _ => none

/-- The only field of that name, or nothing if there is none; two are refused. -/
def field? (fields : List (Option String × Json)) (name : String) : Option (Option Json) :=
  match fields.filter (·.1 = some name) with
  | [] => some none
  | [f] => some (some f.2)
  | _ => none

/-- The fields of a record that needs them all. It is an object, in which other fields are skipped, or
an array of its fields in order. -/
def record? (names : List String) : Json → Option (List Json)
  | array items => if items.length = names.length then some items else none
  | object fields =>
    if fields.all (·.1.isSome) then do
      let found ← names.mapM (field? fields)
      found.mapM id
    else none
  | _ => none

/-- The fields of a record that needs none of them. No other field may stand beside them, and an array
may leave out the last. -/
def partialRecord? (names : List String) : Json → Option (List (Option Json))
  | array items =>
    if items.length ≤ names.length then
      some (items.map some ++ List.replicate (names.length - items.length) none)
    else none
  | object fields =>
    if fields.all (names.map some |>.contains ·.1) then names.mapM (field? fields) else none
  | _ => none

end Json
end StarkVerifier
