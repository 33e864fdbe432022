import StarkVerifier.Json.Parser
import StarkVerifier.Proofs.Json.Lexer

/-!
# Values read back from printed text

The text of a value has the tokens of the value, and from these the parser builds the value again, on top
of whatever arrays and objects are open. Main statement: `parse?_print`.
-/

namespace StarkVerifier.Json

open Lexer (Between Rests)

/-- Nothing in the value is only known to be there. -/
inductive IsKnown : Json → Prop
  | null : IsKnown .null
  | bool (b : Bool) : IsKnown (.bool b)
  | natural (n : Nat) : IsKnown (.natural n)
  | text (s : String) : IsKnown (.text (some s))
  | array {items : List Json} (hitems : ∀ item ∈ items, IsKnown item) : IsKnown (.array items)
  | object {fields : List (Option String × Json)} (hkeys : ∀ f ∈ fields, f.1.isSome = true)
      (hvalues : ∀ f ∈ fields, IsKnown f.2) : IsKnown (.object fields)

mutual

/-- The tokens of a value. -/
def tokens : Json → List Token
  | array [] => [.beginArray, .endArray]
  | array (item :: items) => .beginArray :: (tokens item ++ (itemTokens items ++ [.endArray]))
  | object [] => [.beginObject, .endObject]
  | object ((key, value) :: fields) =>
    .beginObject :: .scalar (.text key) :: .colon ::
      (tokens value ++ (fieldTokens fields ++ [.endObject]))
  | scalar => [.scalar scalar]

/-- Items after the first. -/
def itemTokens : List Json → List Token
  | [] => []
  | item :: items => .comma :: (tokens item ++ itemTokens items)

/-- Fields after the first. -/
def fieldTokens : List (Option String × Json) → List Token
  | [] => []
  | (key, value) :: fields =>
    .comma :: .scalar (.text key) :: .colon :: (tokens value ++ fieldTokens fields)

end

/-! ## Tokens of the text -/

theorem lexes_key {key : Option String} (h : key.isSome = true) :
    Lexes Between Between (printText (key.getD "") ++ [':', ' ']) [.scalar (.text key), .colon] := by
  obtain ⟨name, rfl⟩ := Option.isSome_iff_exists.mp h
  have hcolon : Lexes Between Between [':', ' '] [.colon] := .of_between fun _ => rfl
  exact (lexes_text name).append hcolon

theorem lexes_printItems {items : List Json}
    (h : ∀ item ∈ items, ∀ level, Lexes Between Rests (print level item) (tokens item)) (level : Nat) :
    Lexes Rests Rests (printItems level items) (itemTokens items) := by
  induction items with
  | nil =>
      rw [printItems, itemTokens]
      exact .nil
  | cons item items ih =>
      rw [List.forall_mem_cons] at h
      have hbreak : Lexes Rests Between (',' :: newline level) [.comma] :=
        lexes_comma.append (lexes_newline level).from_between
      have hitem := (h.1 level).append (ih h.2)
      have hall := hbreak.append hitem
      rw [printItems, itemTokens]
      rwa [List.append_assoc]

theorem lexes_printFields {fields : List (Option String × Json)}
    (hkeys : ∀ f ∈ fields, f.1.isSome = true)
    (h : ∀ f ∈ fields, ∀ level, Lexes Between Rests (print level f.2) (tokens f.2)) (level : Nat) :
    Lexes Rests Rests (printFields level fields) (fieldTokens fields) := by
  induction fields with
  | nil =>
      rw [printFields, fieldTokens]
      exact .nil
  | cons f fields ih =>
      obtain ⟨key, value⟩ := f
      rw [List.forall_mem_cons] at h hkeys
      have hbreak : Lexes Rests Between (',' :: newline level) [.comma] :=
        lexes_comma.append (lexes_newline level).from_between
      have hvalue := (lexes_key hkeys.1).append ((h.1 level).append (ih hkeys.2 h.2))
      have hall := hbreak.append hvalue
      rw [printFields, fieldTokens]
      simpa only [List.append_assoc, List.cons_append, List.nil_append] using hall

theorem lexes_print {j : Json} (h : j.IsKnown) (level : Nat) :
    Lexes Between Rests (print level j) (tokens j) := by
  induction h generalizing level with
  | null => exact (Lexes.of_between fun _ => rfl).to_rests
  | bool b =>
      cases b with
      | false => exact (Lexes.of_between fun _ => rfl).to_rests
      | true => exact (Lexes.of_between fun _ => rfl).to_rests
  | natural n => exact lexes_digits n
  | text s => exact (lexes_text s).to_rests
  | @array items hitems ih =>
      cases items with
      | nil => exact (Lexes.of_between fun _ => rfl).to_rests
      | cons item items =>
          rw [List.forall_mem_cons] at ih
          have hopen : Lexes Between Between ['['] [.beginArray] := .of_between fun _ => rfl
          have hclose : Lexes Between Between [']'] [.endArray] := .of_between fun _ => rfl
          have hend := (lexes_newline level).append hclose
          have hitems := (ih.1 (level + 1)).append ((lexes_printItems ih.2 (level + 1)).append hend)
          have hall := hopen.append ((lexes_newline (level + 1)).from_between.append hitems)
          rw [print, tokens]
          simpa only [List.append_assoc, List.cons_append, List.nil_append] using hall.to_rests
  | @object fields hkeys hvalues ih =>
      cases fields with
      | nil => exact (Lexes.of_between fun _ => rfl).to_rests
      | cons f fields =>
          obtain ⟨key, value⟩ := f
          rw [List.forall_mem_cons] at ih hkeys
          have hopen : Lexes Between Between ['\x7b'] [.beginObject] := .of_between fun _ => rfl
          have hclose : Lexes Between Between ['\x7d'] [.endObject] := .of_between fun _ => rfl
          have hend := (lexes_newline level).append hclose
          have hfields := (ih.1 (level + 1)).append
            ((lexes_printFields hkeys.2 ih.2 (level + 1)).append hend)
          have hall := hopen.append ((lexes_newline (level + 1)).from_between.append
            ((lexes_key hkeys.1).append hfields))
          rw [print, tokens]
          simpa only [List.append_assoc, List.cons_append, List.nil_append] using hall.to_rests

theorem Lexer.Rests.finish?_eq {l : Lexer} {found : List Token} (h : l.Rests found) :
    l.finish? = some found.reverse := by
  cases h with
  | between => rfl
  | number hphase => exact if_pos hphase

theorem tokens?_print {j : Json} (h : j.IsKnown) (level : Nat) :
    tokens? (Utf8.encode (print level j)) = some (tokens j) := by
  obtain ⟨l, hrun, hrests⟩ := lexes_print h level ⟨.blank, []⟩ [] rfl
  rw [tokens?, hrun, Option.bind_some, hrests.finish?_eq, List.append_nil, List.reverse_reverse]

/-! ## The value of the tokens -/

/-- From a state that waits for a value, the tokens lead to the state behind it. -/
def Parses (j : Json) : Prop :=
  ∀ stack, (tokens j).foldlM ParserState.feed (.value stack) = some (.after stack j)

/-- What waits for the first item of an array takes what a value starts with. -/
theorem foldlM_firstItem (j : Json) (stack : List Frame) :
    (tokens j).foldlM ParserState.feed (.firstItem stack) =
      (tokens j).foldlM ParserState.feed (.value (.array [] :: stack)) := by
  fun_cases tokens j <;> rfl

theorem foldlM_itemTokens {items : List Json} (h : ∀ item ∈ items, Parses item) (stack : List Frame)
    (before : List Json) (item : Json) :
    (itemTokens items ++ [Token.endArray]).foldlM ParserState.feed (.after (.array before :: stack) item) =
      some (.after stack (.array ((item :: before).reverse ++ items))) := by
  induction items generalizing before item with
  | nil =>
      rw [itemTokens, List.append_nil]
      rfl
  | cons next items ih =>
      rw [List.forall_mem_cons] at h
      rw [itemTokens, List.cons_append, List.foldlM_cons]
      change ((tokens next ++ itemTokens items) ++ [Token.endArray]).foldlM ParserState.feed
        (.value (.array (item :: before) :: stack)) = _
      rw [List.append_assoc, List.foldlM_append, h.1]
      change (itemTokens items ++ [Token.endArray]).foldlM ParserState.feed _ = _
      rw [ih h.2, List.reverse_cons, List.append_assoc]
      rfl

theorem foldlM_fieldTokens {fields : List (Option String × Json)} (h : ∀ f ∈ fields, Parses f.2)
    (stack : List Frame) (before : List (Option String × Json)) (key : Option String) (value : Json) :
    (fieldTokens fields ++ [Token.endObject]).foldlM ParserState.feed
      (.after (.object before key :: stack) value) =
        some (.after stack (.object (((key, value) :: before).reverse ++ fields))) := by
  induction fields generalizing before key value with
  | nil =>
      rw [fieldTokens, List.append_nil]
      rfl
  | cons f fields ih =>
      obtain ⟨next, v⟩ := f
      rw [List.forall_mem_cons] at h
      rw [fieldTokens]
      change ((tokens v ++ fieldTokens fields) ++ [Token.endObject]).foldlM ParserState.feed
        (.value (.object ((key, value) :: before) next :: stack)) = _
      rw [List.append_assoc, List.foldlM_append, h.1]
      change (fieldTokens fields ++ [Token.endObject]).foldlM ParserState.feed _ = _
      rw [ih h.2, List.reverse_cons, List.append_assoc]
      rfl

theorem parses {j : Json} (h : j.IsKnown) : Parses j := by
  induction h with
  | null => exact fun _ => rfl
  | bool b => exact fun _ => rfl
  | natural n => exact fun _ => rfl
  | text s => exact fun _ => rfl
  | @array items hitems ih =>
      intro stack
      cases items with
      | nil => rfl
      | cons item items =>
          rw [List.forall_mem_cons] at ih
          rw [tokens, List.foldlM_cons]
          change (tokens item ++ (itemTokens items ++ [Token.endArray])).foldlM ParserState.feed
            (.firstItem stack) = _
          rw [List.foldlM_append, foldlM_firstItem, ih.1]
          exact foldlM_itemTokens ih.2 stack [] item
  | @object fields hkeys hvalues ih =>
      intro stack
      cases fields with
      | nil => rfl
      | cons f fields =>
          obtain ⟨key, value⟩ := f
          rw [List.forall_mem_cons] at ih
          rw [tokens]
          change (tokens value ++ (fieldTokens fields ++ [Token.endObject])).foldlM ParserState.feed
            (.value (.object [] key :: stack)) = _
          rw [List.foldlM_append, ih.1]
          exact foldlM_fieldTokens ih.2 stack [] key value

theorem ofTokens?_tokens {j : Json} (h : j.IsKnown) : ofTokens? (tokens j) = some j := by
  rw [ofTokens?, parses h, Option.bind_some]
  rfl

/-- What is printed for a value, at any level, is read as the value. -/
theorem parse?_print {j : Json} (h : j.IsKnown) (level : Nat) :
    parse? (Utf8.encode (print level j)) = some j := by
  change (tokens? _).bind ofTokens? = _
  rw [tokens?_print h, Option.bind_some, ofTokens?_tokens h]

end StarkVerifier.Json
