import Mathlib.Data.List.Basic
import StarkVerifier.Json.Lexer
import StarkVerifier.Json.Printer
import StarkVerifier.Proofs.Text.Hex
import StarkVerifier.Proofs.Text.Utf8

/-!
# Tokens of printed text

The machine finds the tokens of a value in the text that is printed for it. A number has no end of its
own, so behind a value the machine may still be within one; the text that follows a value starts with a
break, which ends it. Main statement: `lexes_print`.
-/

namespace StarkVerifier.Json

/-! ## Runs of the machine -/

/-- The machine stands between two tokens, these being found. -/
def Lexer.Between (l : Lexer) (found : List Token) : Prop := l = ⟨.blank, found⟩

/-- If the text breaks here, these tokens are found. -/
inductive Lexer.Rests : Lexer → List Token → Prop
  | between (found : List Token) : Rests ⟨.blank, found⟩ found
  | number {phase : NumberPhase} (hphase : phase.isComplete = true) (isNatural : Bool) (value : Nat)
      (found : List Token) :
      Rests ⟨.number phase isNatural value, found⟩ (Lexer.numberToken isNatural value :: found)

open Lexer (Between Rests)

/-- From where it starts, over the text, to where it ends, the machine finds these tokens. -/
def Lexes (start finish : Lexer → List Token → Prop) (text : List Char) (tokens : List Token) : Prop :=
  ∀ l found, start l found →
    ∃ l', (Utf8.encode text).foldlM Lexer.feed l = some l' ∧ finish l' (tokens.reverse ++ found)

namespace Lexes

variable {start middle finish : Lexer → List Token → Prop} {text others : List Char}
  {tokens tokens' : List Token}

theorem append (h : Lexes start middle text tokens) (h' : Lexes middle finish others tokens') :
    Lexes start finish (text ++ others) (tokens ++ tokens') := by
  intro l found hl
  obtain ⟨l₁, hrun, hl₁⟩ := h l found hl
  obtain ⟨l₂, hrun', hl₂⟩ := h' l₁ _ hl₁
  refine ⟨l₂, ?_, ?_⟩
  · rw [Utf8.encode_append, List.foldlM_append, hrun]
    exact hrun'
  · rwa [List.reverse_append, List.append_assoc]

theorem nil : Lexes start start [] [] := fun l _ hl => ⟨l, rfl, hl⟩

theorem of_between (h : ∀ found, (Utf8.encode text).foldlM Lexer.feed ⟨.blank, found⟩ =
    some ⟨.blank, tokens.reverse ++ found⟩) : Lexes Between Between text tokens := by
  rintro l found rfl
  exact ⟨_, h found, rfl⟩

theorem from_between (h : Lexes Rests finish text tokens) : Lexes Between finish text tokens := by
  rintro l found rfl
  exact h _ found (.between found)

theorem to_rests (h : Lexes start Between text tokens) : Lexes start Rests text tokens := by
  intro l found hl
  obtain ⟨l', hrun, rfl⟩ := h l found hl
  exact ⟨_, hrun, .between _⟩

end Lexes

/-! ## Breaks -/

/-- A comma or the end of a line ends a number. -/
theorem Lexer.Rests.feed_break {l : Lexer} {found : List Token} (h : l.Rests found) {b : UInt8}
    (hb : b = 0x2c ∨ b = 0x0a) : l.feed b = Lexer.feedBlank ⟨.blank, found⟩ b := by
  cases h with
  | between => rfl
  | @number phase hphase isNatural value found =>
      cases phase with
      | minus => nomatch hphase
      | point => nomatch hphase
      | exponent => nomatch hphase
      | sign => nomatch hphase
      | zero => rcases hb with rfl | rfl <;> rfl
      | whole => rcases hb with rfl | rfl <;> rfl
      | fraction => rcases hb with rfl | rfl <;> rfl
      | power => rcases hb with rfl | rfl <;> rfl

theorem lexes_spaces (n : Nat) : Lexes Between Between (List.replicate n ' ') [] := by
  induction n with
  | zero => exact .nil
  | succ n ih =>
      have hspace : Lexes Between Between [' '] [] := .of_between fun _ => rfl
      exact hspace.append ih

theorem lexes_newline (level : Nat) : Lexes Rests Between (newline level) [] := by
  have hbreak : Lexes Rests Between ['\n'] [] := by
    intro l found hl
    refine ⟨⟨.blank, found⟩, ?_, rfl⟩
    change (l.feed 0x0a).bind some = _
    rw [hl.feed_break (.inr rfl)]
    rfl
  exact hbreak.append (lexes_spaces (2 * level))

theorem lexes_comma : Lexes Rests Between [','] [.comma] := by
  intro l found hl
  refine ⟨⟨.blank, .comma :: found⟩, ?_, rfl⟩
  change (l.feed 0x2c).bind some = _
  rw [hl.feed_break (.inl rfl)]
  rfl

/-! ## Numbers -/

/-- Behind its digits the machine is still within the number. -/
theorem lexes_digits (n : Nat) : Lexes Between Rests (Nat.toDigits 10 n) [.scalar (.natural n)] := by
  have hrun (found : List Token) : (Utf8.encode (Nat.toDigits 10 n)).foldlM Lexer.feed ⟨.blank, found⟩ =
      some ⟨.number (if n = 0 then .zero else .whole) true n, found⟩ := by
    induction n using Nat.strongRecOn with
    | _ n ih =>
        by_cases hn : n < 10
        · rw [Nat.toDigits_of_lt_base hn]
          interval_cases n <;> rfl
        · have hbase : 10 ≤ n := Nat.not_lt.mp hn
          have hne : n / 10 ≠ 0 := by omega
          have hdigit : n % 10 < 10 := Nat.mod_lt _ (by decide)
          rw [Nat.toDigits_of_base_le (by decide) hbase, Utf8.encode_append, List.foldlM_append,
            ih (n / 10) (by omega), if_neg hne, if_neg (by omega)]
          -- from the number of the higher digits, the last one leads to the number itself
          have hvalue : n = 10 * (n / 10) + n % 10 := (Nat.div_add_mod n 10).symm
          generalize n % 10 = d at hdigit hvalue
          generalize n / 10 = m at hvalue
          subst hvalue
          interval_cases d <;> rfl
  rintro l found rfl
  refine ⟨_, hrun found, ?_⟩
  have hphase : (if n = 0 then NumberPhase.zero else NumberPhase.whole).isComplete = true := by
    split <;> rfl
  exact .number hphase true n found

/-! ## Strings -/

/-- The pieces stand for the characters, whatever pieces follow. -/
def Spells (pieces : List Piece) (text : List Char) : Prop :=
  ∀ rest, Piece.bytes? (pieces ++ rest) = (Piece.bytes? rest).map (Utf8.encode text ++ ·)

/-- Within a string, the machine takes the text as pieces that stand for the characters. -/
def LexesWithin (text chars : List Char) : Prop :=
  ∃ pieces, Spells pieces chars ∧ ∀ before found,
    (Utf8.encode text).foldlM Lexer.feed ⟨.string before, found⟩ =
      some ⟨.string (pieces.reverse ++ before), found⟩

theorem LexesWithin.append {text others chars chars' : List Char} (h : LexesWithin text chars)
    (h' : LexesWithin others chars') : LexesWithin (text ++ others) (chars ++ chars') := by
  obtain ⟨pieces, hspells, hrun⟩ := h
  obtain ⟨pieces', hspells', hrun'⟩ := h'
  refine ⟨pieces ++ pieces', ?_, ?_⟩
  · intro rest
    rw [List.append_assoc, hspells, hspells', Option.map_map]
    congr 1
    funext bytes
    rw [Utf8.encode_append, List.append_assoc]
    rfl
  · intro before found
    rw [Utf8.encode_append, List.foldlM_append, hrun]
    change (Utf8.encode others).foldlM Lexer.feed _ = _
    rw [hrun', List.reverse_append, List.append_assoc]

theorem spells_bytes (text : List Char) : Spells ((Utf8.encode text).map .byte) text := by
  intro rest
  induction Utf8.encode text with
  | nil => simp only [List.map_nil, List.nil_append, Option.map_id_fun', id]
  | cons b bytes ih =>
      rw [List.map_cons, List.cons_append, Piece.bytes?, ih, Option.map_map]
      rfl

/-- A unit below the surrogates stands for its character. -/
theorem spells_unit {c : Char} (h : c.toNat < 0xd800) : Spells [.unit c.toNat] [c] := by
  have hself : Piece.utf8 c.toNat = Utf8.encode [c] := by rw [Piece.utf8, Char.ofNat_toNat]
  have hhigh : Piece.isHigh c.toNat = false := by
    simp only [Piece.isHigh, Bool.and_eq_false_iff, decide_eq_false_iff_not]
    exact .inl (by omega)
  have hlow : Piece.isLow c.toNat = false := by
    simp only [Piece.isLow, Bool.and_eq_false_iff, decide_eq_false_iff_not]
    exact .inl (by omega)
  intro rest
  cases rest with
  | nil => simp [Piece.bytes?, hhigh, hlow, hself]
  | cons piece rest =>
      cases piece with
      | byte b => simp [Piece.bytes?, hhigh, hlow, hself]
      | unit n => simp [Piece.bytes?, hhigh, hlow, hself]

/-- A byte that stands for itself in a string. -/
def IsPlain (b : UInt8) : Prop := b ≠ 0x22 ∧ b ≠ 0x5c ∧ ¬ b < 0x20

theorem foldlM_feed_plain {bytes : Bytes} (h : ∀ b ∈ bytes, IsPlain b) (before : List Piece)
    (found : List Token) : bytes.foldlM Lexer.feed ⟨.string before, found⟩ =
      some ⟨.string ((bytes.map .byte).reverse ++ before), found⟩ := by
  induction bytes generalizing before with
  | nil => rfl
  | cons b bytes ih =>
      rw [List.forall_mem_cons] at h
      obtain ⟨⟨hquote, hslash, hcontrol⟩, h⟩ := h
      have hfeed : Lexer.feed ⟨.string before, found⟩ b =
          some ⟨.string (.byte b :: before), found⟩ := by
        simp only [Lexer.feed, if_neg hquote, if_neg hslash, if_neg hcontrol, Lexer.enter]
      rw [List.foldlM_cons, hfeed, List.map_cons, List.reverse_cons, List.append_assoc]
      exact ih h _

theorem isPlain_of_mem {c : Char} (hquote : c ≠ '\x22') (hslash : c ≠ '\\')
    (hcontrol : ¬ c.toNat < 0x20) {b : UInt8} (hb : b ∈ String.utf8EncodeChar c) : IsPlain b := by
  rcases Nat.lt_or_ge 127 c.toNat with hc | hc
  · have hhigh := Utf8.le_of_mem_utf8EncodeChar hc hb
    refine ⟨?_, ?_, ?_⟩
    · rintro rfl
      exact absurd hhigh (by decide)
    · rintro rfl
      exact absurd hhigh (by decide)
    · rw [UInt8.lt_iff_toNat_lt]
      exact Nat.not_lt.mpr (Nat.le_trans (by decide) hhigh)
  · rw [Utf8.utf8EncodeChar_of_le hc, List.mem_singleton] at hb
    have hbyte : b.toNat = c.toNat := by
      rw [hb, Utf8.toNat_ofNat (Nat.lt_of_le_of_lt hc (by decide))]
    refine ⟨?_, ?_, ?_⟩
    · rintro rfl
      exact hquote (Char.toNat_inj.mp hbyte.symm)
    · rintro rfl
      exact hslash (Char.toNat_inj.mp hbyte.symm)
    · rwa [UInt8.lt_iff_toNat_lt, hbyte]

/-- Four digits make a unit. -/
theorem feed_digit {n : Nat} (hn : n < 16) (before : List Piece) (missing value : Nat)
    (found : List Token) :
    Lexer.feed ⟨.unicode before missing value, found⟩ (UInt8.ofNat (Hex.digit n).toNat) =
      some ⟨if missing ≤ 1 then .string (.unit (16 * value + n) :: before)
        else .unicode before (missing - 1) (16 * value + n), found⟩ := by
  have hchar : Char.ofNat (UInt8.ofNat (Hex.digit n).toNat).toNat = Hex.digit n := by
    interval_cases n <;> rfl
  simp only [Lexer.feed, hchar, Hex.value?_digit hn, Option.map_some, Lexer.enter]
  split <;> rfl

theorem encode_digit {n : Nat} (hn : n < 16) :
    Utf8.encode [Hex.digit n] = [UInt8.ofNat (Hex.digit n).toNat] := by
  interval_cases n <;> rfl

theorem lexesWithin_control {c : Char} (h : c.toNat < 0x20) :
    LexesWithin ['\\', 'u', '0', '0', Hex.digit (c.toNat / 16), Hex.digit (c.toNat % 16)] [c] := by
  refine ⟨[.unit c.toNat], spells_unit (Nat.lt_trans h (by decide)), ?_⟩
  intro before found
  have hhigh : c.toNat / 16 < 16 := by omega
  have hlow : c.toNat % 16 < 16 := Nat.mod_lt _ (by decide)
  have hbytes : Utf8.encode ['\\', 'u', '0', '0', Hex.digit (c.toNat / 16), Hex.digit (c.toNat % 16)] =
      [0x5c, 0x75, 0x30, 0x30] ++ ([UInt8.ofNat (Hex.digit (c.toNat / 16)).toNat] ++
        [UInt8.ofNat (Hex.digit (c.toNat % 16)).toNat]) := by
    change Utf8.encode (['\\', 'u', '0', '0'] ++ ([Hex.digit (c.toNat / 16)] ++
      [Hex.digit (c.toNat % 16)])) = _
    rw [Utf8.encode_append, Utf8.encode_append, encode_digit hhigh, encode_digit hlow]
    rfl
  rw [hbytes, List.foldlM_append]
  change List.foldlM Lexer.feed ⟨.unicode before 2 0, found⟩ _ = _
  rw [List.cons_append, List.nil_append, List.foldlM_cons, feed_digit hhigh]
  change (Lexer.feed ⟨.unicode before 1 (16 * 0 + c.toNat / 16), found⟩ _).bind _ = _
  rw [feed_digit hlow]
  change some (Lexer.mk (.string (.unit (16 * (16 * 0 + c.toNat / 16) + c.toNat % 16) :: before)) found) = _
  rw [Nat.mul_zero, Nat.zero_add, Nat.div_add_mod]
  rfl

theorem lexesWithin_escape (c : Char) : LexesWithin (escape c) [c] := by
  unfold escape
  split
  · exact ⟨[.byte 0x22], spells_bytes ['\x22'], fun _ _ => rfl⟩
  · exact ⟨[.byte 0x5c], spells_bytes ['\\'], fun _ _ => rfl⟩
  · exact ⟨[.byte 0x08], spells_bytes ['\x08'], fun _ _ => rfl⟩
  · exact ⟨[.byte 0x0c], spells_bytes ['\x0c'], fun _ _ => rfl⟩
  · exact ⟨[.byte 0x0a], spells_bytes ['\n'], fun _ _ => rfl⟩
  · exact ⟨[.byte 0x0d], spells_bytes ['\r'], fun _ _ => rfl⟩
  · exact ⟨[.byte 0x09], spells_bytes ['\t'], fun _ _ => rfl⟩
  · next hquote hslash _ _ _ _ _ =>
    split
    · next hcontrol => exact lexesWithin_control hcontrol
    · next hcontrol =>
      refine ⟨_, spells_bytes [c], foldlM_feed_plain ?_⟩
      intro b hb
      rw [Utf8.encode_cons, Utf8.encode, List.flatMap_nil, List.append_nil] at hb
      exact isPlain_of_mem hquote hslash hcontrol hb

theorem lexesWithin_escaped (chars : List Char) : LexesWithin (chars.flatMap escape) chars := by
  induction chars with
  | nil => exact ⟨[], spells_bytes [], fun _ _ => rfl⟩
  | cons c chars ih => exact (lexesWithin_escape c).append ih

theorem lexes_text (s : String) :
    Lexes Between Between (printText s) [.scalar (.text (some s))] := by
  obtain ⟨pieces, hspells, hrun⟩ := lexesWithin_escaped s.toList
  have htext : Piece.text? pieces = some s := by
    have hbytes := hspells []
    rw [List.append_nil, Piece.bytes?, Option.map_some, List.append_nil] at hbytes
    rw [Piece.text?, hbytes]
    change (Utf8.decode? (Utf8.encode s.toList)).bind _ = some s
    rw [Utf8.decode?_encode, Option.bind_some, String.ofList_toList]
    rfl
  refine .of_between fun found => ?_
  have hquotes : printText s = ['\x22'] ++ (s.toList.flatMap escape ++ ['\x22']) := rfl
  rw [hquotes, Utf8.encode_append, List.foldlM_append]
  change (Utf8.encode (s.toList.flatMap escape ++ ['\x22'])).foldlM Lexer.feed ⟨.string [], found⟩ = _
  rw [Utf8.encode_append, List.foldlM_append, hrun]
  change some (Lexer.mk .blank (.scalar (.text (Piece.text? (pieces.reverse ++ []).reverse)) :: found)) = _
  rw [List.append_nil, List.reverse_reverse, htext]
  rfl

end StarkVerifier.Json
