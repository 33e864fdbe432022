import Mathlib.Data.Nat.Digits.Defs
import StarkVerifier.Proofs.Text.Hex

/-!
# Literals of numbers and elements

A literal is an optional `0x` and then one to 64 digits of either case; its value is that of the digits in
base 16. A number is read from its literals and from no other text, an element from the literals below the
modulus, and both the bytes and the digits written for an element lead back to it. Main statement:
`Felt.codecs_canonical`.
-/

namespace StarkVerifier

namespace Hex

/-! ## The grammar -/

/-- A digit of either case, and what it counts. -/
def IsDigit (c : Char) (n : Nat) : Prop := n < 16 ∧ (c = digit n ∨ c = (digit n).toUpper)

def Literal (text : String) (v : Nat) : Prop :=
  ∃ (mark digits : List Char) (ns : List Nat), text.toList = mark ++ digits ∧
    (mark = [] ∨ mark = ['0', 'x']) ∧ 1 ≤ digits.length ∧ digits.length ≤ 64 ∧
    List.Forall₂ IsDigit digits ns ∧ v = Nat.ofDigits 16 ns.reverse

/-! ## Digits -/

/-- A character of a run of consecutive ones is found by its distance from the first. -/
theorem eq_of_run {f : Nat → Char} {k n : Nat} (hrun : ∀ i < n, f i = Char.ofNat (k + i)) {c : Char}
    (hlow : k ≤ c.toNat) (hhigh : c.toNat < k + n) : c = f (c.toNat - k) := by
  rw [hrun _ (by omega), Nat.add_sub_cancel' hlow, Char.ofNat_toNat]

theorem isDigit_of_value? {c : Char} {n : Nat} (h : value? c = some n) : IsDigit c n := by
  have hdecimal : ∀ i < 10, digit i = Char.ofNat (48 + i) := by decide
  have hlower : ∀ i < 6, digit (i + 10) = Char.ofNat (97 + i) := by decide
  have hupper : ∀ i < 6, (digit (i + 10)).toUpper = Char.ofNat (65 + i) := by decide
  unfold value? at h
  simp only [Char.le_def, UInt32.le_iff_toNat_le] at h
  split at h
  · next hc =>
      obtain rfl := Option.some.inj h
      have hhigh : c.toNat < 48 + 10 := Nat.lt_succ_of_le hc.2
      exact ⟨show c.toNat - 48 < 16 by omega, Or.inl (eq_of_run hdecimal hc.1 hhigh)⟩
  split at h
  · next hc =>
      obtain rfl := Option.some.inj h
      have hhigh : c.toNat < 97 + 6 := Nat.lt_succ_of_le hc.2
      exact ⟨show c.toNat - 97 + 10 < 16 by omega, Or.inl (eq_of_run hlower hc.1 hhigh)⟩
  split at h
  · next hc =>
      obtain rfl := Option.some.inj h
      have hhigh : c.toNat < 65 + 6 := Nat.lt_succ_of_le hc.2
      exact ⟨show c.toNat - 65 + 10 < 16 by omega, Or.inr (eq_of_run hupper hc.1 hhigh)⟩
  · simp at h

theorem value?_eq_some_iff {c : Char} {n : Nat} : value? c = some n ↔ IsDigit c n := by
  constructor
  · exact isDigit_of_value?
  · rintro ⟨hn, rfl | rfl⟩
    · exact value?_digit hn
    · have hall : ∀ n < 16, value? (digit n).toUpper = some n := by decide
      exact hall n hn

theorem ofDigits_reverse_cons (d : Nat) (ns : List Nat) :
    Nat.ofDigits 16 (d :: ns).reverse = 16 ^ ns.length * d + Nat.ofDigits 16 ns.reverse := by
  rw [List.reverse_cons, Nat.ofDigits_append, List.length_reverse, Nat.ofDigits_singleton, Nat.add_comm]

/-- What is read so far moves up by as many places as there are digits left. -/
theorem foldlM_eq_some_iff {digits : List Char} {n v : Nat} :
    digits.foldlM (fun n c => (value? c).map (16 * n + ·)) n = some v ↔
      ∃ ns, List.Forall₂ IsDigit digits ns ∧
        v = 16 ^ digits.length * n + Nat.ofDigits 16 ns.reverse := by
  induction digits generalizing n with
  | nil => simp [eq_comm]
  | cons c digits ih =>
      simp only [List.foldlM_cons, bind, Option.bind_eq_some_iff, Option.map_eq_some_iff,
        value?_eq_some_iff, ih]
      constructor
      · rintro ⟨_, ⟨d, hd, rfl⟩, ns, hns, rfl⟩
        refine ⟨d :: ns, .cons hd hns, ?_⟩
        rw [ofDigits_reverse_cons, ← hns.length_eq, List.length_cons]
        ring
      · rintro ⟨_, _ | ⟨hd, hns⟩, rfl⟩
        refine ⟨_, ⟨_, hd, rfl⟩, _, hns, ?_⟩
        rw [ofDigits_reverse_cons, ← hns.length_eq, List.length_cons]
        ring

theorem number?_eq_some_iff {digits : List Char} {v : Nat} :
    number? digits = some v ↔ 1 ≤ digits.length ∧
      ∃ ns, List.Forall₂ IsDigit digits ns ∧ v = Nat.ofDigits 16 ns.reverse := by
  unfold number?
  cases digits with
  | nil => simp
  | cons c digits =>
      rw [if_neg (by simp), foldlM_eq_some_iff, Nat.mul_zero, List.length_cons]
      simp only [Nat.zero_add, Nat.le_add_left, true_and]

/-! ## The mark -/

theorem exists_mark (text : List Char) :
    ∃ mark, (mark = [] ∨ mark = ['0', 'x']) ∧ text = mark ++ stripMark text := by
  fun_cases stripMark text with
  | case1 rest => exact ⟨['0', 'x'], Or.inr rfl, rfl⟩
  | case2 => exact ⟨[], Or.inl rfl, rfl⟩

/-- Digits alone begin with no mark, for `x` is no digit. -/
theorem stripMark_digits {digits : List Char} {ns : List Nat} (h : List.Forall₂ IsDigit digits ns) :
    stripMark digits = digits := by
  fun_cases stripMark digits with
  | case1 rest =>
      rcases h with _ | ⟨-, _ | ⟨hx, -⟩⟩
      exact absurd (value?_eq_some_iff.mpr hx) (by simp [show value? 'x' = none by decide])
  | case2 => rfl

theorem stripMark_append {mark digits : List Char} {ns : List Nat} (hmark : mark = [] ∨ mark = ['0', 'x'])
    (h : List.Forall₂ IsDigit digits ns) : stripMark (mark ++ digits) = digits := by
  rcases hmark with rfl | rfl
  · exact stripMark_digits h
  · rfl

theorem literal_iff {text : String} {v : Nat} :
    Literal text v ↔ (stripMark text.toList).length ≤ 64 ∧ number? (stripMark text.toList) = some v := by
  rw [number?_eq_some_iff]
  constructor
  · rintro ⟨mark, digits, ns, htext, hmark, hpos, hmost, hdigits, rfl⟩
    rw [htext, stripMark_append hmark hdigits]
    exact ⟨hmost, hpos, ns, hdigits, rfl⟩
  · rintro ⟨hmost, hpos, ns, hdigits, rfl⟩
    obtain ⟨mark, hmark, htext⟩ := exists_mark text.toList
    exact ⟨mark, _, ns, htext, hmark, hpos, hmost, hdigits, rfl⟩

theorem forall_lt_of_digits {digits : List Char} {ns : List Nat} (h : List.Forall₂ IsDigit digits ns) :
    ∀ n ∈ ns, n < 16 := by
  induction h with
  | nil => simp
  | cons hdigit hdigits ih => exact List.forall_mem_cons.mpr ⟨hdigit.1, ih⟩

theorem Literal.lt {text : String} {v : Nat} (h : Literal text v) : v < 2 ^ 256 := by
  obtain ⟨mark, digits, ns, -, -, -, hmost, hdigits, rfl⟩ := h
  have hlength : ns.reverse.length ≤ 64 := by rwa [List.length_reverse, ← hdigits.length_eq]
  calc Nat.ofDigits 16 ns.reverse
      < 16 ^ ns.reverse.length := Nat.ofDigits_lt_base_pow_length (by decide) fun n hn =>
        forall_lt_of_digits hdigits n (List.mem_reverse.mp hn)
    _ ≤ 16 ^ 64 := Nat.pow_le_pow_right (by decide) hlength
    _ = 2 ^ 256 := by norm_num

theorem Literal.toNat_ofNat {text : String} {v : Nat} (h : Literal text v) :
    (UInt256.ofNat v).toNat = v := by
  rw [UInt256.toNat_ofNat, Nat.mod_eq_of_lt h.lt]

end Hex

/-! ## Numbers and elements -/

theorem UInt256.ofHex?_eq_some_iff {text : String} {x : UInt256} :
    ofHex? text = some x ↔ Hex.Literal text x.toNat := by
  constructor
  · intro h
    simp only [ofHex?, Option.ite_none_right_eq_some, Option.map_eq_some_iff] at h
    obtain ⟨hlength, v, hv, rfl⟩ := h
    have hliteral := Hex.literal_iff.mpr ⟨hlength, hv⟩
    rwa [hliteral.toNat_ofNat]
  · intro h
    obtain ⟨hlength, hv⟩ := Hex.literal_iff.mp h
    simp only [ofHex?, if_pos hlength, hv, Option.map_some, ofNat_toNat]

theorem UInt256.ofHex?_eq_none_iff {text : String} :
    ofHex? text = none ↔ ¬∃ v, Hex.Literal text v := by
  rw [Option.eq_none_iff_forall_ne_some, not_exists]
  simp only [ne_eq, ofHex?_eq_some_iff]
  constructor
  · intro h v hv
    exact h (ofNat v) (hv.toNat_ofNat.symm ▸ hv)
  · intro h x
    exact h x.toNat

namespace Felt

theorem ofHex_eq_ok_iff {text : String} {x : Felt} : ofHex text = .ok x ↔ Hex.Literal text x.toNat := by
  have hnumber : Hex.Literal text x.toNat ↔ UInt256.ofHex? text = some x.toUInt256 :=
    UInt256.ofHex?_eq_some_iff.symm
  rw [hnumber, ofHex]
  cases UInt256.ofHex? text with
  | none => simp
  | some w => rw [ofCanonical_eq_ok_iff, Option.some.injEq]

/-- There is an element for each number below the modulus. -/
theorem exists_toNat_eq {n : Nat} (h : n < modulus) : ∃ x : Felt, x.toNat = n := by
  have hofNat : (UInt256.ofNat n).toNat = n := by
    rw [UInt256.toNat_ofNat, Nat.mod_eq_of_lt (h.trans modulus_lt)]
  refine ⟨ofUInt256 (.ofNat n), ?_⟩
  rw [toNat, toUInt256_ofUInt256 (hofNat.symm ▸ h), hofNat]

theorem ofCanonical_eq_error_iff {w : UInt256} {e : FieldError} :
    ofCanonical w = .error e ↔ modulus ≤ w.toNat ∧ e = .notCanonical w := by
  have hlt := UInt256.lt_iff w Montgomery.modulusWords
  rw [Montgomery.toNat_modulusWords] at hlt
  unfold ofCanonical
  split
  · next h => simp [hlt.mp h]
  · next h =>
      rw [hlt] at h
      simp [Nat.le_of_not_lt h, eq_comm]

/-- A text is refused for its form, or for the number it spells. -/
theorem ofHex_eq_error_iff {text : String} {e : FieldError} :
    ofHex text = .error e ↔ (¬∃ v, Hex.Literal text v) ∧ e = .invalidHex text ∨
      ∃ v, Hex.Literal text v ∧ modulus ≤ v ∧ e = .notCanonical (.ofNat v) := by
  rw [← UInt256.ofHex?_eq_none_iff]
  cases hnumber : UInt256.ofHex? text with
  | none =>
      have hnone := not_exists.mp (UInt256.ofHex?_eq_none_iff.mp hnumber)
      simp [ofHex, hnumber, hnone, eq_comm]
  | some w =>
      have hliteral := UInt256.ofHex?_eq_some_iff.mp hnumber
      simp only [ofHex, hnumber, ofCanonical_eq_error_iff, reduceCtorEq, false_and, false_or]
      constructor
      · rintro ⟨hle, rfl⟩
        exact ⟨w.toNat, hliteral, hle, by rw [UInt256.ofNat_toNat]⟩
      · rintro ⟨v, hv, hle, rfl⟩
        have hw := UInt256.ofHex?_eq_some_iff.mpr (hv.toNat_ofNat.symm ▸ hv)
        obtain rfl := Option.some.inj (hnumber.symm.trans hw)
        exact ⟨hv.toNat_ofNat.symm ▸ hle, rfl⟩

theorem exists_ofHex_iff {text : String} :
    (∃ x, ofHex text = .ok x) ↔ ∃ v, Hex.Literal text v ∧ v < modulus := by
  constructor
  · rintro ⟨x, hx⟩
    exact ⟨x.toNat, ofHex_eq_ok_iff.mp hx, x.toNat_lt⟩
  · rintro ⟨v, hv, hlt⟩
    obtain ⟨x, rfl⟩ := exists_toNat_eq hlt
    exact ⟨x, ofHex_eq_ok_iff.mpr hv⟩

/-- Text and bytes are read as elements exactly when they spell a number below the modulus. What is no
literal is refused as such, and a literal from the modulus on as not canonical. Bytes that are read are
those of the element, and an element is read back from its bytes and from its digits. -/
theorem codecs_canonical :
    (∀ text : String, ((∃ x, ofHex text = .ok x) ↔ ∃ v, Hex.Literal text v ∧ v < modulus) ∧
      (∀ x, ofHex text = .ok x ↔ ∃ v, Hex.Literal text v ∧ v < modulus ∧ x.toNat = v) ∧
      ∀ e, ofHex text = .error e ↔ (¬∃ v, Hex.Literal text v) ∧ e = .invalidHex text ∨
        ∃ v, Hex.Literal text v ∧ modulus ≤ v ∧ e = .notCanonical (.ofNat v)) ∧
    (∀ bytes : Bytes,
      ((∃ x, ofBytes bytes = .ok x) ↔ bytes.length = 32 ∧ Bytes.toNat bytes < modulus) ∧
      ∀ x, ofBytes bytes = .ok x ↔ x.toBytes = bytes) ∧
    ∀ x : Felt, Bytes.toNat x.toBytes = x.toNat ∧ Hex.Literal x.toHex x.toNat ∧
      ofBytes x.toBytes = .ok x ∧ ofHex x.toHex = .ok x := by
  refine ⟨fun text => ⟨exists_ofHex_iff, fun x => ?_, fun e => ofHex_eq_error_iff⟩,
    fun bytes => ⟨⟨?_, ?_⟩, fun x => ?_⟩,
    fun x => ⟨x.toNat_toBytes, ofHex_eq_ok_iff.mp x.ofHex_toHex, x.ofBytes_toBytes, x.ofHex_toHex⟩⟩
  · rw [ofHex_eq_ok_iff]
    constructor
    · intro h
      exact ⟨x.toNat, h, x.toNat_lt, rfl⟩
    · rintro ⟨v, hv, -, rfl⟩
      exact hv
  · rintro ⟨x, hx⟩
    have hlength : bytes.length = 32 := ofBytes_eq_ok_iff.mp hx ▸ x.length_toBytes
    exact ⟨hlength, (exists_ofBytes_iff hlength).mp ⟨x, hx⟩⟩
  · rintro ⟨hlength, hlt⟩
    exact (exists_ofBytes_iff hlength).mpr hlt
  · rw [ofBytes_eq_ok_iff, eq_comm]

end Felt
end StarkVerifier
