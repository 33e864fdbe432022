import Mathlib.Data.List.Basic
import Mathlib.Tactic.Ring
import StarkVerifier.Bytes

/-!
# Words and numbers read back from their bytes

A word and a number of 256 bits are determined by the bytes they spell, and so is a list of pieces of
one length by their concatenation.
-/

namespace StarkVerifier

namespace Bytes

theorem foldl_eq (bytes : Bytes) (n : Nat) :
    bytes.foldl (fun n b => 256 * n + b.toNat) n = 256 ^ bytes.length * n + toNat bytes := by
  induction bytes generalizing n with
  | nil =>
      rw [List.foldl_nil, List.length_nil, Nat.pow_zero, Nat.one_mul]
      rfl
  | cons b bytes ih =>
      have hcons : toNat (b :: bytes) = 256 ^ bytes.length * (256 * 0 + b.toNat) + toNat bytes := ih _
      rw [List.foldl_cons, ih, hcons, List.length_cons, Nat.pow_succ]
      ring

theorem toNat_append (bytes others : Bytes) :
    toNat (bytes ++ others) = 256 ^ others.length * toNat bytes + toNat others := by
  rw [toNat, List.foldl_append, foldl_eq]
  rfl

theorem toNat_cons (b : UInt8) (bytes : Bytes) :
    toNat (b :: bytes) = 256 ^ bytes.length * b.toNat + toNat bytes := by
  rw [toNat, List.foldl_cons, foldl_eq, Nat.mul_zero, Nat.zero_add]

theorem toNat_lt (bytes : Bytes) : toNat bytes < 256 ^ bytes.length := by
  induction bytes with
  | nil => exact Nat.one_pos
  | cons b bytes ih =>
      have hb : b.toNat + 1 ≤ 256 := b.toNat_lt
      calc toNat (b :: bytes)
          < 256 ^ bytes.length * b.toNat + 256 ^ bytes.length := by
            rw [toNat_cons]
            exact Nat.add_lt_add_left ih _
        _ = 256 ^ bytes.length * (b.toNat + 1) := (Nat.mul_succ _ _).symm
        _ ≤ 256 ^ bytes.length * 256 := Nat.mul_le_mul_left _ hb

/-- Byte strings of one length are told apart by the numbers they spell. -/
theorem eq_of_toNat_eq {bytes others : Bytes} (hlength : bytes.length = others.length)
    (h : toNat bytes = toNat others) : bytes = others := by
  induction bytes generalizing others with
  | nil => exact (List.eq_nil_of_length_eq_zero hlength.symm).symm
  | cons b bytes ih =>
      cases others with
      | nil => simp at hlength
      | cons c others =>
          rw [List.length_cons, List.length_cons, Nat.add_right_cancel_iff] at hlength
          rw [toNat_cons, toNat_cons, ← hlength] at h
          have hpos : 0 < 256 ^ bytes.length := Nat.pow_pos (by decide)
          have hlow : toNat others < 256 ^ bytes.length := hlength ▸ toNat_lt others
          -- the first byte is the quotient, the others are the remainder
          have hquotient := congrArg (· / 256 ^ bytes.length) h
          simp only [Nat.mul_add_div hpos, Nat.div_eq_of_lt (toNat_lt bytes),
            Nat.div_eq_of_lt hlow, Nat.add_zero] at hquotient
          rw [hquotient, Nat.add_left_cancel_iff] at h
          rw [UInt8.toNat_inj.mp hquotient, ih hlength h]

theorem toNat_ofNat {width n : Nat} (h : n < 256 ^ width) : toNat (ofNat width n) = n := by
  induction width generalizing n with
  | zero =>
      obtain rfl : n = 0 := Nat.lt_one_iff.mp h
      rfl
  | succ width ih =>
      have hdiv : n / 256 < 256 ^ width := Nat.div_lt_of_lt_mul (by rwa [Nat.pow_succ'] at h)
      rw [ofNat, toNat_append, ih hdiv]
      change 256 ^ 1 * (n / 256) + (256 * 0 + (UInt8.ofNat n).toNat) = n
      rw [UInt8.toNat_ofNat', Nat.pow_one, Nat.mul_zero, Nat.zero_add]
      exact Nat.div_add_mod n 256

/-- A byte taken in below a word that has room for it. -/
theorem toNat_shift_or {w : UInt64} (h : w.toNat < 2 ^ 56) (b : UInt8) :
    ((w <<< 8) ||| b.toUInt64).toNat = 256 * w.toNat + b.toNat := by
  have hb : b.toNat < 2 ^ 8 := b.toNat_lt
  have hshift : (w <<< 8).toNat = w.toNat <<< 8 := by
    rw [UInt64.toNat_shiftLeft]
    apply Nat.mod_eq_of_lt
    rw [Nat.shiftLeft_eq]
    have h8 : UInt64.toNat 8 % 64 = 8 := rfl
    rw [h8]
    omega
  rw [UInt64.toNat_or, hshift, UInt8.toNat_toUInt64, ← Nat.shiftLeft_add_eq_or_of_lt hb,
    Nat.shiftLeft_eq]
  omega

/-- A word below `2 ^ (64 - 8 * n)` has room for `n` bytes more. -/
theorem toNat_foldl {bytes : Bytes} {w : UInt64} (hlength : bytes.length ≤ 8)
    (hroom : w.toNat < 2 ^ (64 - 8 * bytes.length)) :
    (bytes.foldl (fun (w : UInt64) b => (w <<< 8) ||| b.toUInt64) w).toNat =
      bytes.foldl (fun n b => 256 * n + b.toNat) w.toNat := by
  induction bytes generalizing w with
  | nil => rfl
  | cons b rest ih =>
      rw [List.length_cons] at hlength hroom
      have hb : b.toNat < 2 ^ 8 := b.toNat_lt
      have hpow : 2 ^ (64 - 8 * rest.length) = 256 * 2 ^ (64 - 8 * (rest.length + 1)) := by
        rw [show 64 - 8 * rest.length = 8 + (64 - 8 * (rest.length + 1)) by omega, Nat.pow_add]
      -- the room left for all the bytes is room for the first
      have hsmall : w.toNat < 2 ^ 56 :=
        Nat.lt_of_lt_of_le hroom (Nat.pow_le_pow_right Nat.two_pos (by omega))
      rw [List.foldl_cons, List.foldl_cons, ih (by omega), toNat_shift_or hsmall]
      rw [toNat_shift_or hsmall, hpow]
      omega

theorem toNat_toWord {bytes : Bytes} (h : bytes.length ≤ 8) :
    (toWord bytes).toNat = toNat bytes :=
  toNat_foldl h (Nat.two_pow_pos _)

theorem toNat_eight (a b c d e f g h : UInt8) : toNat [a, b, c, d, e, f, g, h] =
    256 * (256 * (256 * (256 * (256 * (256 * (256 * a.toNat + b.toNat) + c.toNat) + d.toNat) +
      e.toNat) + f.toNat) + g.toNat) + h.toNat := by
  rw [toNat]
  simp only [List.foldl_cons, List.foldl_nil, Nat.mul_zero, Nat.zero_add]

theorem toNat_byte (w : UInt64) {k : UInt64} {n : Nat} (h : k.toNat % 64 = n) :
    (w >>> k).toUInt8.toNat = w.toNat / 2 ^ n % 256 := by
  rw [UInt64.toNat_toUInt8, UInt64.toNat_shiftRight, h, Nat.shiftRight_eq_div_pow]

theorem toNat_ofWord (w : UInt64) : toNat (ofWord w) = w.toNat := by
  have hw : w.toNat / 2 ^ 56 < 256 := Nat.div_lt_of_lt_mul w.toNat_lt
  -- a byte taken in below the number that the higher bytes spell
  have hstep {k n : Nat} (h : n + 8 = k) :
      256 * (w.toNat / 2 ^ k) + w.toNat / 2 ^ n % 256 = w.toNat / 2 ^ n := by
    rw [← h, Nat.pow_add, ← Nat.div_div_eq_div_mul]
    exact Nat.div_add_mod _ 256
  rw [ofWord, toNat_eight, toNat_byte w (n := 56) rfl, toNat_byte w (n := 48) rfl,
    toNat_byte w (n := 40) rfl, toNat_byte w (n := 32) rfl, toNat_byte w (n := 24) rfl,
    toNat_byte w (n := 16) rfl, toNat_byte w (n := 8) rfl, UInt64.toNat_toUInt8]
  rw [Nat.mod_eq_of_lt hw, hstep rfl, hstep rfl, hstep rfl, hstep rfl, hstep rfl, hstep rfl]
  exact Nat.div_add_mod w.toNat 256

theorem toWord_ofWord (w : UInt64) : toWord (ofWord w) = w := by
  apply UInt64.toNat_inj.mp
  rw [toNat_toWord (by simp [length_ofWord]), toNat_ofWord]

theorem ofWord_toWord {bytes : Bytes} (h : bytes.length = 8) : ofWord (toWord bytes) = bytes := by
  apply eq_of_toNat_eq
  · rw [length_ofWord, h]
  · rw [toNat_ofWord, toNat_toWord (Nat.le_of_eq h)]

theorem ofWord_injective : Function.Injective ofWord :=
  Function.LeftInverse.injective toWord_ofWord

theorem flatMap_cons_ne_nil {α : Type} {f : α → Bytes} {width : Nat} (hwidth : 0 < width)
    (hlength : ∀ a, (f a).length = width) (a : α) (as : List α) : (a :: as).flatMap f ≠ [] := by
  intro h
  have hlen := congrArg List.length h
  rw [List.flatMap_cons, List.length_append, hlength, List.length_nil] at hlen
  omega

/-- Pieces of one length can be told apart after they are joined. -/
theorem flatMap_injective {α : Type} {f : α → Bytes} {width : Nat} (hwidth : 0 < width)
    (hlength : ∀ a, (f a).length = width) (hf : Function.Injective f) :
    Function.Injective (List.flatMap f) := by
  intro as
  induction as with
  | nil =>
      intro bs h
      cases bs with
      | nil => rfl
      | cons b bs => exact absurd h.symm (flatMap_cons_ne_nil hwidth hlength b bs)
  | cons a as ih =>
      intro bs h
      cases bs with
      | nil => exact absurd h (flatMap_cons_ne_nil hwidth hlength a as)
      | cons b bs =>
          rw [List.flatMap_cons, List.flatMap_cons] at h
          obtain ⟨hhead, htail⟩ := List.append_inj h (by rw [hlength, hlength])
          rw [hf hhead, ih htail]

end Bytes

namespace UInt256

theorem ofBytes_toBytes (a : UInt256) : ofBytes a.toBytes = a := by
  have take (w : UInt64) (rest : Bytes) : (Bytes.ofWord w ++ rest).take 8 = Bytes.ofWord w :=
    List.take_left' (Bytes.length_ofWord w)
  have drop (w : UInt64) (rest : Bytes) : (Bytes.ofWord w ++ rest).drop 8 = rest :=
    List.drop_left' (Bytes.length_ofWord w)
  have h3 : a.toBytes.take 8 = Bytes.ofWord a.w3 := by
    simp only [toBytes, List.append_assoc, take]
  have h2 : (a.toBytes.drop 8).take 8 = Bytes.ofWord a.w2 := by
    simp only [toBytes, List.append_assoc, drop, take]
  have h1 : (a.toBytes.drop 16).take 8 = Bytes.ofWord a.w1 := by
    rw [show 16 = 8 + 8 by rfl, ← List.drop_drop]
    simp only [toBytes, List.append_assoc, drop, take]
  have h0 : (a.toBytes.drop 24).take 8 = Bytes.ofWord a.w0 := by
    rw [show 24 = 8 + (8 + 8) by rfl, ← List.drop_drop, ← List.drop_drop]
    simp only [toBytes, List.append_assoc, drop]
    exact List.take_of_length_le (Nat.le_of_eq (Bytes.length_ofWord a.w0))
  simp only [ofBytes, h0, h1, h2, h3, Bytes.toWord_ofWord]

theorem toBytes_ofBytes {bytes : Bytes} (h : bytes.length = 32) : (ofBytes bytes).toBytes = bytes := by
  have hword {k : Nat} (hk : k + 8 ≤ 32) :
      Bytes.ofWord (Bytes.toWord ((bytes.drop k).take 8)) = (bytes.drop k).take 8 := by
    apply Bytes.ofWord_toWord
    rw [List.length_take, List.length_drop, h]
    omega
  have hrest : (bytes.drop 24).take 8 = bytes.drop 24 := by
    apply List.take_of_length_le
    rw [List.length_drop, h]
  have hsplit (k : Nat) : (bytes.drop k).take 8 ++ bytes.drop (k + 8) = bytes.drop k := by
    rw [← List.drop_drop, List.take_append_drop]
  have hfirst := hword (k := 0) (by decide)
  rw [List.drop_zero] at hfirst
  simp only [toBytes, ofBytes, hfirst, hword (k := 8) (by decide), hword (k := 16) (by decide),
    hword (k := 24) (by decide), List.append_assoc]
  rw [hrest, hsplit 16, hsplit 8, List.take_append_drop]

theorem toNat_toBytes (a : UInt256) : Bytes.toNat a.toBytes = a.toNat := by
  simp only [toBytes, Bytes.toNat_append, Bytes.toNat_ofWord, Bytes.length_ofWord, toNat]
  ring

theorem toNat_ofBytes {bytes : Bytes} (h : bytes.length = 32) :
    (ofBytes bytes).toNat = Bytes.toNat bytes := by
  rw [← toNat_toBytes, toBytes_ofBytes h]

end UInt256
end StarkVerifier
