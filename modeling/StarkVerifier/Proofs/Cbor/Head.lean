import StarkVerifier.Cbor.Head
import StarkVerifier.Proofs.Bytes
import StarkVerifier.Proofs.Reader

/-!
# Heads read back

The shortest head of each kind is taken as the head of that kind with that number, whichever of its five
widths it has. Main statement: `takes_head`.
-/

namespace StarkVerifier

namespace Cbor

open Reader (Takes)

/-- The head that says this number. -/
def Major.toHead (major : Major) (n : Nat) : Head :=
  match major with
  | .unsigned => .unsigned n
  | .bytes => .bytes (some n)
  | .text => .text (some n)
  | .array => .array (some n)
  | .map => .map (some n)

theorem takes_byte (b : UInt8) : Takes Reader.byte [b] b := fun _ => rfl

theorem takes_argument_low {low : Nat} (h : low < 24) : Takes (argument low) [] (some low) := by
  unfold argument
  rw [if_pos h]
  exact .pure _

/-- The four widths of a number that does not fit the first byte. -/
theorem takes_argument {low width n : Nat} (h : n < 256 ^ width)
    (hwidth : (low, width) ∈ [(24, 1), (25, 2), (26, 4), (27, 8)]) :
    Takes (argument low) (Bytes.ofNat width n) (some n) := by
  have htake : Takes (Reader.take width) (Bytes.ofNat width n) (Bytes.ofNat width n) :=
    .take (Bytes.length_ofNat width n)
  have hmap := htake.map fun bytes => some (Bytes.toNat bytes)
  rw [Bytes.toNat_ofNat h] at hmap
  simp only [List.mem_cons, Prod.mk.injEq, List.not_mem_nil, or_false] at hwidth
  rcases hwidth with ⟨rfl, rfl⟩ | ⟨rfl, rfl⟩ | ⟨rfl, rfl⟩ | ⟨rfl, rfl⟩
  · exact hmap
  · exact hmap
  · exact hmap
  · exact hmap

/-- A first byte and the number behind it. -/
theorem takes_first {low n : Nat} {others : Bytes} (major : Major) (hlow : low < 32)
    (h : Takes (argument low) others (some n)) :
    Takes readHead (UInt8.ofNat (32 * major.code + low) :: others) (major.toHead n) := by
  have hcode : major.code ≤ 5 := by cases major <;> decide
  have hbyte : (UInt8.ofNat (32 * major.code + low)).toNat = 32 * major.code + low := by
    rw [UInt8.toNat_ofNat', Nat.mod_eq_of_lt (by omega)]
  refine (takes_byte _).bind ?_
  have hmod : (UInt8.ofNat (32 * major.code + low)).toNat % 32 = low := by omega
  have hdiv : (UInt8.ofNat (32 * major.code + low)).toNat / 32 = major.code := by omega
  simp only [hmod, hdiv]
  refine h.bind_nil ?_
  cases major with
  | unsigned => exact .pure _
  | bytes => exact .pure _
  | text => exact .pure _
  | array => exact .pure _
  | map => exact .pure _

theorem takes_head (major : Major) {n : Nat} (h : n < 2 ^ 64) :
    Takes readHead (head major n) (major.toHead n) := by
  unfold head
  split
  · next hn => exact takes_first major (by omega) (takes_argument_low hn)
  split
  · next hn => exact takes_first major (by decide) (takes_argument hn (by decide))
  split
  · next hn => exact takes_first major (by decide) (takes_argument hn (by decide))
  split
  · next hn => exact takes_first major (by decide) (takes_argument hn (by decide))
  · exact takes_first major (by decide) (takes_argument h (by decide))

/-- A head that is not to be passed over is taken as it stands. -/
theorem takes_headPast {pass : Head → Bool} {bytes : Bytes} {h : Head} (hread : Takes readHead bytes h)
    (hpass : pass h = false) : Takes (readHeadPast pass) bytes h := by
  intro rest
  change (readHead (bytes ++ rest)).bind _ = _
  rw [hread rest, Option.bind_some]
  simp only [hpass, Bool.false_eq_true, if_false]
  rfl

theorem takes_untagged (major : Major) {n : Nat} (h : n < 2 ^ 64) :
    Takes readUntagged (head major n) (major.toHead n) :=
  takes_headPast (takes_head major h) (by cases major <;> rfl)

theorem takes_unsigned {n : Nat} (h : n < 2 ^ 64) : Takes readUnsigned (head .unsigned n) n :=
  (takes_headPast (takes_head .unsigned h) rfl).bind_nil (.pure n)

theorem head_ne_nil (major : Major) (n : Nat) : head major n ≠ [] := by
  unfold head
  split
  · exact List.cons_ne_nil _ _
  split
  · exact List.cons_ne_nil _ _
  split
  · exact List.cons_ne_nil _ _
  split
  · exact List.cons_ne_nil _ _
  · exact List.cons_ne_nil _ _

end Cbor
end StarkVerifier
