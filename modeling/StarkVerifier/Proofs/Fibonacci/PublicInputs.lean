import StarkVerifier.Proofs.Fibonacci.Claim
import StarkVerifier.Proofs.Transcript.Binding

/-!
# One spelling for each claim

Public inputs are 64 bytes that spell two numbers, the value below the modulus and the index below
`2 ^ 64`. Whatever is read as a claim is what is written for it, so no choice of public inputs gives the
same claim another seed. Main statement: `publicInputs_spell_claims`.
-/

namespace StarkVerifier

theorem Bytes.toNat_replicate_zero (n : Nat) : Bytes.toNat (List.replicate n 0) = 0 := by
  induction n with
  | zero => rfl
  | succ n ih =>
      rw [List.replicate_succ, toNat_cons, ih]
      rfl

namespace FibonacciClaim

theorem toNat_toPublicInputs (c : FibonacciClaim) :
    Bytes.toNat c.toPublicInputs = 2 ^ 256 * c.value.toNat + c.index.toNat := by
  rw [toPublicInputs, Bytes.toNat_append, Bytes.toNat_append, Bytes.toNat_replicate_zero,
    Felt.toNat_toBytes, Bytes.toNat_ofWord, List.length_replicate, Bytes.length_ofWord]
  ring

/-- The three pieces that are read: the value, the high bytes of the index and its low ones. -/
theorem pieces_append (bytes : Bytes) :
    bytes.take 32 ++ (bytes.drop 32).take 24 ++ bytes.drop 56 = bytes := by
  rw [show 56 = 32 + 24 by rfl, ← List.drop_drop, List.append_assoc, List.take_append_drop,
    List.take_append_drop]

theorem eq_toPublicInputs_of_ofPublicInputs {bytes : Bytes} {c : FibonacciClaim}
    (h : ofPublicInputs bytes = .ok c) : bytes = c.toPublicInputs := by
  unfold ofPublicInputs at h
  split at h
  · simp at h
  split at h
  · simp at h
  next hlength =>
  rw [not_not] at hlength
  have hhigh : ((bytes.drop 32).take 24).length = 24 := by
    rw [List.length_take, List.length_drop, hlength]
    rfl
  have hlow : (bytes.drop 56).length = 8 := by rw [List.length_drop, hlength]
  split at h
  · simp at h
  next value hvalue =>
  split at h
  · next hzeros =>
      obtain rfl := Except.ok.inj h
      have hreplicate : (bytes.drop 32).take 24 = List.replicate 24 0 :=
        List.eq_replicate_iff.mpr ⟨hhigh, by simpa using hzeros⟩
      rw [toPublicInputs, ← Felt.ofBytes_eq_ok_iff.mp hvalue, ← hreplicate, Bytes.ofWord_toWord hlow,
        pieces_append]
  · simp at h

theorem ofPublicInputs_eq_ok_iff {bytes : Bytes} {c : FibonacciClaim} :
    ofPublicInputs bytes = .ok c ↔ bytes = c.toPublicInputs := by
  constructor
  · exact eq_toPublicInputs_of_ofPublicInputs
  · rintro rfl
    exact ofPublicInputs_toPublicInputs c

theorem ofPublicInputs_eq_error_iff {bytes : Bytes} :
    (∃ e, ofPublicInputs bytes = .error e) ↔ ∀ c : FibonacciClaim, bytes ≠ c.toPublicInputs := by
  simp only [ne_eq, ← ofPublicInputs_eq_ok_iff]
  cases ofPublicInputs bytes <;> simp

theorem toPublicInputs_injective : Function.Injective toPublicInputs := by
  intro c d h
  have hok := ofPublicInputs_toPublicInputs c
  rw [h, ofPublicInputs_toPublicInputs d] at hok
  exact (Except.ok.inj hok).symm

end FibonacciClaim

namespace Fibonacci

open FibonacciClaim

/-- A claim is read from its own spelling and from no other byte string, of whatever length. Claims that
differ have spellings that differ, and the spelling is what seeds the coin of a run. -/
theorem publicInputs_spell_claims :
    (∀ (bytes : Bytes) (c : FibonacciClaim), ofPublicInputs bytes = .ok c ↔ bytes = c.toPublicInputs) ∧
    (∀ c : FibonacciClaim, ofPublicInputs c.toPublicInputs = .ok c) ∧
    (∀ bytes : Bytes, (∃ e, ofPublicInputs bytes = .error e) ↔
      ∀ c : FibonacciClaim, bytes ≠ c.toPublicInputs) ∧
    (∀ c : FibonacciClaim, c.toPublicInputs.length = 64 ∧
      Bytes.toNat c.toPublicInputs = 2 ^ 256 * c.value.toNat + c.index.toNat) ∧
    Function.Injective toPublicInputs ∧
    ∀ (config : FibonacciConfig) (bytes : Bytes) (p : Parameters) (coin : Coin),
      (program config).start bytes = .ok (p, coin) ↔
        ∃ (c : FibonacciClaim) (n : Nat), bytes = c.toPublicInputs ∧ c.traceLength = .ok n ∧
          p = parameters config n ∧ coin = .ofSeed c.toPublicInputs := by
  refine ⟨fun bytes c => ofPublicInputs_eq_ok_iff, ofPublicInputs_toPublicInputs,
    fun bytes => ofPublicInputs_eq_error_iff, fun c => ⟨c.length_toPublicInputs, c.toNat_toPublicInputs⟩,
    toPublicInputs_injective, fun config bytes p coin => ?_⟩
  have hstart : (program config).start bytes = .ok (p, coin) ↔ _ := start_eq_ok_iff
  rw [hstart]
  refine exists_congr fun c => exists_congr fun n => ?_
  rw [ofPublicInputs_eq_ok_iff]
  exact and_congr_right fun hbytes => by rw [hbytes]

end Fibonacci
end StarkVerifier
