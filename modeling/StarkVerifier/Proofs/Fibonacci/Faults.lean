import StarkVerifier.Proofs.Fibonacci.Claim
import StarkVerifier.Proofs.Fibonacci.Composition
import StarkVerifier.Proofs.ProofOfWork
import StarkVerifier.Proofs.Verifier.Faults
import StarkVerifier.Proofs.Verifier.Room

/-!
# Faults of the Fibonacci verifier

A run of the Fibonacci verifier ends with an error for malformed public inputs, bad parameters or a list
of the wrong length, or because a drawn point is the zero of a denominator, and its numbers stay within
words all the way. It does not end at all where it comes to a layer that no memory has room for, and a
short proof gets it there. Main statement: `faults_documented`.
-/

namespace StarkVerifier

variable {zeroDivisor : Prop}

namespace FibonacciClaim

theorem ofPublicInputs_documented (bytes : Bytes) :
    FailsWithin (VerifierError.Documented zeroDivisor) (ofPublicInputs bytes) := by
  unfold ofPublicInputs
  split
  · exact .error trivial
  split
  · exact .error trivial
  split
  · exact .error trivial
  split
  · exact .ok _
  · exact .error trivial

theorem traceLength_documented (claim : FibonacciClaim) :
    FailsWithin (VerifierError.Documented zeroDivisor) claim.traceLength := by
  simp only [traceLength]
  split
  · exact .ok _
  · exact .error trivial

end FibonacciClaim

namespace Fibonacci

open Verifier Fri

theorem start_documented (config : FibonacciConfig) (publicInputs : Bytes) :
    FailsWithin (VerifierError.Documented zeroDivisor) (start config publicInputs) := by
  refine .bind (FibonacciClaim.ofPublicInputs_documented _) fun claim _ => ?_
  exact .bind (FibonacciClaim.traceLength_documented claim) fun _ _ => .ok _

/-- Whatever a constraint is divided by, it vanishes on the trace domain only. -/
theorem combine_documented {p : Parameters} {w : Felt} {oods : Oods} (hgenerator : p.traceGenerator = .ok w)
    (hw : IsPrimitiveRoot w p.traceLength) (hz : oods.point ^ p.traceLength = 1 → zeroDivisor)
    (publicInputs : Bytes) (coefficients : List Felt) :
    FailsWithin (VerifierError.Documented zeroDivisor) (combine publicInputs p oods coefficients) := by
  refine .bind (FibonacciClaim.ofPublicInputs_documented _) fun claim _ => ?_
  split
  · rw [hgenerator]
    refine .bind (expectLength_documented _ _ _) fun _ _ => .bind (.ok w) fun omega homega => ?_
    obtain rfl : w = omega := Except.ok.inj homega
    refine .bind (inverse_documented fun hzero => hz (sub_eq_zero.mp hzero)) fun _ _ => ?_
    refine .bind (inverse_documented fun hzero => hz ?_) fun _ _ => ?_
    · rw [sub_eq_zero.mp hzero, one_pow]
    refine .bind (inverse_documented fun hzero => hz ?_) fun _ _ => .ok _
    rw [sub_eq_zero.mp hzero, pow_pow_eq_one hw]
  · exact .error trivial

/-- A point that a run divides by: the drawn point lies on the trace domain, or a drawn query falls on it
or on the point one row after it. -/
def DividesByZero (config : FibonacciConfig) (proof : Proof) : Prop :=
  ∃ p coin d w, setUp (program config) proof = .ok (p, coin, d) ∧ p.traceGenerator = .ok w ∧
    ((Transcript.oods p coin proof).point ^ p.traceLength = 1 ∨
      ∃ queries, drawQueries proof p coin d = .ok queries ∧ ∃ q ∈ queries,
        d.queryPoint q = (Transcript.oods p coin proof).point ∨
          d.queryPoint q = w * (Transcript.oods p coin proof).point)

variable {config : FibonacciConfig} {proof : Proof} {p : Parameters} {coin : Coin} {d : EvalDomain}

theorem exists_parameters_of_setUp (h : setUp (program config) proof = .ok (p, coin, d)) :
    ∃ n, p = parameters config n := by
  obtain ⟨-, hstart, -, -, -⟩ := setUp_eq_ok_iff.mp h
  simp only [program, start, bind_eq_ok_iff, pure_eq_ok_iff, Prod.mk.injEq] at hstart
  obtain ⟨claim, -, n, -, rfl, -⟩ := hstart
  exact ⟨n, rfl⟩

theorem evaluateAtQueries_documented {queries : List Nat}
    (h : setUp (program config) proof = .ok (p, coin, d))
    (hqueries : drawQueries proof p coin d = .ok queries) :
    FailsWithin (VerifierError.Documented (DividesByZero config proof))
      ((program config).evaluateAtQueries p queries proof.traceRows proof.constraintRows
        (claimedOods p coin proof) (Transcript.oods p coin proof).oodsCoefficients) := by
  have hgenerator := (valid_of_setUp h).1.traceGenerator_eq
  obtain ⟨-, -, -, -, hd⟩ := setUp_eq_ok_iff.mp h
  have hfalls {q : Nat} (hq : q ∈ queries) {row : Nat} (hrow : row = 0 ∨ row = 1)
      (hpoint : d.queryPoint q =
        (p.domain.generator ^ p.blowup) ^ row * (claimedOods p coin proof).point) :
      DividesByZero config proof := by
    refine ⟨p, coin, d, _, h, hgenerator, Or.inr ⟨queries, hqueries, q, hq, ?_⟩⟩
    rcases hrow with rfl | rfl
    · rw [pow_zero, one_mul] at hpoint
      exact Or.inl hpoint
    · rw [pow_one] at hpoint
      exact Or.inr hpoint
  obtain ⟨n, rfl⟩ := exists_parameters_of_setUp h
  refine deepComposition_documented hd hgenerator (fun q hq o ho hpoint => hfalls hq ?_ hpoint)
    (fun q hq hpoint => hfalls hq (Or.inl rfl) ?_) _ _ _
  · -- the cells of the layout are in the row itself or in the next
    simp only [parameters, List.mem_cons, List.not_mem_nil, or_false] at ho
    rcases ho with rfl | rfl | rfl | rfl
    · exact Or.inl rfl
    · exact Or.inr rfl
    · exact Or.inl rfl
    · exact Or.inr rfl
  · rw [pow_zero, one_mul, hpoint]
    exact pow_one _

/-! ## A short proof that comes to a wide layer -/

/-- One query, no work, and one layer that folds all of the trace. -/
def wideConfig : FibonacciConfig := ⟨2, 0, 1, some [58]⟩

/-- A claim about the second half of `2 ^ 58` rows. -/
def wideClaim : FibonacciClaim := ⟨1, 0x200000000000000⟩

/-- Every row of the trace. -/
def wideRow : List Felt := [.ofWord 16, 0]

/-- Every value of the constraints. -/
def wideValue : Felt := .ofNat 0x020abee21eef15c21bc31a406c2b8ac3afc5df94000000000000000000000000

/-- A digest by its number. -/
def digestOf (n : Nat) : Digest := ⟨Bytes.ofNat 32 n, Bytes.length_ofNat 32 n⟩

/-- The digest of every row, and of every value. -/
def wideLeaf : Digest := digestOf 0x020abee21eef15c21bc31a406c2b8ac3afc5df94000000000000000000000000

/-- The root of both tables. -/
def wideRoot : Digest := digestOf 0x62b6a7127f6e7f6d17e09833455b4503b26271db000000000000000000000000

/-- The values claimed at the drawn point satisfy the constraints, and one path opens every row. The layer
comes without a single value. -/
def wideProof : Proof where
  publicInputs := wideClaim.toPublicInputs
  traceRoot := wideRoot
  constraintRoot := wideRoot
  traceOods := [1, 0, 0, 1]
  constraintOods := [0]
  friLayers := [⟨.zero, [], []⟩]
  lastLayer := [0]
  powNonce := 0
  traceRows := [wideRow]
  traceDecommitment := (List.range 59).map (Merkle.uniformNode wideLeaf)
  constraintRows := [[wideValue]]
  constraintDecommitment := (List.range 59).map (Merkle.uniformNode wideLeaf)

theorem digest_wideRow : MerkleLeaf.digest wideRow = wideLeaf := by decide +kernel

theorem digest_wideValue : MerkleLeaf.digest [wideValue] = wideLeaf := by decide +kernel

/-- Evaluated in four stretches. -/
theorem uniformNode_wideLeaf : Merkle.uniformNode wideLeaf 59 = wideRoot := by
  have h15 : Merkle.uniformNode wideLeaf 15 =
      digestOf 0xf2e1a50dc37847f75ae736051d6ab63865ee6f7c000000000000000000000000 := by decide +kernel
  have h30 : Merkle.uniformNode
      (digestOf 0xf2e1a50dc37847f75ae736051d6ab63865ee6f7c000000000000000000000000) 15 =
        digestOf 0x6045800e5ce2ac93999062c2bde5ff584c4c8856000000000000000000000000 := by decide +kernel
  have h45 : Merkle.uniformNode
      (digestOf 0x6045800e5ce2ac93999062c2bde5ff584c4c8856000000000000000000000000) 15 =
        digestOf 0xc9627db5ed1b21852bfec0133f30fe3f709a92c4000000000000000000000000 := by decide +kernel
  have h59 : Merkle.uniformNode
      (digestOf 0xc9627db5ed1b21852bfec0133f30fe3f709a92c4000000000000000000000000) 14 = wideRoot := by
    decide +kernel
  rw [show 59 = 15 + 15 + 15 + 14 from rfl, Merkle.uniformNode_add, Merkle.uniformNode_add,
    Merkle.uniformNode_add, h15, h30, h45, h59]

def wideParameters : Parameters := parameters wideConfig (2 ^ 58)

def wideCoin : Coin := .ofSeed wideClaim.toPublicInputs

theorem wideParameters_valid : wideParameters.Valid :=
  Parameters.validate_eq_ok_iff.mp rfl

theorem setUp_wide :
    setUp (program wideConfig) wideProof = .ok (wideParameters, wideCoin, wideParameters.domain) := by
  have hlength : wideClaim.traceLength = .ok (2 ^ 58) := by decide +kernel
  have hbound : wideParameters.lastLayerDegreeBound = 1 :=
    wideParameters_valid.lastLayerDegreeBound_eq.trans (two_pow_shiftRight (Nat.le_refl 58))
  exact setUp_toPublicInputs rfl hlength wideParameters_valid
    (checkShapes_eq_ok_iff.mpr ⟨rfl, rfl, rfl, hbound.symm⟩)

theorem claimedOods_wide : claimedOods wideParameters wideCoin wideProof =
    ⟨(Transcript.oods wideParameters wideCoin wideProof).point, [1, 0, 0, 1], [0]⟩ := rfl

theorem point_wide_pow :
    (Transcript.oods wideParameters wideCoin wideProof).point ^ wideParameters.domain.size ≠ 1 ∧
      (Transcript.oods wideParameters wideCoin wideProof).point ^ wideParameters.domain.size ≠
        Felt.generator ^ wideParameters.domain.size := by
  rw [point_oods]
  decide +kernel

/-- The drawn point lies off the trace domain. -/
theorem point_wide_off :
    (Transcript.oods wideParameters wideCoin wideProof).point ^ wideParameters.traceLength ≠ 1 := by
  intro h
  apply point_wide_pow.1
  rw [EvalDomain.size, ← evalSize_of_setUp setUp_wide, Parameters.evalSize, pow_mul, h, one_pow]

theorem checkOods_wide : checkOods (program wideConfig) wideProof wideParameters wideCoin = .ok () :=
  checkOods_vanishing setUp_wide (FibonacciClaim.ofPublicInputs_toPublicInputs wideClaim) rfl rfl rfl
    point_wide_off

/-- The queries are a single one. -/
theorem exists_query_wide : ∃ q < wideParameters.domain.size,
    drawQueries wideProof wideParameters wideCoin wideParameters.domain = .ok [q] := by
  obtain ⟨queries, after, hread⟩ := exists_queries setUp_wide
  have hdraw : drawQueries wideProof wideParameters wideCoin wideParameters.domain = .ok queries :=
    drawQueries_eq_ok_iff.mpr ⟨⟨after, hread⟩, ProofOfWork.check_ofDigest_zero _ _⟩
  have hplaces := placesWithin_of_drawQueries setUp_wide hdraw
  obtain ⟨q, rfl⟩ : ∃ q, queries = [q] := by
    rw [← List.length_eq_one_iff]
    exact Nat.le_antisymm (Coin.length_le_of_readQueries hread)
      (List.length_pos_iff.mpr hplaces.ne_nil)
  exact ⟨q, hplaces.lt q List.mem_cons_self, hdraw⟩

theorem rowsOpened_wide {q : Nat} (hq : q < 2 ^ 59) :
    RowsOpened wideProof wideParameters wideParameters.domain [q] := by
  refine ⟨rfl, rfl, ?_, ?_, ?_, ?_⟩
  · simp [wideProof, wideRow, wideParameters, parameters]
  · simp [wideProof, wideParameters, parameters]
  · have hverify := Merkle.verify_uniform (by decide) hq wideRow
    rwa [digest_wideRow, uniformNode_wideLeaf] at hverify
  · have hverify := Merkle.verify_uniform (by decide) hq [wideValue]
    rwa [digest_wideValue, uniformNode_wideLeaf] at hverify

theorem exists_deepComposition_wide {q : Nat} (hq : q < wideParameters.domain.size) {z : Felt}
    (hz : z ^ wideParameters.domain.size ≠ Felt.generator ^ wideParameters.domain.size)
    {coefficients : List Felt} (hcount : coefficients.length = wideParameters.oodsCoefficientCount) :
    ∃ v, deepComposition wideParameters [q] [wideRow] [[wideValue]] ⟨z, [1, 0, 0, 1], [0]⟩ coefficients =
      .ok [v] := by
  have hcomposed := @exists_deepComposition wideParameters wideParameters.domain ⟨z, [1, 0, 0, 1], [0]⟩
    wideParameters_valid wideParameters_valid.evalDomain_eq rfl hz q hq
  refine hcomposed ?_ ?_ ?_ ?_ hcount
  all_goals rfl

theorem exists_first_wide {q : Nat} (hq : q < wideParameters.domain.size) :
    ∃ v, deepComposition wideParameters [q] [wideRow] [[wideValue]]
      (claimedOods wideParameters wideCoin wideProof)
      (Transcript.oods wideParameters wideCoin wideProof).oodsCoefficients = .ok [v] := by
  rw [claimedOods_wide]
  exact exists_deepComposition_wide hq point_wide_pow.2
    (length_oodsCoefficients wideParameters wideCoin wideProof)

/-- All checks before the layer pass. -/
theorem exists_prepare_wide : ∃ q v challenge, prepare (program wideConfig) wideProof =
    .ok ⟨wideParameters.domain, [(⟨.zero, [], []⟩, 58, challenge)], [(q, v)]⟩ := by
  obtain ⟨q, hq, hdraw⟩ := exists_query_wide
  obtain ⟨v, hfirst⟩ := exists_first_wide hq
  exact ⟨q, v, _, prepare_eq_ok_iff.mpr ⟨wideParameters, wideCoin, wideParameters.domain, [q], [v],
    setUp_wide, checkOods_wide, hdraw, rowsOpened_wide hq, hfirst, rfl, rfl⟩⟩

/-! ## The whole run -/

/-- What the verifier answers, it answers in the documented ways only, and no number on the way leaves its
word. It does not answer where the run comes to a layer that folds by 58 steps or more. -/
theorem faults_documented (config : FibonacciConfig) (proof : Proof) :
    (∀ e, execute (program config) proof = .answered (.error e) →
      e.Documented (DividesByZero config proof)) ∧
    RunInRange (program config) proof ∧
    (execute (program config) proof = .overflowed ↔ ComesToWideLayer (program config) proof) := by
  refine ⟨fun e he => ?_, runInRange (program config) proof, execute_eq_overflowed_iff⟩
  refine verify_documented (start_documented config _) (fun p coin d hsetUp => ?_)
    (fun p coin d queries hsetUp hqueries => evaluateAtQueries_documented hsetUp hqueries) e
    (execute_eq_answered_iff.mp he).2
  have hvalid := (valid_of_setUp hsetUp).1
  have hgenerator := hvalid.traceGenerator_eq
  exact combine_documented hgenerator (hvalid.isPrimitiveRoot_traceGenerator hgenerator)
    (fun hz => ⟨p, coin, d, _, hsetUp, hgenerator, Or.inl hz⟩) _ _

/-- With room for its layer the proof would be told that values are missing. -/
theorem faults_documented_wide_layer :
    execute (program wideConfig) wideProof = .overflowed ∧
      verify (program wideConfig) wideProof = .error (.missingFriValues 0) := by
  obtain ⟨q, v, challenge, hprepare⟩ := exists_prepare_wide
  constructor
  · rw [execute_eq_overflowed_iff]
    exact ⟨_, hprepare, [], _, 58, _, [], _, rfl, Nat.le_refl 58, rfl⟩
  · have hgather := gatherCosets_single (show 58 ≠ 0 by decide) q v 0
    have hrun : run (program wideConfig) wideProof = .error (.fault (.missingFriValues 0)) := by
      rw [run, hprepare, ok_bind, FriStart.check, checkLayers, checkLayer, hgather]
      rfl
    rw [verify, hrun]

end Fibonacci
end StarkVerifier
