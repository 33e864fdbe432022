import StarkVerifier.Proofs.Fibonacci.Claim
import StarkVerifier.Proofs.Parameters
import StarkVerifier.Proofs.Transcript.Binding
import StarkVerifier.Proofs.Verifier.Verdicts

/-!
# Challenges depend on what was committed before

Two proofs of one statement draw the same challenges as long as they have written the same to the coin,
whatever they hold besides, and so they meet the same verdicts up to there. Main statement:
`challenges_of_commitments`.
-/

namespace StarkVerifier.Verifier

/-- The first challenges are drawn from the first roots. -/
theorem foldChallenges_take (k : Nat) (coin : Coin) (roots : List Digest) :
    (Transcript.foldChallenges coin roots).1.take k =
      (Transcript.foldChallenges coin (roots.take k)).1 := by
  induction roots generalizing k coin with
  | nil => simp [Transcript.foldChallenges]
  | cons root roots ih =>
      cases k with
      | zero => simp [Transcript.foldChallenges]
      | succ k => simp only [Transcript.foldChallenges, List.take_succ_cons, ih]

section

variable {cs : ConstraintSystem} {proof proof' : Proof} {p : Parameters} {coin : Coin}

/-- A challenge of the folds depends on no later root. -/
theorem foldChallenges_getElem?_congr
    (hoods : Transcript.oods p coin proof = Transcript.oods p coin proof') {k : Nat}
    (hroots : (proof.friLayers.map (·.root)).take (k + 1) =
      (proof'.friLayers.map (·.root)).take (k + 1)) :
    (friChallenges p coin proof).foldChallenges[k]? =
      (friChallenges p coin proof').foldChallenges[k]? := by
  have hprefix : (friChallenges p coin proof).foldChallenges.take (k + 1) =
      (friChallenges p coin proof').foldChallenges.take (k + 1) := by
    simp only [friChallenges, Transcript.fri, foldChallenges_take, hoods, hroots]
  have hread := congrArg (·[k]?) hprefix
  simpa using hread

theorem checkOods_congr (hinputs : proof.publicInputs = proof'.publicInputs)
    (hoods : Transcript.oods p coin proof = Transcript.oods p coin proof')
    (htraceOods : proof.traceOods = proof'.traceOods)
    (hconstraintOods : proof.constraintOods = proof'.constraintOods) :
    checkOods cs proof p coin = checkOods cs proof' p coin := by
  simp only [checkOods, claimedOods, hinputs, hoods, htraceOods, hconstraintOods]

/-- Once the set-up has passed, the verdict of a phase is that of the run. -/
theorem constraintMismatch_iff_of_setUp {d : EvalDomain} (h : setUp cs proof = .ok (p, coin, d)) :
    verify cs proof = .ok (.rejected .constraintMismatch) ↔
      checkOods cs proof p coin = .error (.rejection .constraintMismatch) := by
  rw [verify_eq_constraintMismatch_iff]
  simp [h]

theorem proofOfWork_iff_of_setUp {d : EvalDomain} (h : setUp cs proof = .ok (p, coin, d)) :
    verify cs proof = .ok (.rejected .proofOfWork) ↔ checkOods cs proof p coin = .ok () ∧
      drawQueries proof p coin d = .error (.rejection .proofOfWork) := by
  rw [verify_eq_proofOfWork_iff]
  simp [h]

end

/-- Every challenge, the queries and the first two verdicts depend on nothing that is written to the coin
after them and on nothing that is not written at all. -/
theorem challenges_of_commitments {cs : ConstraintSystem} {proof proof' : Proof} {p p' : Parameters}
    {coin coin' : Coin} {d d' : EvalDomain} (h : setUp cs proof = .ok (p, coin, d))
    (h' : setUp cs proof' = .ok (p', coin', d')) (hinputs : proof.publicInputs = proof'.publicInputs)
    (htraceRoot : proof.traceRoot = proof'.traceRoot) :
    let drawn := Transcript.oods p coin proof
    let drawn' := Transcript.oods p' coin' proof'
    let fri := friChallenges p coin proof
    let fri' := friChallenges p' coin' proof'
    drawn.constraintCoefficients = drawn'.constraintCoefficients ∧
      (proof.constraintRoot = proof'.constraintRoot → drawn.point = drawn'.point ∧
        (proof.traceOods = proof'.traceOods → proof.constraintOods = proof'.constraintOods →
          drawn.oodsCoefficients = drawn'.oodsCoefficients ∧
          (verify cs proof = .ok (.rejected .constraintMismatch) ↔
            verify cs proof' = .ok (.rejected .constraintMismatch)) ∧
          (∀ k < proof.friLayers.length, (proof.friLayers.map (·.root)).take (k + 1) =
              (proof'.friLayers.map (·.root)).take (k + 1) →
            ∃ challenge, fri.foldChallenges[k]? = some challenge ∧
              fri'.foldChallenges[k]? = some challenge) ∧
          (proof.friLayers.map (·.root) = proof'.friLayers.map (·.root) →
            proof.lastLayer = proof'.lastLayer → proof.powNonce = proof'.powNonce →
              (∃ queries after, fri.coin.readQueries p.queries d.logSize = .ok (queries, after) ∧
                fri'.coin.readQueries p'.queries d'.logSize = .ok (queries, after)) ∧
              fri.work.check proof.powNonce = fri'.work.check proof'.powNonce ∧
              (verify cs proof = .ok (.rejected .proofOfWork) ↔
                verify cs proof' = .ok (.rejected .proofOfWork))))) := by
  obtain ⟨rfl, rfl, rfl⟩ := setUp_unique hinputs h h'
  intro drawn drawn' fri fri'
  refine ⟨?_, fun hconstraintRoot => ⟨?_, fun htraceOods hconstraintOods => ?_⟩⟩
  · show (Transcript.constraintCoefficients p coin proof.traceRoot).1 =
      (Transcript.constraintCoefficients p coin proof'.traceRoot).1
    rw [htraceRoot]
  · show (Transcript.oodsPoint (Transcript.constraintCoefficients p coin proof.traceRoot).2
      proof.constraintRoot).1 = (Transcript.oodsPoint
        (Transcript.constraintCoefficients p coin proof'.traceRoot).2 proof'.constraintRoot).1
    rw [htraceRoot, hconstraintRoot]
  have hoods := oods_congr htraceRoot hconstraintRoot htraceOods hconstraintOods p coin
  have hcheck : checkOods cs proof p coin = checkOods cs proof' p coin :=
    checkOods_congr hinputs hoods htraceOods hconstraintOods
  refine ⟨congrArg OodsChallenges.oodsCoefficients hoods, ?_, fun k hk hroots => ?_,
    fun hroots hlast hnonce => ?_⟩
  · rw [constraintMismatch_iff_of_setUp h, constraintMismatch_iff_of_setUp h', hcheck]
  · have hlt : k < fri.foldChallenges.length := by rwa [length_friChallenges]
    refine ⟨fri.foldChallenges[k], List.getElem?_eq_getElem hlt, ?_⟩
    rw [← foldChallenges_getElem?_congr hoods hroots]
    exact List.getElem?_eq_getElem hlt
  · have hfri : fri = fri' := friChallenges_congr hoods hroots hlast hnonce
    obtain ⟨queries, after, hread⟩ := exists_queries h
    refine ⟨⟨queries, after, hread, hfri ▸ hread⟩, by rw [hfri, hnonce], ?_⟩
    have hdraw : drawQueries proof p coin d = drawQueries proof' p coin d := by
      rw [drawQueries, drawQueries, friChallenges_congr hoods hroots hlast hnonce, hnonce]
    rw [proofOfWork_iff_of_setUp h, proofOfWork_iff_of_setUp h', hcheck, hdraw]

/-- A trace of two rows, folded once. -/
def twoRows : FibonacciConfig := { blowup := 2, powBits := 0, queries := 1, friLayout := some [1] }

/-- The claim that the second term is one, with nothing opened. -/
def unopened : Proof :=
  ⟨(⟨1, 1⟩ : FibonacciClaim).toPublicInputs, .zero, .zero, [1, 1, 1, 1], [0], [⟨.zero, [], []⟩], [0], 0,
    [], [], [], []⟩

theorem setUp_twoRows (proof : Proof) (hinputs : proof.publicInputs = unopened.publicInputs)
    (hshapes : proof.checkShapes (Fibonacci.parameters twoRows 2) = .ok ()) :
    setUp (Fibonacci.program twoRows) proof = .ok (Fibonacci.parameters twoRows 2,
      .ofSeed unopened.publicInputs, (Fibonacci.parameters twoRows 2).domain) := by
  have hclaim := FibonacciClaim.ofPublicInputs_toPublicInputs ⟨1, 1⟩
  have hvalid : (Fibonacci.parameters twoRows 2).validate = .ok () := by rfl
  have hdomain := (Parameters.validate_eq_ok_iff.mp hvalid).evalDomain_eq
  rw [setUp_eq_ok_iff, hinputs]
  refine ⟨fun hnil => ?_, Fibonacci.start_eq_ok_iff.mpr ⟨⟨1, 1⟩, 2, hclaim, by rfl, rfl, rfl⟩, hvalid,
    hshapes, hdomain⟩
  have hempty : unopened.publicInputs = (⟨1, 1⟩ : FibonacciClaim).toPublicInputs := rfl
  rw [← hempty, hnil] at hclaim
  exact absurd hclaim (by simp [FibonacciClaim.ofPublicInputs])

/-- A proof that differs only in what it opens is refused for the same constraints and the same work. -/
theorem challenges_of_commitments_unopened :
    let opened : Proof := { unopened with
      friLayers := [⟨.zero, [4], [.zero]⟩], traceRows := [[1, 2]], traceDecommitment := [.zero] }
    ∃ p coin d, setUp (Fibonacci.program twoRows) unopened = .ok (p, coin, d) ∧
      setUp (Fibonacci.program twoRows) opened = .ok (p, coin, d) ∧
      (verify (Fibonacci.program twoRows) unopened = .ok (.rejected .constraintMismatch) ↔
        verify (Fibonacci.program twoRows) opened = .ok (.rejected .constraintMismatch)) ∧
      (verify (Fibonacci.program twoRows) unopened = .ok (.rejected .proofOfWork) ↔
        verify (Fibonacci.program twoRows) opened = .ok (.rejected .proofOfWork)) := by
  have hsetUp := setUp_twoRows unopened rfl (by rfl)
  have hsetUp' := setUp_twoRows { unopened with
    friLayers := [⟨.zero, [4], [.zero]⟩], traceRows := [[1, 2]], traceDecommitment := [.zero] } rfl (by rfl)
  obtain ⟨-, hrest⟩ := challenges_of_commitments hsetUp hsetUp' rfl rfl
  obtain ⟨-, hmismatch, -, hwork⟩ := (hrest rfl).2 rfl rfl
  exact ⟨_, _, _, hsetUp, hsetUp', hmismatch, (hwork rfl rfl rfl).2.2⟩

end StarkVerifier.Verifier
