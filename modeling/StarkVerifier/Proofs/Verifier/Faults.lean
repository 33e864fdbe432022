import StarkVerifier.Proofs.Composition
import StarkVerifier.Proofs.Fri.Folding
import StarkVerifier.Proofs.Merkle.Pairs
import StarkVerifier.Proofs.Verifier.Ranges

/-!
# What a run ends with an error for

A run that is set up faults only where a list has the wrong length, where values of a layer are missing
or left over, and where a denominator vanishes. The queries are always drawn, every tree is asked for
ascending places within it, and every coset fits its layer: the errors of the coin, of the trees and of
the folds cannot come up. Main statement: `Verifier.verify_documented`.
-/

namespace StarkVerifier

open Stop

variable {α : Type} {zeroDivisor : Prop}

/-- The errors that a caller is told of. A division by zero needs a reason. -/
def VerifierError.Documented (zeroDivisor : Prop) : VerifierError → Prop
  | .emptyPublicInputs => True
  | .publicInputs _ => True
  | .parameters _ => True
  | .shapeMismatch .. => True
  | .missingFriValues _ => True
  | .unusedFriValues .. => True
  | .arithmetic error => error = .divisionByZero ∧ zeroDivisor
  | .invalidCoset .. => False
  | .merkle _ => False
  | .coin _ => False

/-- A step of a run that faults only in the documented ways, whatever it rejects. -/
def FaultsWithin (zeroDivisor : Prop) (x : Except Stop α) : Prop :=
  FailsWithin (Stop.Within (VerifierError.Documented zeroDivisor) fun _ => True) x

theorem expectLength_documented (what : String) (expected actual : Nat) :
    FailsWithin (VerifierError.Documented zeroDivisor) (expectLength what expected actual) := by
  unfold expectLength
  split
  · exact .ok ()
  · exact .error trivial

theorem inverse_documented {a : Felt} (h : a = 0 → zeroDivisor) :
    FailsWithin (VerifierError.Documented zeroDivisor) (a.inverse.mapError .arithmetic) := by
  by_cases ha : a = 0
  · rw [Felt.inverse, if_pos ha]
    exact .error ⟨rfl, h ha⟩
  · rw [Felt.inverse_eq_ok ha]
    exact .ok a⁻¹

/-! ## The composition -/

namespace Oods

theorem traceTerms_documented {x : Felt} {cells : List (TraceOffset × Felt × Felt × Felt)}
    (h : ∀ cell ∈ cells, x = cell.2.1 → zeroDivisor) (row : List Felt) :
    FailsWithin (VerifierError.Documented zeroDivisor) (traceTerms x row cells) := by
  induction cells with
  | nil => exact .ok 0
  | cons cell cells ih =>
      rw [List.forall_mem_cons] at h
      refine .bind (inverse_documented fun hzero => h.1 (sub_eq_zero.mp hzero)) fun _ _ => ?_
      exact .bind (ih h.2) fun _ _ => .ok _

/-- A denominator vanishes only if the query falls on a sample point. -/
theorem composeAt_documented {p : Parameters} {d : EvalDomain} {points : List Felt} {oods : Oods}
    {q : Nat} (hcells : ∀ point ∈ points, d.queryPoint q = point → zeroDivisor)
    (hpieces : d.queryPoint q = oods.point ^ p.constraintDegree → zeroDivisor)
    (coefficients traceRow constraintRow : List Felt) :
    FailsWithin (VerifierError.Documented zeroDivisor)
      (oods.composeAt p d points coefficients q traceRow constraintRow) := by
  refine .bind (expectLength_documented _ _ _) fun _ _ => ?_
  refine .bind (expectLength_documented _ _ _) fun _ _ => ?_
  refine .bind (traceTerms_documented (fun cell hcell => hcells cell.2.1 ?_) _) fun _ _ => ?_
  · exact (List.of_mem_zip (List.of_mem_zip hcell).2).1
  · exact .bind (inverse_documented fun hzero => hpieces (sub_eq_zero.mp hzero)) fun _ _ => .ok _

end Oods

theorem deepComposition_documented {p : Parameters} {d : EvalDomain} {w : Felt} {oods : Oods}
    {queries : List Nat} (hd : p.evalDomain = .ok d) (hw : p.traceGenerator = .ok w)
    (hcells : ∀ q ∈ queries, ∀ o ∈ p.traceLayout, d.queryPoint q = w ^ o.row * oods.point → zeroDivisor)
    (hpieces : ∀ q ∈ queries, d.queryPoint q = oods.point ^ p.constraintDegree → zeroDivisor)
    (traceRows constraintRows : List (List Felt)) (coefficients : List Felt) :
    FailsWithin (VerifierError.Documented zeroDivisor)
      (deepComposition p queries traceRows constraintRows oods coefficients) := by
  rw [deepComposition, hd, hw]
  refine .bind (expectLength_documented _ _ _) fun _ _ => ?_
  refine .bind (expectLength_documented _ _ _) fun _ _ => ?_
  refine .bind (expectLength_documented _ _ _) fun _ _ => ?_
  refine .bind (expectLength_documented _ _ _) fun _ _ => ?_
  refine .bind (expectLength_documented _ _ _) fun _ _ => ?_
  refine .mapM fun row hrow => ?_
  have hq : row.1 ∈ queries := (List.of_mem_zip hrow).1
  exact Oods.composeAt_documented (List.forall_mem_map.mpr (hcells row.1 hq)) (hpieces row.1 hq) _ _ _

/-! ## Parts of a run -/

namespace Proof

theorem checkShapes_documented (proof : Proof) (p : Parameters) :
    FailsWithin (VerifierError.Documented zeroDivisor) (proof.checkShapes p) := by
  refine .bind (expectLength_documented _ _ _) fun _ _ => ?_
  refine .bind (expectLength_documented _ _ _) fun _ _ => ?_
  exact .bind (expectLength_documented _ _ _) fun _ _ => expectLength_documented _ _ _

theorem checkRows_documented (proof : Proof) (p : Parameters) (queries : Nat) :
    FailsWithin (VerifierError.Documented zeroDivisor) (proof.checkRows p queries) := by
  refine .bind (expectLength_documented _ _ _) fun _ _ => ?_
  refine .bind (expectLength_documented _ _ _) fun _ _ => ?_
  exact .bind (.forM fun _ _ => expectLength_documented _ _ _) fun _ _ =>
    .forM fun _ _ => expectLength_documented _ _ _

end Proof

namespace Fri

theorem gatherCosets_documented (known : List (Nat × Felt)) (step : Nat) (supplied : List Felt)
    (layer : Nat) :
    FailsWithin (VerifierError.Documented zeroDivisor) (gatherCosets known step supplied layer) := by
  unfold gatherCosets
  split
  · exact .error trivial
  · exact .ok _
  · exact .error trivial

/-- A tree that is asked for places within it answers, whatever it is shown. -/
theorem PlacesWithin.exists_verify {log : Nat} {places : List Nat} {rows : List (List Felt)}
    (h : PlacesWithin log places) (hlog : log ≤ Merkle.maxDepth) (hlength : rows.length = places.length)
    (root : Digest) (decommitment : List Digest) :
    ∃ answer, Merkle.verify root log places rows decommitment = .ok answer :=
  Merkle.exists_verify h.ne_nil hlength.symm hlog h.lt (List.isChain_iff_pairwise.mpr h.ascending) root
    decommitment

/-- A coset of the right size within its layer folds. -/
theorem exists_apply {d : EvalDomain} {log step c : Nat} (hlog : log ≤ d.logSize) (hstep : step ≤ log)
    (hc : c < 2 ^ (log - step)) {values : List Felt} (hlength : values.length = 2 ^ step)
    (challenge : Felt) :
    ∃ value, LayerFold.apply ⟨challenge, 2 ^ step, 2 ^ log, d⟩ c values = .ok value := by
  have hfits : cosetFits d c values.length (2 ^ log) = true := by
    rw [hlength]
    exact cosetFits_two_pow hlog hstep hc
  rw [LayerFold.apply, if_pos hlength, foldCoset, if_pos hfits]
  exact ⟨_, rfl⟩

end Fri

namespace Verifier

open Fri

variable {cs : ConstraintSystem} {proof : Proof} {p : Parameters} {coin : Coin} {d : EvalDomain}

/-! ## Phases -/

theorem setUp_faultsWithin
    (hstart : FailsWithin (VerifierError.Documented zeroDivisor) (cs.start proof.publicInputs)) :
    FaultsWithin zeroDivisor (setUp cs proof) := by
  refine .guard (fun _ => trivial) fun _ => ?_
  refine .bind (.orFault hstart) fun started _ => ?_
  refine .bind (.orFault fun _ _ => trivial) fun _ hvalid => ?_
  refine .bind (.orFault (Proof.checkShapes_documented proof _)) fun _ _ => ?_
  -- valid parameters have a domain
  have hvalid := Parameters.validate_eq_ok_iff.mp (orFault_eq_ok_iff.mp hvalid)
  rw [hvalid.evalDomain_eq]
  exact .bind (.ok _) fun _ _ => .ok _

theorem drawQueries_faultsWithin (h : setUp cs proof = .ok (p, coin, d)) :
    FaultsWithin zeroDivisor (drawQueries proof p coin d) := by
  obtain ⟨queries, after, hread⟩ := exists_queries h
  rw [drawQueries, hread]
  exact .bind (.ok _) fun _ _ => .bind (.require trivial _) fun _ _ => .ok _

theorem checkOpening_faultsWithin {queries : List Nat} {rows : List (List Felt)} (hd : d.Valid)
    (hqueries : PlacesWithin d.logSize queries) (hlength : rows.length = queries.length)
    (reason : Rejection) (root : Digest) (decommitment : List Digest) :
    FaultsWithin zeroDivisor (checkOpening reason root d queries rows decommitment) := by
  obtain ⟨answer, hanswer⟩ := hqueries.exists_verify hd.logSize_le hlength root decommitment
  rw [checkOpening, hanswer]
  exact .bind (.ok _) fun _ _ => .require trivial _

theorem checkRowOpenings_faultsWithin {queries : List Nat} (hd : d.Valid)
    (hqueries : PlacesWithin d.logSize queries) :
    FaultsWithin zeroDivisor (checkRowOpenings proof p d queries) := by
  refine .bind (.orFault (Proof.checkRows_documented proof p _)) fun _ hrows => ?_
  obtain ⟨htrace, hconstraint, -⟩ := checkRows_eq_ok_iff.mp (orFault_eq_ok_iff.mp hrows)
  refine .bind (checkOpening_faultsWithin hd hqueries htrace _ _ _) fun _ _ => ?_
  exact checkOpening_faultsWithin hd hqueries hconstraint _ _ _

theorem checkLayer_faultsWithin {number log step : Nat} {known : List (Nat × Felt)} {layer : FriLayer}
    {challenge : Felt} (hd : d.Valid) (hlog : log ≤ d.logSize) (hstep : step ≤ log)
    (hknown : PlacesWithin log (known.map (·.1))) :
    FaultsWithin zeroDivisor (checkLayer d number (2 ^ log) known layer step challenge) := by
  refine .bind (.orFault (gatherCosets_documented known step _ number)) fun cosets hcosets => ?_
  have hcosets := orFault_eq_ok_iff.mp hcosets
  have hplaces : PlacesWithin (log - step) (cosets.map (·.1)) := by
    rw [map_fst_gatherCosets_eq_touched hknown.ascending hcosets]
    exact hknown.touched hstep
  -- the numbers of the cosets are what the tree is asked for, and each coset folds
  have hlength : (cosets.map (·.2)).length = (cosets.map (·.1)).length := by
    rw [List.length_map, List.length_map]
  have hdepth : log - step ≤ Merkle.maxDepth := (Nat.sub_le log step).trans (hlog.trans hd.logSize_le)
  obtain ⟨answer, hanswer⟩ := hplaces.exists_verify hdepth hlength layer.root layer.decommitment
  rw [Nat.log2_two_pow, hanswer]
  refine .bind (.ok _) fun _ _ => .bind (.require trivial _) fun _ _ => .orFault (.mapM fun c hc => ?_)
  obtain ⟨value, hvalue⟩ := exists_apply hlog hstep (hplaces.lt c.1 (List.mem_map_of_mem hc))
    (length_of_mem_gatherCosets hcosets c hc) challenge
  rw [hvalue]
  exact .bind (.ok _) fun _ _ => .ok _

/-- By induction on the layers, with the invariant that keeps their numbers in range. -/
theorem checkLayers_faultsWithin {layers : List (FriLayer × Nat × Felt)} {number log : Nat}
    {known : List (Nat × Felt)} (hd : d.Valid) (hlog : log ≤ d.logSize)
    (hsum : (layers.map (·.2.1)).sum ≤ log) (hknown : PlacesWithin log (known.map (·.1))) :
    FaultsWithin zeroDivisor (checkLayers d layers number (2 ^ log) known) := by
  induction layers generalizing number log known with
  | nil => exact .ok _
  | cons l layers ih =>
      obtain ⟨layer, step, challenge⟩ := l
      simp only [List.map_cons, List.sum_cons] at hsum
      have hstep : step ≤ log := by omega
      refine .bind (checkLayer_faultsWithin hd hlog hstep hknown) fun folded hfolded => ?_
      rw [two_pow_shiftRight hstep]
      exact ih (by omega) (by omega) (placesWithin_of_checkLayer hknown hstep hfolded)

theorem checkLastLayer_faultsWithin (coefficients : List Felt) (layerLength : Nat)
    (folded : List (Nat × Felt)) :
    FaultsWithin zeroDivisor (checkLastLayer d coefficients layerLength folded) := by
  unfold checkLastLayer
  split
  · exact .ok ()
  · exact .error trivial

theorem checkFri_faultsWithin {queries : List Nat} (h : setUp cs proof = .ok (p, coin, d))
    (hqueries : PlacesWithin d.logSize queries)
    (hevaluate : FailsWithin (VerifierError.Documented zeroDivisor)
      (cs.evaluateAtQueries p queries proof.traceRows proof.constraintRows (claimedOods p coin proof)
        (Transcript.oods p coin proof).oodsCoefficients)) :
    FaultsWithin zeroDivisor (checkFri cs proof p coin d queries) := by
  refine .bind (.orFault hevaluate) fun first _ => ?_
  refine .bind (.orFault (expectLength_documented _ _ _)) fun _ hfirst => ?_
  have hlength := expectLength_eq_ok_iff.mp (orFault_eq_ok_iff.mp hfirst)
  have hplaces : (queries.zip first).map (·.1) = queries := List.map_fst_zip (Nat.le_of_eq hlength.symm)
  refine .bind (checkLayers_faultsWithin (valid_of_setUp h).2 le_rfl (sum_steps_le_of_setUp h) ?_)
    fun _ _ => checkLastLayer_faultsWithin _ _ _
  rwa [hplaces]

/-! ## The whole run -/

/-- If the parts of the program fail in the documented ways, so does the verifier. -/
theorem verify_documented
    (hstart : FailsWithin (VerifierError.Documented zeroDivisor) (cs.start proof.publicInputs))
    (hcombine : ∀ p coin d, setUp cs proof = .ok (p, coin, d) →
      FailsWithin (VerifierError.Documented zeroDivisor) (cs.combine proof.publicInputs p
        (claimedOods p coin proof) (Transcript.oods p coin proof).constraintCoefficients))
    (hevaluate : ∀ p coin d queries, setUp cs proof = .ok (p, coin, d) →
      drawQueries proof p coin d = .ok queries →
        FailsWithin (VerifierError.Documented zeroDivisor) (cs.evaluateAtQueries p queries
          proof.traceRows proof.constraintRows (claimedOods p coin proof)
          (Transcript.oods p coin proof).oodsCoefficients)) :
    FailsWithin (VerifierError.Documented zeroDivisor) (verify cs proof) := by
  have hrun : FaultsWithin zeroDivisor (run cs proof) := by
    rw [run_eq]
    refine .bind (setUp_faultsWithin hstart) fun started hsetUp => ?_
    obtain ⟨p, coin, d⟩ := started
    refine .bind (.bind (.orFault (hcombine p coin d hsetUp)) fun _ _ => .require trivial _) fun _ _ => ?_
    refine .bind (drawQueries_faultsWithin hsetUp) fun queries hqueries => ?_
    have hplaces := placesWithin_of_drawQueries hsetUp hqueries
    refine .bind (checkRowOpenings_faultsWithin (valid_of_setUp hsetUp).2 hplaces) fun _ _ => ?_
    exact checkFri_faultsWithin hsetUp hplaces (hevaluate p coin d queries hsetUp hqueries)
  intro e he
  unfold verify at he
  split at he
  · simp at he
  · simp at he
  · next error hstop =>
      rw [← Except.error.inj he]
      exact hrun _ hstop

end Verifier
end StarkVerifier
