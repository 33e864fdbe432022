import StarkVerifier.Proofs.Verifier.Phases

/-!
# Which phase rejects

Each reason of rejection belongs to one phase of a run, so that a verdict says how far the run has come.
Main statement: `verify_eq_rejected_iff`.
-/

namespace StarkVerifier

open Stop

variable {ε α : Type}

/-- The phase that rejects for a reason, the set-up being number zero. -/
def Rejection.phase : Rejection → Nat
  | constraintMismatch => 1
  | proofOfWork => 2
  | traceDecommitment => 3
  | constraintDecommitment => 3
  | friDecommitment _ => 4
  | lastLayer _ => 4

/-- A step that rejects only for the reasons of one phase. -/
def RejectsIn (phase : Nat) (x : Except Stop α) : Prop :=
  FailsWithin (Stop.Within (fun _ => True) (·.phase = phase)) x

theorem RejectsIn.phase_eq {phase : Nat} {x : Except Stop α} {reason : Rejection}
    (h : RejectsIn phase x) (hx : x = .error (.rejection reason)) : reason.phase = phase := h _ hx

/-- A part that only has errors rejects for no reason. -/
theorem orFault_rejectsIn {phase : Nat} (wrap : ε → VerifierError) (x : Except ε α) :
    RejectsIn phase (orFault wrap x) := by
  apply FailsWithin.orFault
  exact fun _ _ => trivial

theorem require_rejectsIn {phase : Nat} {reason : Rejection} (h : reason.phase = phase) (holds : Bool) :
    RejectsIn phase (require reason holds) := by
  apply FailsWithin.require
  exact h

namespace Verifier

variable (cs : ConstraintSystem) (proof : Proof) (p : Parameters) (coin : Coin) (d : EvalDomain)

theorem setUp_rejectsIn : RejectsIn 0 (setUp cs proof) := by
  unfold setUp
  split
  · exact .error trivial
  · refine .bind (orFault_rejectsIn _ _) fun started _ => ?_
    refine .bind (orFault_rejectsIn _ _) fun _ _ => .bind (orFault_rejectsIn _ _) fun _ _ => ?_
    exact .bind (orFault_rejectsIn _ _) fun d _ => .ok (started.1, started.2, d)

theorem checkOods_rejectsIn : RejectsIn 1 (checkOods cs proof p coin) :=
  FailsWithin.bind (orFault_rejectsIn _ _) fun _ _ => require_rejectsIn rfl _

theorem drawQueries_rejectsIn : RejectsIn 2 (drawQueries proof p coin d) :=
  FailsWithin.bind (orFault_rejectsIn _ _) fun drawn _ =>
    .bind (require_rejectsIn rfl _) fun _ _ => .ok drawn.1

theorem checkOpening_rejectsIn {reason : Rejection} (hreason : reason.phase = 3) (root : Digest)
    (queries : List Nat) (rows : List (List Felt)) (decommitment : List Digest) :
    RejectsIn 3 (checkOpening reason root d queries rows decommitment) :=
  FailsWithin.bind (orFault_rejectsIn _ _) fun _ _ => require_rejectsIn hreason _

theorem checkRowOpenings_rejectsIn (queries : List Nat) :
    RejectsIn 3 (checkRowOpenings proof p d queries) := by
  refine FailsWithin.bind (orFault_rejectsIn _ _) fun _ _ => ?_
  exact .bind (checkOpening_rejectsIn d rfl _ _ _ _) fun _ _ => checkOpening_rejectsIn d rfl _ _ _ _

theorem checkLayer_rejectsIn (number layerLength : Nat) (known : List (Nat × Felt)) (layer : FriLayer)
    (step : Nat) (challenge : Felt) :
    RejectsIn 4 (checkLayer d number layerLength known layer step challenge) := by
  refine FailsWithin.bind (orFault_rejectsIn _ _) fun _ _ => ?_
  refine .bind (orFault_rejectsIn _ _) fun _ _ => .bind (require_rejectsIn rfl _) fun _ _ => ?_
  exact orFault_rejectsIn _ _

theorem checkLayers_rejectsIn (layers : List (FriLayer × Nat × Felt)) (number layerLength : Nat)
    (known : List (Nat × Felt)) : RejectsIn 4 (checkLayers d layers number layerLength known) := by
  induction layers generalizing number layerLength known with
  | nil => exact .ok (known, layerLength)
  | cons l layers ih =>
      exact FailsWithin.bind (checkLayer_rejectsIn d _ _ _ _ _ _) fun _ _ => ih _ _ _

theorem checkLastLayer_rejectsIn (coefficients : List Felt) (layerLength : Nat)
    (folded : List (Nat × Felt)) : RejectsIn 4 (checkLastLayer d coefficients layerLength folded) := by
  unfold checkLastLayer
  split
  · exact .ok ()
  · exact .error rfl

theorem checkFri_rejectsIn (queries : List Nat) : RejectsIn 4 (checkFri cs proof p coin d queries) := by
  refine FailsWithin.bind (orFault_rejectsIn _ _) fun _ _ => .bind (orFault_rejectsIn _ _) fun _ _ => ?_
  exact .bind (checkLayers_rejectsIn d _ _ _ _) fun _ _ => checkLastLayer_rejectsIn d _ _ _

variable {cs proof}

theorem verify_eq_rejected {reason : Rejection} :
    verify cs proof = .ok (.rejected reason) ↔ run cs proof = .error (.rejection reason) := by
  unfold verify
  split <;> simp_all

/-- A rejection for a reason is the work of its phase, the phases before it having passed. -/
theorem verify_eq_rejected_iff {reason : Rejection} :
    verify cs proof = .ok (.rejected reason) ↔
      ∃ p coin d, setUp cs proof = .ok (p, coin, d) ∧
        (checkOods cs proof p coin = .error (.rejection reason) ∨
          checkOods cs proof p coin = .ok () ∧
            (drawQueries proof p coin d = .error (.rejection reason) ∨
              ∃ queries, drawQueries proof p coin d = .ok queries ∧
                (checkRowOpenings proof p d queries = .error (.rejection reason) ∨
                  checkRowOpenings proof p d queries = .ok () ∧
                    checkFri cs proof p coin d queries = .error (.rejection reason)))) := by
  have hsetUp : setUp cs proof ≠ .error (.rejection reason) := fun h =>
    absurd ((setUp_rejectsIn cs proof).phase_eq h) (by cases reason <;> simp [Rejection.phase])
  simp only [verify_eq_rejected, run_eq, bind_eq_error_iff, hsetUp, false_or, Prod.exists,
    exists_unit_iff]

/-- Only the constraints at the out-of-domain point can mismatch. -/
theorem verify_eq_constraintMismatch_iff :
    verify cs proof = .ok (.rejected .constraintMismatch) ↔
      ∃ p coin d, setUp cs proof = .ok (p, coin, d) ∧
        checkOods cs proof p coin = .error (.rejection .constraintMismatch) := by
  rw [verify_eq_rejected_iff]
  constructor
  · rintro ⟨p, coin, d, hsetUp, hoods | ⟨-, hqueries | ⟨queries, -, hrows | ⟨-, hfri⟩⟩⟩⟩
    · exact ⟨p, coin, d, hsetUp, hoods⟩
    · exact absurd ((drawQueries_rejectsIn proof p coin d).phase_eq hqueries) (by decide)
    · exact absurd ((checkRowOpenings_rejectsIn proof p d queries).phase_eq hrows) (by decide)
    · exact absurd ((checkFri_rejectsIn cs proof p coin d queries).phase_eq hfri) (by decide)
  · rintro ⟨p, coin, d, hsetUp, hoods⟩
    exact ⟨p, coin, d, hsetUp, Or.inl hoods⟩

/-- Only the draw of the queries judges the proof of work. -/
theorem verify_eq_proofOfWork_iff :
    verify cs proof = .ok (.rejected .proofOfWork) ↔
      ∃ p coin d, setUp cs proof = .ok (p, coin, d) ∧ checkOods cs proof p coin = .ok () ∧
        drawQueries proof p coin d = .error (.rejection .proofOfWork) := by
  rw [verify_eq_rejected_iff]
  constructor
  · rintro ⟨p, coin, d, hsetUp, hoods | ⟨hoods, hqueries | ⟨queries, -, hrows | ⟨-, hfri⟩⟩⟩⟩
    · exact absurd ((checkOods_rejectsIn cs proof p coin).phase_eq hoods) (by decide)
    · exact ⟨p, coin, d, hsetUp, hoods, hqueries⟩
    · exact absurd ((checkRowOpenings_rejectsIn proof p d queries).phase_eq hrows) (by decide)
    · exact absurd ((checkFri_rejectsIn cs proof p coin d queries).phase_eq hfri) (by decide)
  · rintro ⟨p, coin, d, hsetUp, hoods, hqueries⟩
    exact ⟨p, coin, d, hsetUp, Or.inr ⟨hoods, Or.inl hqueries⟩⟩

end Verifier
end StarkVerifier
