import Mathlib.Data.List.Forall2
import StarkVerifier.Verifier.Basic

/-!
# Chains of checks

When a chain of steps that may fail succeeds, each step has succeeded, with the values it passes on. When
it fails, one of its steps has failed, so that it fails with the errors of its steps only.
-/

namespace StarkVerifier

variable {ε α β : Type}

theorem bind_eq_ok_iff {x : Except ε α} {f : α → Except ε β} {b : β} :
    x >>= f = .ok b ↔ ∃ a, x = .ok a ∧ f a = .ok b := by
  cases x with
  | error e => simp [bind, Except.bind]
  | ok a => simp [bind, Except.bind]

theorem exists_unit_iff {P : Unit → Prop} : (∃ u, P u) ↔ P () :=
  ⟨fun ⟨_, h⟩ => h, fun h => ⟨(), h⟩⟩

theorem pure_eq_ok_iff {a b : α} : (pure a : Except ε α) = .ok b ↔ a = b := by
  simp [pure, Except.pure]

theorem mapError_eq_ok_iff {ε' : Type} {x : Except ε α} {wrap : ε → ε'} {a : α} :
    x.mapError wrap = .ok a ↔ x = .ok a := by
  cases x <;> simp [Except.mapError]

theorem mapError_bind {ε' : Type} (x : Except ε α) (f : α → Except ε β) (wrap : ε → ε') :
    (x >>= f).mapError wrap = x.mapError wrap >>= fun a => (f a).mapError wrap := by
  cases x <;> rfl

theorem toOption_eq_some_iff {x : Except ε α} {a : α} : x.toOption = some a ↔ x = .ok a := by
  cases x <;> simp [Except.toOption]

/-- A guard that throws before the rest of a chain. -/
theorem guard_eq_ok_iff {c : Prop} [Decidable c] {e : ε} {skipped : PUnit → Except ε β}
    {next : Except ε β} {b : β} :
    (if c then throw e >>= skipped else next) = .ok b ↔ ¬c ∧ next = .ok b := by
  by_cases h : c
  · simp [h, throw, throwThe, MonadExceptOf.throw, bind, Except.bind]
  · simp [h]

theorem ok_bind (a : α) (f : α → Except ε β) : (.ok a : Except ε α) >>= f = f a := rfl

/-- What comes after a step counts only where the step leads. -/
theorem bind_congr_ok {x : Except ε α} {f g : α → Except ε β} (h : ∀ a, x = .ok a → f a = g a) :
    x >>= f = x >>= g := by
  cases x with
  | error e => rfl
  | ok a => exact h a rfl

/-- A check that fails when something holds. -/
def refuseIf (c : Prop) [Decidable c] (e : ε) : Except ε Unit := if c then .error e else .ok ()

theorem refuseIf_eq_ok_iff {c : Prop} [Decidable c] {e : ε} {u : Unit} :
    refuseIf c e = .ok u ↔ ¬c := by
  unfold refuseIf
  split <;> simp_all

theorem mapError_guard {ε' : Type} {c : Prop} [Decidable c] {e : ε} {skipped : PUnit → Except ε β}
    {next : Except ε β} (wrap : ε → ε') :
    (if c then throw e >>= skipped else next).mapError wrap =
      refuseIf c (wrap e) >>= fun _ => next.mapError wrap := by
  unfold refuseIf
  split <;> rfl

namespace Stop

theorem orFault_eq_ok_iff {wrap : ε → VerifierError} {x : Except ε α} {a : α} :
    orFault wrap x = .ok a ↔ x = .ok a := mapError_eq_ok_iff

theorem require_eq_ok_iff {reason : Rejection} {holds : Bool} {u : Unit} :
    require reason holds = .ok u ↔ holds = true := by
  cases holds <;> simp [require]

end Stop

theorem expectLength_eq_ok_iff {what : String} {expected actual : Nat} {u : Unit} :
    expectLength what expected actual = .ok u ↔ actual = expected := by
  unfold expectLength
  split <;> simp_all [eq_comm]

theorem zip_map_self (as : List α) (f : α → β) : as.zip (as.map f) = as.map fun a => (a, f a) := by
  have h := List.zip_map' (f := id) (g := f) (l := as)
  rwa [List.map_id] at h

/-- A list of steps succeeds with the list of their results. -/
theorem mapM_eq_ok_iff {γ : Type} {f : α → Except ε γ} {as : List α} {cs : List γ} :
    as.mapM f = .ok cs ↔ List.Forall₂ (fun a c => f a = .ok c) as cs := by
  induction as generalizing cs with
  | nil =>
      simp [pure, Except.pure, eq_comm]
  | cons a as ih =>
      rw [List.mapM_cons, bind_eq_ok_iff]
      constructor
      · rintro ⟨c, hc, h⟩
        obtain ⟨cs', hcs', h'⟩ := bind_eq_ok_iff.mp h
        obtain rfl := pure_eq_ok_iff.mp h'
        exact .cons hc (ih.mp hcs')
      · rintro (_ | ⟨hc, hcs⟩)
        exact ⟨_, hc, bind_eq_ok_iff.mpr ⟨_, ih.mpr hcs, rfl⟩⟩

theorem forM_eq_ok_iff {f : α → Except ε PUnit} {as : List α} :
    as.forM f = .ok () ↔ ∀ a ∈ as, f a = .ok () := by
  induction as with
  | nil => simp [pure, Except.pure]
  | cons a as ih =>
      have hcons : (a :: as).forM f = f a >>= fun _ => as.forM f := rfl
      rw [hcons, bind_eq_ok_iff, exists_unit_iff, ih, List.forall_mem_cons]

/-! ## What a chain fails with -/

theorem bind_eq_error_iff {x : Except ε α} {f : α → Except ε β} {e : ε} :
    x >>= f = .error e ↔ x = .error e ∨ ∃ a, x = .ok a ∧ f a = .error e := by
  cases x with
  | error e' => simp [bind, Except.bind]
  | ok a => simp [bind, Except.bind]

/-- Every error of a step is of a certain kind. -/
def FailsWithin (P : ε → Prop) (x : Except ε α) : Prop := ∀ e, x = .error e → P e

namespace FailsWithin

variable {P : ε → Prop} {x : Except ε α} {f : α → Except ε β}

theorem ok (a : α) : FailsWithin P (.ok a) := by
  intro e he
  simp at he

theorem error {e : ε} (h : P e) : FailsWithin P (.error e : Except ε α) := by
  intro e' he
  rwa [← Except.error.inj he]

theorem bind (hx : FailsWithin P x) (hf : ∀ a, x = .ok a → FailsWithin P (f a)) :
    FailsWithin P (x >>= f) := by
  intro e he
  rcases bind_eq_error_iff.mp he with hfirst | ⟨a, ha, hrest⟩
  · exact hx e hfirst
  · exact hf a ha e hrest

theorem mapError {ε' : Type} {P : ε' → Prop} {wrap : ε → ε'} (h : FailsWithin (fun e => P (wrap e)) x) :
    FailsWithin P (x.mapError wrap) := by
  cases x with
  | error e => exact error (h e rfl)
  | ok a => exact ok a

theorem guard {c : Prop} [Decidable c] {e : ε} {skipped : PUnit → Except ε β} {next : Except ε β}
    (he : c → P e) (hnext : ¬c → FailsWithin P next) :
    FailsWithin P (if c then throw e >>= skipped else next) := by
  by_cases h : c
  · rw [if_pos h]
    exact error (he h)
  · rw [if_neg h]
    exact hnext h

theorem mapM {as : List α} (h : ∀ a ∈ as, FailsWithin P (f a)) : FailsWithin P (as.mapM f) := by
  induction as with
  | nil => exact ok []
  | cons a as ih =>
      rw [List.forall_mem_cons] at h
      rw [List.mapM_cons]
      exact bind h.1 fun b _ => bind (ih h.2) fun bs _ => ok (b :: bs)

theorem forM {f : α → Except ε PUnit} {as : List α} (h : ∀ a ∈ as, FailsWithin P (f a)) :
    FailsWithin P (as.forM f) := by
  induction as with
  | nil => exact ok PUnit.unit
  | cons a as ih =>
      rw [List.forall_mem_cons] at h
      exact bind h.1 fun _ _ => ih h.2

end FailsWithin

/-- A run stops with a fault of one kind or a rejection of another. -/
def Stop.Within (F : VerifierError → Prop) (R : Rejection → Prop) : Stop → Prop
  | .fault error => F error
  | .rejection reason => R reason

namespace FailsWithin

variable {F : VerifierError → Prop} {R : Rejection → Prop}

theorem orFault {wrap : ε → VerifierError} {x : Except ε α}
    (h : FailsWithin (fun e => F (wrap e)) x) :
    FailsWithin (Stop.Within F R) (Stop.orFault wrap x) :=
  mapError h

theorem require {reason : Rejection} (h : R reason) (holds : Bool) :
    FailsWithin (Stop.Within F R) (Stop.require reason holds) := by
  cases holds with
  | true => exact ok ()
  | false => exact error h

end FailsWithin

end StarkVerifier
