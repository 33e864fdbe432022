import StarkVerifier.Proofs.Fri.Accounting
import StarkVerifier.Proofs.Verifier.Ranges

/-!
# Room for the cosets

Room for a whole coset is asked for before the values of a layer are looked at. No memory has room for
`2 ^ 58` elements, so a run that comes to a layer of such cosets aborts, whatever the proof supplies. Main
statements: `execute_eq_overflowed_iff` and `execute_eq_accepted_iff`.
-/

namespace StarkVerifier.Verifier

open Fri Stop

variable {cs : ConstraintSystem} {proof : Proof} {d : EvalDomain}

/-! ## Layers -/

/-- The checks pass as far as a layer that folds by 58 steps or more. -/
def ComesToWide (d : EvalDomain) (layers : List (FriLayer × Nat × Felt)) (number layerLength : Nat)
    (known : List (Nat × Felt)) : Prop :=
  ∃ passed layer step challenge others reached,
    layers = passed ++ (layer, step, challenge) :: others ∧ 58 ≤ step ∧
      checkLayers d passed number layerLength known = .ok reached

/-- Checks that pass on a list of layers pass on the first ones of it. -/
theorem exists_checkLayers_of_append {passed others : List (FriLayer × Nat × Felt)}
    {number layerLength : Nat} {known : List (Nat × Felt)} {last : List (Nat × Felt) × Nat}
    (h : checkLayers d (passed ++ others) number layerLength known = .ok last) :
    ∃ reached, checkLayers d passed number layerLength known = .ok reached := by
  induction passed generalizing number layerLength known with
  | nil => exact ⟨(known, layerLength), rfl⟩
  | cons l passed ih =>
      obtain ⟨layer, step, challenge⟩ := l
      obtain ⟨folded, hfolded, hothers⟩ := checkLayers_cons_eq_ok_iff.mp h
      obtain ⟨reached, hpassed⟩ := ih hothers
      exact ⟨reached, checkLayers_cons_eq_ok_iff.mpr ⟨folded, hfolded, hpassed⟩⟩

theorem not_comesToWide_nil {number layerLength : Nat} {known : List (Nat × Felt)} :
    ¬ComesToWide d [] number layerLength known := by
  rintro ⟨passed, layer, step, challenge, others, reached, hlayers, -⟩
  simp at hlayers

theorem comesToWide_cons_iff {layer : FriLayer} {step : Nat} {challenge : Felt}
    {rest : List (FriLayer × Nat × Felt)} {number layerLength : Nat} {known : List (Nat × Felt)} :
    ComesToWide d ((layer, step, challenge) :: rest) number layerLength known ↔
      58 ≤ step ∨ ∃ folded, checkLayer d number layerLength known layer step challenge = .ok folded ∧
        ComesToWide d rest (number + 1) (layerLength >>> step) folded := by
  constructor
  · rintro ⟨passed, wide, wideStep, wideChallenge, others, reached, hlayers, hwide, hpassed⟩
    cases passed with
    | nil =>
        obtain ⟨hhead, -⟩ := List.cons.inj hlayers
        obtain ⟨-, rfl, -⟩ : layer = wide ∧ step = wideStep ∧ challenge = wideChallenge := by
          simpa using hhead
        exact Or.inl hwide
    | cons _ passed =>
        obtain ⟨rfl, hrest⟩ := List.cons.inj hlayers
        obtain ⟨folded, hfolded, hpassed⟩ := checkLayers_cons_eq_ok_iff.mp hpassed
        exact Or.inr ⟨folded, hfolded, passed, wide, wideStep, wideChallenge, others, reached, hrest,
          hwide, hpassed⟩
  · rintro (hstep | ⟨folded, hfolded, passed, wide, wideStep, wideChallenge, others, reached, rfl, hwide,
      hpassed⟩)
    · exact ⟨[], layer, step, challenge, rest, (known, layerLength), rfl, hstep, rfl⟩
    · exact ⟨(layer, step, challenge) :: passed, wide, wideStep, wideChallenge, others, reached, rfl, hwide,
        checkLayers_cons_eq_ok_iff.mpr ⟨folded, hfolded, hpassed⟩⟩

/-- By induction on the layers. A layer is asked about while a place is known, so it has a coset to make
room for. -/
theorem layersOverflow_eq_true_iff {layers : List (FriLayer × Nat × Felt)} {number log : Nat}
    {known : List (Nat × Felt)} (hsum : (layers.map (·.2.1)).sum ≤ log)
    (hknown : PlacesWithin log (known.map (·.1))) :
    layersOverflow d layers number (2 ^ log) known = true ↔
      ComesToWide d layers number (2 ^ log) known := by
  induction layers generalizing number log known with
  | nil => exact iff_of_false Bool.false_ne_true not_comesToWide_nil
  | cons l layers ih =>
      obtain ⟨layer, step, challenge⟩ := l
      simp only [List.map_cons, List.sum_cons] at hsum
      have hne : known ≠ [] := fun hnil => hknown.ne_nil (by rw [hnil, List.map_nil])
      rw [comesToWide_cons_iff, layersOverflow]
      cases hgather : gather known step layer.values number with
      | overflowed =>
          exact iff_of_true rfl (Or.inl (gather_eq_overflowed_iff.mp hgather).2)
      | answered answer =>
          have hstep : ¬58 ≤ step := fun hstep => (gather_eq_answered_iff.mp hgather).1 ⟨hne, hstep⟩
          rw [or_iff_right hstep]
          cases hlayer : checkLayer d number (2 ^ log) known layer step challenge with
          | error _ => simp
          | ok folded =>
              have hplaces := placesWithin_of_checkLayer hknown (by omega) hlayer
              rw [two_pow_shiftRight (by omega)]
              simpa using ih (by omega) hplaces

/-! ## The whole run -/

theorem prepare_eq_ok_iff {s : FriStart} :
    prepare cs proof = .ok s ↔
      ∃ p coin d queries first, setUp cs proof = .ok (p, coin, d) ∧ checkOods cs proof p coin = .ok () ∧
        drawQueries proof p coin d = .ok queries ∧ RowsOpened proof p d queries ∧
          cs.evaluateAtQueries p queries proof.traceRows proof.constraintRows (claimedOods p coin proof)
            (Transcript.oods p coin proof).oodsCoefficients = .ok first ∧
            first.length = queries.length ∧ s = ⟨d, layers p coin proof, queries.zip first⟩ := by
  simp only [prepare_eq, bind_eq_ok_iff, Prod.exists, exists_unit_iff, orFault_eq_ok_iff,
    checkRowOpenings_eq_ok_iff, expectLength_eq_ok_iff, pure_eq_ok_iff]
  constructor
  · rintro ⟨p, coin, d, hsetUp, hoods, queries, hqueries, hrows, first, hfirst, hlength, rfl⟩
    exact ⟨p, coin, d, queries, first, hsetUp, hoods, hqueries, hrows, hfirst, hlength, rfl⟩
  · rintro ⟨p, coin, d, queries, first, hsetUp, hoods, hqueries, hrows, hfirst, hlength, rfl⟩
    exact ⟨p, coin, d, hsetUp, hoods, queries, hqueries, hrows, first, hfirst, hlength, rfl⟩

/-- A run whose checks pass as far as a layer that folds by 58 steps or more. -/
def ComesToWideLayer (cs : ConstraintSystem) (proof : Proof) : Prop :=
  ∃ s, prepare cs proof = .ok s ∧ ComesToWide s.domain s.layers 0 s.domain.size s.known

theorem overflows_eq_true_iff : overflows cs proof = true ↔ ComesToWideLayer cs proof := by
  rw [overflows, ComesToWideLayer]
  cases h : prepare cs proof with
  | error stop => simp
  | ok s =>
      obtain ⟨p, coin, d, queries, first, hsetUp, -, hqueries, -, -, hlength, rfl⟩ :=
        prepare_eq_ok_iff.mp h
      have hplaces : PlacesWithin d.logSize ((queries.zip first).map (·.1)) := by
        rw [List.map_fst_zip (Nat.le_of_eq hlength.symm)]
        exact placesWithin_of_drawQueries hsetUp hqueries
      simpa [EvalDomain.size] using layersOverflow_eq_true_iff (sum_steps_le_of_setUp hsetUp) hplaces

theorem execute_eq_overflowed_iff : execute cs proof = .overflowed ↔ ComesToWideLayer cs proof := by
  rw [← overflows_eq_true_iff, execute]
  cases overflows cs proof <;> simp

theorem execute_eq_answered_iff {answer : Except VerifierError Verdict} :
    execute cs proof = .answered answer ↔ ¬ComesToWideLayer cs proof ∧ verify cs proof = answer := by
  rw [← overflows_eq_true_iff, execute]
  cases overflows cs proof <;> simp

/-- All layers of an accepted proof are come to, so one of them is too wide as soon as the layout has a
step of 58 or more. -/
theorem comesToWideLayer_iff_of_acceptance (a : Acceptance cs proof) :
    ComesToWideLayer cs proof ↔ ∃ step ∈ a.p.friLayout, 58 ≤ step := by
  have hsetUp := a.setUp_eq
  obtain ⟨-, -, -, hshapes, -⟩ := setUp_eq_ok_iff.mp hsetUp
  obtain ⟨-, -, hcount, -⟩ := checkShapes_eq_ok_iff.mp hshapes
  have hprepare := prepare_eq_ok_iff.mpr ⟨a.p, a.coin, a.d, a.queries, a.fri.first, hsetUp, a.oods_eq,
    a.queries_eq, a.rows, a.fri.first_eq, a.fri.first_length, rfl⟩
  have hsteps : (layers a.p a.coin proof).map (·.2.1) = a.p.friLayout := map_step_layers hcount
  rw [← hsteps]
  constructor
  · rintro ⟨s, hs, passed, layer, step, challenge, others, reached, hlayers, hstep, -⟩
    rw [hprepare, Except.ok.injEq] at hs
    subst hs
    have hmem : (layer, step, challenge) ∈ passed ++ (layer, step, challenge) :: others := by simp
    rw [← hlayers] at hmem
    exact ⟨step, List.mem_map_of_mem hmem, hstep⟩
  · rintro ⟨_, hmem, hstep⟩
    obtain ⟨⟨layer, step, challenge⟩, hlayer, rfl⟩ := List.mem_map.mp hmem
    obtain ⟨passed, others, hlayers⟩ := List.append_of_mem hlayer
    obtain ⟨reached, hpassed⟩ := exists_checkLayers_of_append (hlayers ▸ a.fri.layers_eq)
    exact ⟨_, hprepare, passed, layer, step, challenge, others, reached, hlayers, hstep, hpassed⟩

/-- Of the proofs that pass all checks, the ones of narrow layouts are accepted. -/
theorem execute_eq_accepted_iff :
    execute cs proof = .answered (.ok .accepted) ↔
      verify cs proof = .ok .accepted ∧
        ∀ p coin, cs.start proof.publicInputs = .ok (p, coin) → ∀ step ∈ p.friLayout, step < 58 := by
  rw [execute_eq_answered_iff, and_comm, and_congr_right_iff]
  intro haccepted
  obtain ⟨a⟩ := verify_eq_accepted_iff.mp haccepted
  obtain ⟨-, hstart, -⟩ := setUp_eq_ok_iff.mp a.setUp_eq
  rw [comesToWideLayer_iff_of_acceptance a]
  constructor
  · intro hnarrow p coin hstart' step hmem
    rw [hstart, Except.ok.injEq, Prod.mk.injEq] at hstart'
    obtain ⟨rfl, -⟩ := hstart'
    exact not_le.mp fun hstep => hnarrow ⟨step, hmem, hstep⟩
  · rintro hnarrow ⟨step, hmem, hstep⟩
    exact (hnarrow a.p a.coin hstart step hmem).not_ge hstep

end StarkVerifier.Verifier
