import StarkVerifier.Proofs.Coin.Reads
import StarkVerifier.Proofs.Parameters
import StarkVerifier.Proofs.Result
import StarkVerifier.Verifier.Basic

/-!
# Phases of a run

A run of the verifier as a chain of phases, and an accepted run as the record of the values that its
phases pass on.
-/

namespace StarkVerifier

open Stop

namespace Verifier

/-- Parameters, seeded coin and domain, before anything of the proof is written to the coin. -/
def setUp (cs : ConstraintSystem) (proof : Proof) : Except Stop (Parameters × Coin × EvalDomain) := do
  if proof.publicInputs.isEmpty then throw (.fault .emptyPublicInputs)
  let (p, coin) ← orFault id (cs.start proof.publicInputs)
  orFault .parameters p.validate
  orFault id (proof.checkShapes p)
  let d ← orFault .arithmetic p.evalDomain
  return (p, coin, d)

/-- What the proof claims at the out-of-domain point. -/
def claimedOods (p : Parameters) (coin : Coin) (proof : Proof) : Oods :=
  ⟨(Transcript.oods p coin proof).point, proof.traceOods, proof.constraintOods⟩

/-- The constraints at the out-of-domain point against the claimed values. -/
def checkOods (cs : ConstraintSystem) (proof : Proof) (p : Parameters) (coin : Coin) :
    Except Stop Unit := do
  let drawn := Transcript.oods p coin proof
  let combined ← orFault id (cs.combine proof.publicInputs p (claimedOods p coin proof)
    drawn.constraintCoefficients)
  require .constraintMismatch (combined = Felt.evalPoly proof.constraintOods drawn.point)

/-- The challenges drawn after the out-of-domain check. -/
def friChallenges (p : Parameters) (coin : Coin) (proof : Proof) : FriChallenges :=
  Transcript.fri p (Transcript.oods p coin proof).coin proof

theorem oods_congr {proof proof' : Proof} (htraceRoot : proof.traceRoot = proof'.traceRoot)
    (hconstraintRoot : proof.constraintRoot = proof'.constraintRoot)
    (htraceOods : proof.traceOods = proof'.traceOods)
    (hconstraintOods : proof.constraintOods = proof'.constraintOods) (p : Parameters) (coin : Coin) :
    Transcript.oods p coin proof = Transcript.oods p coin proof' := by
  simp only [Transcript.oods, htraceRoot, hconstraintRoot, htraceOods, hconstraintOods]

theorem friChallenges_congr {proof proof' : Proof} {p : Parameters} {coin : Coin}
    (hoods : Transcript.oods p coin proof = Transcript.oods p coin proof')
    (hroots : proof.friLayers.map (·.root) = proof'.friLayers.map (·.root))
    (hlast : proof.lastLayer = proof'.lastLayer) (hnonce : proof.powNonce = proof'.powNonce) :
    friChallenges p coin proof = friChallenges p coin proof' := by
  simp only [friChallenges, Transcript.fri, hoods, hroots, hlast, hnonce]

/-- The queries, once the proof of work is judged. -/
def drawQueries (proof : Proof) (p : Parameters) (coin : Coin) (d : EvalDomain) :
    Except Stop (List Nat) := do
  let fri := friChallenges p coin proof
  let (queries, _) ← orFault .coin (fri.coin.readQueries p.queries d.logSize)
  require .proofOfWork (fri.work.check proof.powNonce)
  return queries

/-- The opened rows against the two roots. -/
def checkRowOpenings (proof : Proof) (p : Parameters) (d : EvalDomain) (queries : List Nat) :
    Except Stop Unit := do
  orFault id (proof.checkRows p queries.length)
  checkOpening .traceDecommitment proof.traceRoot d queries proof.traceRows
    proof.traceDecommitment
  checkOpening .constraintDecommitment proof.constraintRoot d queries proof.constraintRows
    proof.constraintDecommitment

/-- Each layer of a proof with its step and its challenge. -/
def layers (p : Parameters) (coin : Coin) (proof : Proof) : List (FriLayer × Nat × Felt) :=
  proof.friLayers.zip (p.friLayout.zip (friChallenges p coin proof).foldChallenges)

/-- The composition of the opened rows, folded down to the last layer. -/
def checkFri (cs : ConstraintSystem) (proof : Proof) (p : Parameters) (coin : Coin)
    (d : EvalDomain) (queries : List Nat) : Except Stop Unit := do
  let first ← orFault id (cs.evaluateAtQueries p queries proof.traceRows proof.constraintRows
    (claimedOods p coin proof) (Transcript.oods p coin proof).oodsCoefficients)
  orFault id (expectLength "first FRI layer values" queries.length first.length)
  let (folded, lastLength) ← checkLayers d (layers p coin proof) 0 d.size (queries.zip first)
  checkLastLayer d proof.lastLayer lastLength folded

/-- The phases before the layers. -/
theorem prepare_eq (cs : ConstraintSystem) (proof : Proof) :
    prepare cs proof = (do
      let (p, coin, d) ← setUp cs proof
      checkOods cs proof p coin
      let queries ← drawQueries proof p coin d
      checkRowOpenings proof p d queries
      let first ← orFault id (cs.evaluateAtQueries p queries proof.traceRows proof.constraintRows
        (claimedOods p coin proof) (Transcript.oods p coin proof).oodsCoefficients)
      orFault id (expectLength "first FRI layer values" queries.length first.length)
      return ⟨d, layers p coin proof, queries.zip first⟩) := by
  simp only [prepare, setUp, checkOods, drawQueries, checkRowOpenings]
  by_cases h : proof.publicInputs.isEmpty = true
  · rw [if_pos h, if_pos h]
    rfl
  · rw [if_neg h, if_neg h]
    simp only [bind_assoc, pure_bind, claimedOods, friChallenges, layers]

theorem run_eq (cs : ConstraintSystem) (proof : Proof) :
    run cs proof = (do
      let (p, coin, d) ← setUp cs proof
      checkOods cs proof p coin
      let queries ← drawQueries proof p coin d
      checkRowOpenings proof p d queries
      checkFri cs proof p coin d queries) := by
  simp only [run, prepare_eq, FriStart.check, checkFri, bind_assoc, pure_bind]

/-! ## What each phase checks -/

theorem setUp_eq_ok_iff {cs : ConstraintSystem} {proof : Proof} {p : Parameters} {coin : Coin}
    {d : EvalDomain} :
    setUp cs proof = .ok (p, coin, d) ↔
      proof.publicInputs ≠ [] ∧ cs.start proof.publicInputs = .ok (p, coin) ∧
        p.validate = .ok () ∧ proof.checkShapes p = .ok () ∧ p.evalDomain = .ok d := by
  unfold setUp
  by_cases h : proof.publicInputs.isEmpty = true
  · rw [if_pos h]
    have hnil : proof.publicInputs = [] := List.isEmpty_iff.mp h
    simp [hnil, throw, throwThe, MonadExceptOf.throw, bind, Except.bind]
  · rw [if_neg h]
    have hne : proof.publicInputs ≠ [] := fun hnil => h (List.isEmpty_iff.mpr hnil)
    simp only [bind_eq_ok_iff, exists_unit_iff, orFault_eq_ok_iff, pure_eq_ok_iff, Prod.exists,
      Prod.mk.injEq]
    constructor
    · rintro ⟨p', coin', hstart, hvalid, hshapes, d', hd, rfl, rfl, rfl⟩
      exact ⟨hne, hstart, hvalid, hshapes, hd⟩
    · rintro ⟨-, hstart, hvalid, hshapes, hd⟩
      exact ⟨p, coin, hstart, hvalid, hshapes, d, hd, rfl, rfl, rfl⟩

/-- The parameters, the coin and the domain come from the public inputs alone. -/
theorem setUp_unique {cs : ConstraintSystem} {proof proof' : Proof} {p p' : Parameters}
    {coin coin' : Coin} {d d' : EvalDomain} (hinputs : proof.publicInputs = proof'.publicInputs)
    (h : setUp cs proof = .ok (p, coin, d)) (h' : setUp cs proof' = .ok (p', coin', d')) :
    p = p' ∧ coin = coin' ∧ d = d' := by
  obtain ⟨-, hstart, -, -, hd⟩ := setUp_eq_ok_iff.mp h
  obtain ⟨-, hstart', -, -, hd'⟩ := setUp_eq_ok_iff.mp h'
  rw [hinputs, hstart', Except.ok.injEq, Prod.mk.injEq] at hstart
  obtain ⟨rfl, rfl⟩ := hstart
  rw [hd', Except.ok.injEq] at hd
  exact ⟨rfl, rfl, hd.symm⟩

theorem checkShapes_eq_ok_iff {proof : Proof} {p : Parameters} :
    proof.checkShapes p = .ok () ↔
      proof.traceOods.length = p.traceLayout.length ∧
        proof.constraintOods.length = p.constraintDegree ∧
          proof.friLayers.length = p.friLayout.length ∧
            proof.lastLayer.length = p.lastLayerDegreeBound := by
  simp only [Proof.checkShapes, bind_eq_ok_iff, expectLength_eq_ok_iff, exists_unit_iff]

theorem checkOods_eq_ok_iff {cs : ConstraintSystem} {proof : Proof} {p : Parameters} {coin : Coin} :
    checkOods cs proof p coin = .ok () ↔
      cs.combine proof.publicInputs p (claimedOods p coin proof)
          (Transcript.oods p coin proof).constraintCoefficients =
        .ok (Felt.evalPoly proof.constraintOods (Transcript.oods p coin proof).point) := by
  simp only [checkOods, bind_eq_ok_iff, orFault_eq_ok_iff, require_eq_ok_iff, decide_eq_true_eq]
  constructor
  · rintro ⟨combined, hcombine, rfl⟩
    exact hcombine
  · intro hcombine
    exact ⟨_, hcombine, rfl⟩

theorem drawQueries_eq_ok_iff {proof : Proof} {p : Parameters} {coin : Coin} {d : EvalDomain}
    {queries : List Nat} :
    drawQueries proof p coin d = .ok queries ↔
      (∃ after, (friChallenges p coin proof).coin.readQueries p.queries d.logSize =
          .ok (queries, after)) ∧
        (friChallenges p coin proof).work.check proof.powNonce = true := by
  simp only [drawQueries, bind_eq_ok_iff, exists_unit_iff, orFault_eq_ok_iff, require_eq_ok_iff, pure_eq_ok_iff,
    Prod.exists]
  constructor
  · rintro ⟨queries', after, hread, hwork, rfl⟩
    exact ⟨⟨after, hread⟩, hwork⟩
  · rintro ⟨⟨after, hread⟩, hwork⟩
    exact ⟨queries, after, hread, hwork, rfl⟩

theorem checkRowLengths_eq_ok_iff {what : String} {expected : Nat} {rows : List (List Felt)} :
    Proof.checkRowLengths what expected rows = .ok () ↔ ∀ row ∈ rows, row.length = expected := by
  simp only [Proof.checkRowLengths, forM_eq_ok_iff, expectLength_eq_ok_iff]

theorem checkRows_eq_ok_iff {proof : Proof} {p : Parameters} {queries : Nat} :
    proof.checkRows p queries = .ok () ↔
      proof.traceRows.length = queries ∧ proof.constraintRows.length = queries ∧
        (∀ row ∈ proof.traceRows, row.length = p.traceColumns) ∧
          ∀ row ∈ proof.constraintRows, row.length = p.constraintDegree := by
  simp only [Proof.checkRows, bind_eq_ok_iff, expectLength_eq_ok_iff, checkRowLengths_eq_ok_iff,
    exists_unit_iff]

theorem checkOpening_eq_ok_iff {reason : Rejection} {root : Digest} {d : EvalDomain}
    {queries : List Nat} {rows : List (List Felt)} {decommitment : List Digest} :
    checkOpening reason root d queries rows decommitment = .ok () ↔
      Merkle.verify root d.logSize queries rows decommitment = .ok true := by
  simp only [checkOpening, bind_eq_ok_iff, orFault_eq_ok_iff, require_eq_ok_iff]
  constructor
  · rintro ⟨_, hverify, rfl⟩
    exact hverify
  · intro hverify
    exact ⟨true, hverify, rfl⟩

/-- One row of each table stands at every query, and both tables open to them. -/
structure RowsOpened (proof : Proof) (p : Parameters) (d : EvalDomain) (queries : List Nat) :
    Prop where
  trace_length : proof.traceRows.length = queries.length
  constraint_length : proof.constraintRows.length = queries.length
  trace_columns : ∀ row ∈ proof.traceRows, row.length = p.traceColumns
  constraint_columns : ∀ row ∈ proof.constraintRows, row.length = p.constraintDegree
  trace_opened : Merkle.verify proof.traceRoot d.logSize queries proof.traceRows
    proof.traceDecommitment = .ok true
  constraint_opened : Merkle.verify proof.constraintRoot d.logSize queries proof.constraintRows
    proof.constraintDecommitment = .ok true

theorem checkRowOpenings_eq_ok_iff {proof : Proof} {p : Parameters} {d : EvalDomain}
    {queries : List Nat} :
    checkRowOpenings proof p d queries = .ok () ↔ RowsOpened proof p d queries := by
  simp only [checkRowOpenings, bind_eq_ok_iff, orFault_eq_ok_iff, checkRows_eq_ok_iff,
    checkOpening_eq_ok_iff, exists_unit_iff]
  constructor
  · rintro ⟨⟨ht, hc, htc, hcc⟩, hto, hco⟩
    exact ⟨ht, hc, htc, hcc, hto, hco⟩
  · rintro ⟨ht, hc, htc, hcc, hto, hco⟩
    exact ⟨⟨ht, hc, htc, hcc⟩, hto, hco⟩

/-! ## Drawn before the layers -/

/-- Reads leave the digest alone, so the point depends on the seed and the two roots. -/
theorem point_oods (p : Parameters) (coin : Coin) (proof : Proof) :
    (Transcript.oods p coin proof).point =
      ((coin.writeDigest proof.traceRoot).writeDigest proof.constraintRoot).readFelt.1 := by
  rw [Transcript.oods, Transcript.oodsPoint, Transcript.constraintCoefficients,
    Coin.writeDigest_congr (Coin.digest_readFelts _ _)]

theorem length_constraintCoefficients (p : Parameters) (coin : Coin) (proof : Proof) :
    (Transcript.oods p coin proof).constraintCoefficients.length = 2 * p.constraints :=
  Coin.length_readFelts _ _

theorem length_oodsCoefficients (p : Parameters) (coin : Coin) (proof : Proof) :
    (Transcript.oods p coin proof).oodsCoefficients.length = p.oodsCoefficientCount :=
  Coin.length_readFelts _ _

/-! ## Layers -/

theorem length_foldChallenges (coin : Coin) (roots : List Digest) :
    (Transcript.foldChallenges coin roots).1.length = roots.length := by
  induction roots generalizing coin with
  | nil => rfl
  | cons root roots ih => rw [Transcript.foldChallenges, List.length_cons, ih, List.length_cons]

theorem length_friChallenges (p : Parameters) (coin : Coin) (proof : Proof) :
    (friChallenges p coin proof).foldChallenges.length = proof.friLayers.length := by
  rw [friChallenges, Transcript.fri, length_foldChallenges, List.length_map]

theorem map_fst_layers {p : Parameters} (coin : Coin) {proof : Proof}
    (h : proof.friLayers.length = p.friLayout.length) :
    (layers p coin proof).map (·.1) = proof.friLayers := by
  apply List.map_fst_zip
  exact Nat.le_of_eq (by rw [List.length_zip, length_friChallenges, h, Nat.min_self])

theorem map_step_layers {p : Parameters} {coin : Coin} {proof : Proof}
    (h : proof.friLayers.length = p.friLayout.length) :
    (layers p coin proof).map (·.2.1) = p.friLayout := by
  have hpairs : (layers p coin proof).map (·.2) =
      p.friLayout.zip (friChallenges p coin proof).foldChallenges := by
    apply List.map_snd_zip
    exact Nat.le_of_eq (by rw [List.length_zip, length_friChallenges, h, Nat.min_self])
  have hsteps : (layers p coin proof).map (·.2.1) = ((layers p coin proof).map (·.2)).map (·.1) := by
    rw [List.map_map]
    rfl
  rw [hsteps, hpairs]
  exact List.map_fst_zip (Nat.le_of_eq (by rw [length_friChallenges, h]))

/-- The values that the cosets of a layer fold to. -/
def foldCosets (fold : Fri.LayerFold) (cosets : List (Nat × List Felt)) :
    Except VerifierError (List (Nat × Felt)) :=
  cosets.mapM fun c => do return (c.1, ← fold.apply c.1 c.2)

theorem foldCosets_eq_ok_iff {fold : Fri.LayerFold} {cosets : List (Nat × List Felt)}
    {folded : List (Nat × Felt)} :
    foldCosets fold cosets = .ok folded ↔
      List.Forall₂ (fun c f => fold.apply c.1 c.2 = .ok f.2 ∧ f.1 = c.1) cosets folded := by
  rw [foldCosets, mapM_eq_ok_iff]
  refine iff_of_eq (congrArg (fun R => List.Forall₂ R cosets folded) ?_)
  funext c f
  obtain ⟨place, value⟩ := f
  simp only [bind_eq_ok_iff, pure_eq_ok_iff, Prod.mk.injEq, eq_iff_iff]
  constructor
  · rintro ⟨v, hv, rfl, rfl⟩
    exact ⟨hv, rfl⟩
  · rintro ⟨hv, rfl⟩
    exact ⟨value, hv, rfl, rfl⟩

theorem map_fst_foldCosets {fold : Fri.LayerFold} {cosets : List (Nat × List Felt)}
    {folded : List (Nat × Felt)} (h : foldCosets fold cosets = .ok folded) :
    folded.map (·.1) = cosets.map (·.1) := by
  have hfolds := foldCosets_eq_ok_iff.mp h
  clear h
  induction hfolds with
  | nil => rfl
  | cons hf _ ih => rw [List.map_cons, List.map_cons, hf.2, ih]

theorem exists_of_mem_foldCosets {fold : Fri.LayerFold} {cosets : List (Nat × List Felt)}
    {folded : List (Nat × Felt)} (h : foldCosets fold cosets = .ok folded) :
    ∀ c ∈ cosets, ∃ v, (c.1, v) ∈ folded ∧ fold.apply c.1 c.2 = .ok v := by
  have hfolds := foldCosets_eq_ok_iff.mp h
  clear h
  induction hfolds with
  | nil => simp
  | @cons c f _ _ hf _ ih =>
      rw [List.forall_mem_cons]
      refine ⟨⟨f.2, ?_, hf.1⟩, fun c' hc' => ?_⟩
      · rw [← hf.2]
        exact List.mem_cons_self
      · obtain ⟨v, hv, happly⟩ := ih c' hc'
        exact ⟨v, List.mem_cons_of_mem _ hv, happly⟩

theorem checkLayer_eq_ok_iff {d : EvalDomain} {number layerLength : Nat}
    {known : List (Nat × Felt)} {layer : FriLayer} {step : Nat} {challenge : Felt}
    {folded : List (Nat × Felt)} :
    checkLayer d number layerLength known layer step challenge = .ok folded ↔
      ∃ cosets, Fri.gatherCosets known step layer.values number = .ok cosets ∧
        Merkle.verify layer.root (layerLength.log2 - step) (cosets.map (·.1)) (cosets.map (·.2))
            layer.decommitment = .ok true ∧
          foldCosets ⟨challenge, 2 ^ step, layerLength, d⟩ cosets = .ok folded := by
  simp only [checkLayer, bind_eq_ok_iff, orFault_eq_ok_iff, require_eq_ok_iff, exists_unit_iff,
    foldCosets]
  constructor
  · rintro ⟨cosets, hcosets, opened, hopened, rfl, hfolded⟩
    exact ⟨cosets, hcosets, hopened, hfolded⟩
  · rintro ⟨cosets, hcosets, hopened, hfolded⟩
    exact ⟨cosets, hcosets, true, hopened, rfl, hfolded⟩

theorem checkLayers_cons_eq_ok_iff {d : EvalDomain} {number layerLength : Nat}
    {known : List (Nat × Felt)} {layer : FriLayer} {step : Nat} {challenge : Felt}
    {rest : List (FriLayer × Nat × Felt)} {last : List (Nat × Felt) × Nat} :
    checkLayers d ((layer, step, challenge) :: rest) number layerLength known = .ok last ↔
      ∃ folded, checkLayer d number layerLength known layer step challenge = .ok folded ∧
        checkLayers d rest (number + 1) (layerLength >>> step) folded = .ok last := by
  rw [checkLayers, bind_eq_ok_iff]

theorem checkLastLayer_eq_ok_iff {d : EvalDomain} {coefficients : List Felt} {layerLength : Nat}
    {folded : List (Nat × Felt)} :
    checkLastLayer d coefficients layerLength folded = .ok () ↔
      Fri.lastLayerMismatch folded coefficients layerLength d = none := by
  unfold checkLastLayer
  split <;> simp_all

/-- The composition at the queries, and the values and the length of the layer it folds to. -/
structure FriChecked (cs : ConstraintSystem) (proof : Proof) (p : Parameters) (coin : Coin)
    (d : EvalDomain) (queries : List Nat) where
  first : List Felt
  folded : List (Nat × Felt)
  lastLength : Nat
  first_eq : cs.evaluateAtQueries p queries proof.traceRows proof.constraintRows
    (claimedOods p coin proof) (Transcript.oods p coin proof).oodsCoefficients = .ok first
  first_length : first.length = queries.length
  layers_eq : checkLayers d (layers p coin proof) 0 d.size (queries.zip first) =
    .ok (folded, lastLength)
  last_eq : Fri.lastLayerMismatch folded proof.lastLayer lastLength d = none

theorem checkFri_eq_ok_iff {cs : ConstraintSystem} {proof : Proof} {p : Parameters} {coin : Coin}
    {d : EvalDomain} {queries : List Nat} :
    checkFri cs proof p coin d queries = .ok () ↔
      Nonempty (FriChecked cs proof p coin d queries) := by
  simp only [checkFri, bind_eq_ok_iff, orFault_eq_ok_iff, expectLength_eq_ok_iff,
    checkLastLayer_eq_ok_iff, exists_unit_iff, Prod.exists]
  constructor
  · rintro ⟨first, hfirst, hlength, folded, lastLength, hlayers, hlast⟩
    exact ⟨⟨first, folded, lastLength, hfirst, hlength, hlayers, hlast⟩⟩
  · rintro ⟨⟨first, folded, lastLength, hfirst, hlength, hlayers, hlast⟩⟩
    exact ⟨first, hfirst, hlength, folded, lastLength, hlayers, hlast⟩

/-! ## What the set-up settles -/

theorem valid_of_setUp {cs : ConstraintSystem} {proof : Proof} {p : Parameters} {coin : Coin}
    {d : EvalDomain} (h : setUp cs proof = .ok (p, coin, d)) : p.Valid ∧ d.Valid := by
  obtain ⟨-, -, hvalid, -, hd⟩ := setUp_eq_ok_iff.mp h
  exact ⟨Parameters.validate_eq_ok_iff.mp hvalid, (Parameters.evalDomain_eq_ok_iff.mp hd).2⟩

theorem logSize_of_setUp {cs : ConstraintSystem} {proof : Proof} {p : Parameters} {coin : Coin}
    {d : EvalDomain} (h : setUp cs proof = .ok (p, coin, d)) : d.logSize = p.logEvalSize := by
  obtain ⟨-, -, -, -, hd⟩ := setUp_eq_ok_iff.mp h
  exact (Parameters.evalDomain_eq_ok_iff.mp hd).1

theorem evalSize_of_setUp {cs : ConstraintSystem} {proof : Proof} {p : Parameters} {coin : Coin}
    {d : EvalDomain} (h : setUp cs proof = .ok (p, coin, d)) : p.evalSize = 2 ^ d.logSize := by
  rw [logSize_of_setUp h, (valid_of_setUp h).1.evalSize_eq_two_pow]

/-- The layers of a run fold no further than its domain is large. -/
theorem sum_steps_le_of_setUp {cs : ConstraintSystem} {proof : Proof} {p : Parameters} {coin : Coin}
    {d : EvalDomain} (h : setUp cs proof = .ok (p, coin, d)) :
    ((layers p coin proof).map (·.2.1)).sum ≤ d.logSize := by
  obtain ⟨-, -, -, hshapes, -⟩ := setUp_eq_ok_iff.mp h
  obtain ⟨-, -, hcount, -⟩ := checkShapes_eq_ok_iff.mp hshapes
  obtain ⟨hvalid, -⟩ := valid_of_setUp h
  have hle := hvalid.sum_friLayout_le
  rw [map_step_layers hcount, logSize_of_setUp h, hvalid.logEvalSize_eq]
  omega

/-- Valid parameters leave the draw of the queries no way to fail. -/
theorem exists_queries {cs : ConstraintSystem} {proof : Proof} {p : Parameters} {coin : Coin}
    {d : EvalDomain} (h : setUp cs proof = .ok (p, coin, d)) :
    ∃ queries after, (friChallenges p coin proof).coin.readQueries p.queries d.logSize =
      .ok (queries, after) := by
  obtain ⟨hvalid, hdomain⟩ := valid_of_setUp h
  have hcount := hvalid.queries_le
  rw [evalSize_of_setUp h] at hcount
  exact Coin.exists_readQueries _ (by have := hdomain.logSize_le; omega) hcount

/-! ## Accepted runs -/

/-- An accepted run: what its phases pass on, and that each of them succeeds. -/
structure Acceptance (cs : ConstraintSystem) (proof : Proof) where
  p : Parameters
  coin : Coin
  d : EvalDomain
  queries : List Nat
  setUp_eq : setUp cs proof = .ok (p, coin, d)
  oods_eq : checkOods cs proof p coin = .ok ()
  queries_eq : drawQueries proof p coin d = .ok queries
  rows : RowsOpened proof p d queries
  fri : FriChecked cs proof p coin d queries

theorem run_eq_ok_iff {cs : ConstraintSystem} {proof : Proof} :
    run cs proof = .ok () ↔ Nonempty (Acceptance cs proof) := by
  simp only [run_eq, bind_eq_ok_iff, Prod.exists, checkRowOpenings_eq_ok_iff, exists_unit_iff,
    checkFri_eq_ok_iff]
  constructor
  · rintro ⟨p, coin, d, hsetUp, hoods, queries, hqueries, hrows, ⟨hfri⟩⟩
    exact ⟨⟨p, coin, d, queries, hsetUp, hoods, hqueries, hrows, hfri⟩⟩
  · rintro ⟨⟨p, coin, d, queries, hsetUp, hoods, hqueries, hrows, hfri⟩⟩
    exact ⟨p, coin, d, hsetUp, hoods, queries, hqueries, hrows, ⟨hfri⟩⟩

theorem verify_eq_accepted_iff {cs : ConstraintSystem} {proof : Proof} :
    verify cs proof = .ok .accepted ↔ Nonempty (Acceptance cs proof) := by
  rw [← run_eq_ok_iff]
  unfold verify
  split <;> simp_all

end Verifier
end StarkVerifier
