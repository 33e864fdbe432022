import StarkVerifier.Proofs.Fri.Gathering
import StarkVerifier.Proofs.Verifier.Phases

/-!
# Numbers of a run

Words have 64 bits. Along every run, whatever the proof holds, each number that the verifier computes
with fits in one: no sum or product outgrows it, no difference is negative, no shift is as wide and
nothing is divided by zero. What the layers need is carried from one to the next by the ascending places
of the known values. Main statement: `Verifier.runInRange`.
-/

namespace StarkVerifier

/-! ## Parameters -/

/-- Errors that a validation can only end with once it has computed the size of the domain. -/
def ParameterError.KnowsSize : ParameterError → Prop
  | .notPowerOfTwo .. => False
  | .zero .. => False
  | .domainTooLarge .. => False
  | .tooManyQueries .. => True
  | .friLayoutTooDeep .. => True
  | .zeroFriStep => True
  | .traceLayoutOutOfRange .. => True

namespace Parameters

variable {p : Parameters}

theorem checkTwoPower_failsWithin {P : ParameterError → Prop} {what : String} {value : Nat}
    (h : P (.notPowerOfTwo what value)) : FailsWithin P (checkTwoPower what value) := by
  unfold checkTwoPower
  split
  · exact .ok ()
  · exact .error h

theorem checkNonZero_failsWithin {P : ParameterError → Prop} {what : String} {value : Nat}
    (h : P (.zero what)) : FailsWithin P (checkNonZero what value) := by
  unfold checkNonZero
  split
  · exact .error h
  · exact .ok ()

/-- The guard on the logarithms stands before the size is computed. -/
theorem validate_failsWithin_size :
    FailsWithin (fun e => e.KnowsSize → p.evalSize < 2 ^ 64) p.validate := by
  refine .bind (checkTwoPower_failsWithin False.elim) fun _ htrace => ?_
  refine .bind (checkTwoPower_failsWithin False.elim) fun _ hblowup => ?_
  refine .bind (checkNonZero_failsWithin False.elim) fun _ _ => ?_
  refine .bind (checkNonZero_failsWithin False.elim) fun _ _ => ?_
  refine .bind (checkNonZero_failsWithin False.elim) fun _ _ => ?_
  refine .bind (checkNonZero_failsWithin False.elim) fun _ _ => ?_
  refine .bind (checkNonZero_failsWithin False.elim) fun _ _ => ?_
  refine .bind (checkNonZero_failsWithin False.elim) fun _ _ => ?_
  refine .guard (fun _ => False.elim) fun hlog => ?_
  have hsize : p.evalSize < 2 ^ 64 := by
    rw [evalSize_eq_of_twoPower (checkTwoPower_eq_ok_iff.mp htrace).2
      (checkTwoPower_eq_ok_iff.mp hblowup).2]
    unfold maxLogEvalSize at hlog
    exact Nat.pow_lt_pow_right Nat.one_lt_two (by omega)
  exact fun _ _ _ => hsize

theorem evalSize_lt (h : FailsWithin ParameterError.KnowsSize p.validate) : p.evalSize < 2 ^ 64 := by
  cases hvalidate : p.validate with
  | error e => exact validate_failsWithin_size e hvalidate (h e hvalidate)
  | ok _ =>
      have hvalid := validate_eq_ok_iff.mp hvalidate
      have hle := hvalid.logSize_le
      unfold maxLogEvalSize at hle
      rw [hvalid.evalSize_eq]
      exact Nat.pow_lt_pow_right Nat.one_lt_two (by omega)

/-- What is computed from valid parameters. -/
structure InRange (p : Parameters) : Prop where
  traceLength_ne_zero : p.traceLength ≠ 0
  blowup_ne_zero : p.blowup ≠ 0
  logEvalSize_ne_zero : p.logEvalSize ≠ 0
  logEvalSize_lt : p.logEvalSize < 64
  friFolds_le : p.friFolds ≤ p.logEvalSize

theorem Valid.inRange (h : p.Valid) : p.InRange := by
  have hlog := h.logEvalSize_eq
  have hle := h.logSize_le
  have hpos := h.one_le_log_traceLength
  have hfolds := h.friFolds_le
  have htrace := h.two_le_traceLength
  have hblowup := h.two_le_blowup
  unfold maxLogEvalSize at hle
  exact ⟨by omega, by omega, by omega, by omega, by omega⟩

end Parameters

/-! ## Trees -/

namespace Merkle

/-- The nodes above leaf `i` of a tree, numbered from the root on, which is number one. A left node also
asks for its neighbour. -/
structure HeapInRange (depth i : Nat) : Prop where
  depth_lt : depth < 64
  node_lt : ∀ height ≤ depth, (2 ^ depth + i) >>> height < 2 ^ 64
  neighbour_lt : ∀ height ≤ depth, (2 ^ depth + i) >>> height % 2 = 0 →
    (2 ^ depth + i) >>> height + 1 < 2 ^ 64

theorem heapInRange {depth i : Nat} (hdepth : depth ≤ maxDepth) (hi : i < 2 ^ depth) :
    HeapInRange depth i := by
  have hwidth : 2 ^ depth ≤ 2 ^ 63 := Nat.pow_le_pow_right Nat.two_pos hdepth
  have hnode (height : Nat) : (2 ^ depth + i) >>> height < 2 ^ 64 := by
    have hle : (2 ^ depth + i) >>> height ≤ 2 ^ depth + i := Nat.shiftRight_le _ _
    omega
  refine ⟨Nat.lt_succ_of_le hdepth, fun height _ => hnode height, fun height _ heven => ?_⟩
  -- the largest word is odd, so it is no left node
  have := hnode height
  omega

end Merkle

/-! ## Folds -/

namespace Fri

variable {d : EvalDomain}

/-- One round that folds `count` pairs of a layer, from pair number `first` on. -/
structure RoundInRange (d : EvalDomain) (layerLength first count : Nat) : Prop where
  layerLength_ne_zero : layerLength ≠ 0
  bits_lt : (layerLength / 2).log2 < 64
  position_lt : first + count < 2 ^ 64
  exponent_lt : ∀ position < first + count,
    bitReverse (layerLength / 2).log2 position * (d.size / layerLength) < d.size
  stride_le : d.size / layerLength * 2 ≤ d.size

/-- All rounds that fold coset number `c`. -/
def RoundsInRange (d : EvalDomain) (c : Nat) : Nat → Nat → Prop
  | 0, _ => True
  | rounds + 1, layerLength =>
    RoundInRange d layerLength (c * 2 ^ rounds) (2 ^ rounds) ∧
      RoundsInRange d c rounds (layerLength / 2)

theorem roundInRange {log rounds c : Nat} (hsize : d.logSize < 64) (hlog : log + 1 ≤ d.logSize)
    (hrounds : rounds ≤ log) (hc : c < 2 ^ (log - rounds)) :
    RoundInRange d (2 ^ (log + 1)) (c * 2 ^ rounds) (2 ^ rounds) := by
  have hhalf : (2 ^ (log + 1) / 2).log2 = log := by
    rw [two_pow_succ_div_two, Nat.log2_two_pow]
  have hstride : d.size / 2 ^ (log + 1) * 2 ^ (log + 1) = d.size :=
    Nat.div_mul_cancel (Nat.pow_dvd_pow 2 hlog)
  have hstride_pos : 0 < d.size / 2 ^ (log + 1) := by
    rw [EvalDomain.size, two_pow_div_two_pow hlog]
    exact Nat.two_pow_pos _
  have hend : c * 2 ^ rounds + 2 ^ rounds ≤ 2 ^ log := by
    apply coset_end_le
    rwa [two_pow_div_two_pow hrounds]
  have hlayer : 2 ^ log < 2 ^ 64 := Nat.pow_lt_pow_right Nat.one_lt_two (by omega)
  refine ⟨Nat.ne_of_gt (Nat.two_pow_pos _), by omega, by omega, fun position _ => ?_, ?_⟩
  · rw [hhalf]
    calc bitReverse log position * (d.size / 2 ^ (log + 1))
        < 2 ^ log * (d.size / 2 ^ (log + 1)) :=
          Nat.mul_lt_mul_of_pos_right (bitReverse_lt log position) hstride_pos
      _ ≤ 2 ^ (log + 1) * (d.size / 2 ^ (log + 1)) :=
          Nat.mul_le_mul_right _ (Nat.pow_le_pow_right Nat.two_pos (Nat.le_succ log))
      _ = d.size := by rw [Nat.mul_comm, hstride]
  · calc d.size / 2 ^ (log + 1) * 2
        ≤ d.size / 2 ^ (log + 1) * 2 ^ (log + 1) :=
          Nat.mul_le_mul_left _ (Nat.le_self_pow (Nat.succ_ne_zero log) 2)
      _ = d.size := hstride

/-- The rounds of a coset within a layer, each of which halves the layer. -/
theorem roundsInRange {log rounds c : Nat} (hsize : d.logSize < 64) (hlog : log ≤ d.logSize)
    (hrounds : rounds ≤ log) (hc : c < 2 ^ (log - rounds)) : RoundsInRange d c rounds (2 ^ log) := by
  induction rounds generalizing log with
  | zero => trivial
  | succ rounds ih =>
      obtain ⟨log, rfl⟩ : ∃ k, log = k + 1 := ⟨log - 1, by omega⟩
      rw [Nat.add_sub_add_right] at hc
      refine ⟨roundInRange hsize hlog (by omega) hc, ?_⟩
      rw [two_pow_succ_div_two]
      exact ih (by omega) (by omega) hc

/-- One layer that folds by `step`, the touched cosets being the given ones. -/
structure LayerInRange (d : EvalDomain) (layerLength step : Nat) (cosets : List Nat) : Prop where
  twoPower : isTwoPower layerLength = true
  step_lt : step < 64
  step_le : step ≤ layerLength.log2
  coset_lt : ∀ c ∈ cosets, c <<< step + 2 ^ step < 2 ^ 64
  heap : ∀ c ∈ cosets, Merkle.HeapInRange (layerLength.log2 - step) c
  rounds : ∀ c ∈ cosets, RoundsInRange d c step layerLength

theorem layerInRange {log step : Nat} {cosets : List Nat} (hsize : d.logSize < 64)
    (hlog : log ≤ d.logSize) (hstep : step ≤ log) (hcosets : ∀ c ∈ cosets, c < 2 ^ (log - step)) :
    LayerInRange d (2 ^ log) step cosets := by
  refine ⟨isTwoPower_two_pow log, by omega, by rwa [Nat.log2_two_pow], fun c hc => ?_, fun c hc => ?_,
    fun c hc => roundsInRange hsize hlog hstep (hcosets c hc)⟩
  · have hend : c * 2 ^ step + 2 ^ step ≤ 2 ^ log := by
      apply coset_end_le
      rw [two_pow_div_two_pow hstep]
      exact hcosets c hc
    rw [Nat.shiftLeft_eq]
    exact Nat.lt_of_le_of_lt hend (Nat.pow_lt_pow_right Nat.one_lt_two (by omega))
  · rw [Nat.log2_two_pow]
    exact Merkle.heapInRange (by unfold Merkle.maxDepth; omega) (hcosets c hc)

end Fri

/-! ## Layers -/

namespace Verifier

open Fri

variable {d : EvalDomain}

/-- What one layer touches is what the next one knows. -/
theorem map_fst_of_checkLayer {number layerLength : Nat} {known : List (Nat × Felt)} {layer : FriLayer}
    {step : Nat} {challenge : Felt} {folded : List (Nat × Felt)}
    (hascending : (known.map (·.1)).Pairwise (· < ·))
    (h : checkLayer d number layerLength known layer step challenge = .ok folded) :
    folded.map (·.1) = touched step (known.map (·.1)) := by
  obtain ⟨cosets, hcosets, -, hfolded⟩ := checkLayer_eq_ok_iff.mp h
  rw [map_fst_foldCosets hfolded, map_fst_gatherCosets_eq_touched hascending hcosets]

theorem placesWithin_of_checkLayer {number layerLength log : Nat} {known : List (Nat × Felt)}
    {layer : FriLayer} {step : Nat} {challenge : Felt} {folded : List (Nat × Felt)}
    (hknown : PlacesWithin log (known.map (·.1))) (hstep : step ≤ log)
    (h : checkLayer d number layerLength known layer step challenge = .ok folded) :
    PlacesWithin (log - step) (folded.map (·.1)) := by
  rw [map_fst_of_checkLayer hknown.ascending h]
  exact hknown.touched hstep

/-- All layers from number `number` on, as far as the run comes. -/
def LayersInRange (d : EvalDomain) :
    List (FriLayer × Nat × Felt) → Nat → Nat → List (Nat × Felt) → Prop
  | [], _, layerLength, _ => layerLength ≠ 0
  | (layer, step, challenge) :: rest, number, layerLength, known =>
    LayerInRange d layerLength step (touched step (known.map (·.1))) ∧
      ∀ folded, checkLayer d number layerLength known layer step challenge = .ok folded →
        LayersInRange d rest (number + 1) (layerLength >>> step) folded

/-- By induction on the layers: the places stay ascending and within the layer, which stays a power of
two as long as the steps left do not fold it further than to one value. -/
theorem layersInRange (hsize : d.logSize < 64) {layers : List (FriLayer × Nat × Felt)} {number log : Nat}
    {known : List (Nat × Felt)} (hlog : log ≤ d.logSize) (hsum : (layers.map (·.2.1)).sum ≤ log)
    (hknown : PlacesWithin log (known.map (·.1))) : LayersInRange d layers number (2 ^ log) known := by
  induction layers generalizing number log known with
  | nil => exact Nat.ne_of_gt (Nat.two_pow_pos log)
  | cons l layers ih =>
      obtain ⟨layer, step, challenge⟩ := l
      simp only [List.map_cons, List.sum_cons] at hsum
      have hstep : step ≤ log := by omega
      refine ⟨layerInRange hsize hlog hstep (hknown.touched hstep).lt, fun folded hfolded => ?_⟩
      rw [two_pow_shiftRight hstep]
      exact ih (by omega) (by omega) (placesWithin_of_checkLayer hknown hstep hfolded)

/-! ## The whole run -/

/-- The drawn queries are places of the domain. -/
theorem placesWithin_of_drawQueries {cs : ConstraintSystem} {proof : Proof} {p : Parameters}
    {coin : Coin} {queries : List Nat} (h : setUp cs proof = .ok (p, coin, d))
    (hqueries : drawQueries proof p coin d = .ok queries) : PlacesWithin d.logSize queries := by
  obtain ⟨⟨after, hread⟩, -⟩ := drawQueries_eq_ok_iff.mp hqueries
  obtain ⟨hne, hlt, hascending⟩ := Coin.of_readQueries hread (valid_of_setUp h).1.queries_ne_zero
  exact ⟨hne, hlt, hascending⟩

/-- What a run computes, phase by phase, as far as it comes. -/
structure RunInRange (cs : ConstraintSystem) (proof : Proof) : Prop where
  evalSize_lt : ∀ p coin, cs.start proof.publicInputs = .ok (p, coin) →
    FailsWithin ParameterError.KnowsSize p.validate → p.evalSize < 2 ^ 64
  parameters : ∀ p coin, cs.start proof.publicInputs = .ok (p, coin) → p.validate = .ok () → p.InRange
  queries : ∀ p coin d queries, setUp cs proof = .ok (p, coin, d) →
    drawQueries proof p coin d = .ok queries → ∀ q ∈ queries, Merkle.HeapInRange d.logSize q
  layers : ∀ p coin d queries first, setUp cs proof = .ok (p, coin, d) →
    drawQueries proof p coin d = .ok queries → first.length = queries.length →
      LayersInRange d (layers p coin proof) 0 d.size (queries.zip first)

theorem runInRange (cs : ConstraintSystem) (proof : Proof) : RunInRange cs proof where
  evalSize_lt _ _ _ hsize := Parameters.evalSize_lt hsize
  parameters _ _ _ hvalid := (Parameters.validate_eq_ok_iff.mp hvalid).inRange
  queries p coin d queries hsetUp hqueries q hq :=
    Merkle.heapInRange (valid_of_setUp hsetUp).2.logSize_le
      ((placesWithin_of_drawQueries hsetUp hqueries).lt q hq)
  layers p coin d queries first hsetUp hqueries hfirst := by
    have hplaces : (queries.zip first).map (·.1) = queries := List.map_fst_zip (Nat.le_of_eq hfirst.symm)
    refine layersInRange (Nat.lt_succ_of_le (valid_of_setUp hsetUp).2.logSize_le) le_rfl
      (sum_steps_le_of_setUp hsetUp) ?_
    rw [hplaces]
    exact placesWithin_of_drawQueries hsetUp hqueries

end Verifier
end StarkVerifier
