import StarkVerifier.Proofs.Field.BitReversed
import StarkVerifier.Proofs.Parameters

/-!
# Sizes of valid parameters

Every size, length and domain that is derived from parameters which pass `validate` is what its use asks
for, and `validate` computes nothing that outgrows its word, whatever the fields hold. Main statement:
`Parameters.sizes_of_validate`.
-/

namespace StarkVerifier.Parameters

variable {p : Parameters}

/-- Length of layer `k`, which the layers before it have folded. -/
def layerLength (p : Parameters) (k : Nat) : Nat := p.evalSize >>> (p.friLayout.take k).sum

/-- What the derived sizes have to be. -/
structure Sized (p : Parameters) : Prop where
  evalSize_lt : p.traceLength * p.blowup < 2 ^ 64
  evalSize_eq : p.traceLength * p.blowup = 2 ^ p.logEvalSize
  two_le_logEvalSize : 2 ≤ p.logEvalSize
  logEvalSize_le : p.logEvalSize ≤ 63
  friFolds_eq : p.friFolds = p.friLayout.sum
  one_le_log_blowup : 1 ≤ p.blowup.log2
  layer_twoPower : ∀ k step, p.friLayout[k]? = some step → isTwoPower (p.layerLength k) = true
  layer_room : ∀ k step, p.friLayout[k]? = some step →
    p.blowup.log2 + step ≤ (p.layerLength k).log2
  lastLayerSize_eq : p.lastLayerSize = p.evalSize >>> p.friFolds
  blowup_le_lastLayerSize : p.blowup ≤ p.lastLayerSize
  lastLayerDegreeBound_eq : p.lastLayerDegreeBound = p.traceLength >>> p.friFolds
  one_le_lastLayerDegreeBound : 1 ≤ p.lastLayerDegreeBound
  one_le_queries : 1 ≤ p.queries
  queries_le : p.queries ≤ p.evalSize
  evalDomain : ∃ d, p.evalDomain = .ok d ∧ d.size = p.evalSize ∧
    (Set.range d.element).ncard = p.evalSize
  traceGenerator : ∃ w trace, p.traceGenerator = .ok w ∧
    EvalDomain.ofLogSize p.traceLength.log2 = .ok trace ∧ w = trace.generator ∧
    orderOf w = p.traceLength

namespace Valid

theorem one_le_log_blowup (h : p.Valid) : 1 ≤ p.blowup.log2 :=
  (Nat.le_log2 (by have := h.two_le_blowup; omega)).mpr h.two_le_blowup

theorem sum_take_friLayout_le (h : p.Valid) (k : Nat) :
    (p.friLayout.take k).sum ≤ p.traceLength.log2 :=
  ((List.take_sublist k p.friLayout).sum_le_sum fun _ _ => Nat.zero_le _).trans h.sum_friLayout_le

theorem layerLength_eq (h : p.Valid) {k : Nat} :
    p.layerLength k = 2 ^ (p.logEvalSize - (p.friLayout.take k).sum) := by
  have hsum := h.sum_take_friLayout_le k
  have hlog := h.logEvalSize_eq
  rw [layerLength, h.evalSize_eq_two_pow, two_pow_shiftRight (by omega)]

/-- No layer folds into the part of its length that the blowup has made. -/
theorem log_blowup_add_step_le (h : p.Valid) {k step : Nat} (hstep : p.friLayout[k]? = some step) :
    p.blowup.log2 + step ≤ (p.layerLength k).log2 := by
  obtain ⟨hk, rfl⟩ := List.getElem?_eq_some_iff.mp hstep
  have hsum := h.sum_take_friLayout_le (k + 1)
  rw [List.sum_take_succ p.friLayout k hk] at hsum
  have hlog := h.logEvalSize_eq
  rw [h.layerLength_eq, Nat.log2_two_pow]
  omega

theorem blowup_le_lastLayerSize (h : p.Valid) : p.blowup ≤ p.lastLayerSize := by
  have hsum := h.sum_friLayout_le
  have hlog := h.logEvalSize_eq
  calc p.blowup = 2 ^ p.blowup.log2 := h.blowup_eq
    _ ≤ 2 ^ (p.logEvalSize - p.friLayout.sum) := Nat.pow_le_pow_right Nat.two_pos (by omega)
    _ = p.lastLayerSize := h.lastLayerSize_eq.symm

theorem one_le_lastLayerDegreeBound (h : p.Valid) : 1 ≤ p.lastLayerDegreeBound :=
  (Nat.one_le_div_iff (Nat.lt_of_lt_of_le Nat.two_pos h.two_le_blowup)).mpr h.blowup_le_lastLayerSize

/-- The generator of the trace, a power of that of the evaluation domain, is that of the domain of its own
size. -/
theorem exists_traceDomain (h : p.Valid) :
    ∃ w trace, p.traceGenerator = .ok w ∧ EvalDomain.ofLogSize p.traceLength.log2 = .ok trace ∧
      w = trace.generator ∧ orderOf w = p.traceLength := by
  have hpos := h.one_le_log_traceLength
  have hlog := h.logEvalSize_eq
  have hle := h.logSize_le
  unfold maxLogEvalSize at hle
  obtain ⟨d, hd⟩ : ∃ d, p.evalDomain = .ok d := ⟨_, h.evalDomain_eq⟩
  obtain ⟨trace, htrace⟩ := EvalDomain.exists_ofLogSize hpos (show p.traceLength.log2 ≤ 63 by omega)
  obtain ⟨hdlog, hdvalid⟩ := evalDomain_eq_ok_iff.mp hd
  obtain ⟨htlog, htvalid⟩ := EvalDomain.ofLogSize_eq_ok_iff.mp htrace
  have hratio : d.size / trace.size = p.blowup := by
    rw [EvalDomain.size, EvalDomain.size, two_pow_div_two_pow (by omega), h.blowup_eq]
    congr 1
    omega
  have hgenerator : d.generator ^ p.blowup = trace.generator := by
    rw [← hratio]
    exact hdvalid.generator_pow_div htvalid (by omega)
  have hw : p.traceGenerator = .ok trace.generator :=
    traceGenerator_eq_ok_iff.mpr ⟨d, hd, hgenerator⟩
  exact ⟨_, trace, hw, htrace, rfl, (h.isPrimitiveRoot_traceGenerator hw).eq_orderOf.symm⟩

theorem sized (h : p.Valid) : p.Sized where
  evalSize_lt := by
    have hle := h.logSize_le
    unfold maxLogEvalSize at hle
    rw [← evalSize, h.evalSize_eq]
    exact Nat.pow_lt_pow_right Nat.one_lt_two (by omega)
  evalSize_eq := h.evalSize_eq_two_pow
  two_le_logEvalSize := by
    have hblowup := h.one_le_log_blowup
    have htrace := h.one_le_log_traceLength
    have hlog := h.logEvalSize_eq
    omega
  logEvalSize_le := h.logEvalSize_eq ▸ h.logSize_le
  friFolds_eq := h.friFolds_eq
  one_le_log_blowup := h.one_le_log_blowup
  layer_twoPower k step _ := by
    rw [h.layerLength_eq]
    exact isTwoPower_two_pow _
  layer_room k step hstep := h.log_blowup_add_step_le hstep
  lastLayerSize_eq := rfl
  blowup_le_lastLayerSize := h.blowup_le_lastLayerSize
  lastLayerDegreeBound_eq := by rw [h.lastLayerDegreeBound_eq, h.friFolds_eq]
  one_le_lastLayerDegreeBound := h.one_le_lastLayerDegreeBound
  one_le_queries := Nat.one_le_iff_ne_zero.mpr h.queries_ne_zero
  queries_le := h.queries_le
  evalDomain := by
    obtain ⟨hlog, hvalid⟩ := evalDomain_eq_ok_iff.mp h.evalDomain_eq
    have hsize : p.domain.size = p.evalSize := by
      rw [EvalDomain.size, hlog, ← h.evalSize_eq_two_pow]
    exact ⟨_, h.evalDomain_eq, hsize, hsize ▸ hvalid.ncard_range_element⟩
  traceGenerator := h.exists_traceDomain

end Valid

/-! ## Words -/

/-- A number that a machine computes in a word of `bits` bits. One that does not fit ends the run, and not
with an error of its own. -/
def inWord {ε : Type} (bits n : Nat) : Except (Option ε) Nat :=
  if n < 2 ^ bits then .ok n else .error none

theorem inWord_eq_ok {ε : Type} {bits n : Nat} (h : n < 2 ^ bits) :
    (inWord bits n : Except (Option ε) Nat) = .ok n := if_pos h

/-- The steps of a layout added up in words of 32 bits, each sum cut off at the largest. -/
def foldsInWords (steps : List Nat) (start : Nat) : Except (Option ParameterError) Nat :=
  steps.foldlM (fun folds step => inWord 32 (min (folds + step) (2 ^ 32 - 1))) start

/-- `validate` with every sum and product computed in a word, and with zero bits counted for
logarithms. -/
def validateInWords (p : Parameters) : Except (Option ParameterError) Unit := do
  (checkTwoPower "trace_length" p.traceLength).mapError some
  (checkTwoPower "blowup" p.blowup).mapError some
  (checkNonZero "trace_columns" p.traceColumns).mapError some
  (checkNonZero "constraints" p.constraints).mapError some
  (checkNonZero "constraint_degree" p.constraintDegree).mapError some
  (checkNonZero "queries" p.queries).mapError some
  (checkNonZero "fri_layout length" p.friLayout.length).mapError some
  (checkNonZero "trace_layout length" p.traceLayout.length).mapError some
  let maxFolds := trailingZeros p.traceLength
  let logEval ← inWord 32 (maxFolds + trailingZeros p.blowup)
  refuseIf (maxLogEvalSize < logEval) (some (.domainTooLarge logEval))
  let evalSize ← inWord 64 (p.traceLength * p.blowup)
  refuseIf (evalSize < p.queries) (some (.tooManyQueries p.queries evalSize))
  refuseIf (0 ∈ p.friLayout) (some .zeroFriStep)
  let folds ← foldsInWords p.friLayout 0
  refuseIf (maxFolds < folds) (some (.friLayoutTooDeep folds maxFolds))
  match p.traceLayout.find? fun o => p.traceColumns ≤ o.column || p.traceLength ≤ o.row with
  | some entry => throw (some (.traceLayoutOutOfRange entry p.traceColumns p.traceLength))
  | none => return ()

theorem foldsInWords_eq (steps : List Nat) (start : Nat) :
    foldsInWords steps start =
      .ok (steps.foldl (fun folds step => min (folds + step) (2 ^ 32 - 1)) start) := by
  induction steps generalizing start with
  | nil => rfl
  | cons step steps ih =>
      have hfits : min (start + step) (2 ^ 32 - 1) < 2 ^ 32 := by omega
      rw [foldsInWords, List.foldlM_cons, inWord_eq_ok hfits, ok_bind]
      exact ih _

/-- The product is computed behind the check on the logarithms, the only place where it has to fit. -/
theorem validateInWords_eq (htrace : p.traceLength < 2 ^ 64) (hblowup : p.blowup < 2 ^ 64) :
    p.validateInWords = p.validate.mapError some := by
  unfold validateInWords validate
  simp only [mapError_bind]
  refine bind_congr_ok fun _ hcheck => bind_congr_ok fun _ hcheck' => bind_congr_ok fun _ _ =>
    bind_congr_ok fun _ _ => bind_congr_ok fun _ _ => bind_congr_ok fun _ _ =>
    bind_congr_ok fun _ _ => bind_congr_ok fun _ _ => ?_
  have htraceTwo := (checkTwoPower_eq_ok_iff.mp (mapError_eq_ok_iff.mp hcheck)).2
  have hblowupTwo := (checkTwoPower_eq_ok_iff.mp (mapError_eq_ok_iff.mp hcheck')).2
  have htraceLog := log2_lt_of_lt_two_pow (by decide) htrace
  have hblowupLog := log2_lt_of_lt_two_pow (by decide) hblowup
  rw [trailingZeros_eq_log2 htraceTwo htrace, trailingZeros_eq_log2 hblowupTwo hblowup,
    inWord_eq_ok (show p.traceLength.log2 + p.blowup.log2 < 2 ^ 32 by omega), ok_bind, mapError_guard]
  refine bind_congr_ok fun _ hlog => ?_
  have hfits : p.traceLength * p.blowup < 2 ^ 64 := by
    have hle := refuseIf_eq_ok_iff.mp hlog
    unfold maxLogEvalSize at hle
    rw [← evalSize, evalSize_eq_of_twoPower htraceTwo hblowupTwo]
    exact Nat.pow_lt_pow_right Nat.one_lt_two (by omega)
  rw [inWord_eq_ok hfits, ok_bind, mapError_guard]
  refine bind_congr_ok fun _ _ => ?_
  rw [mapError_guard]
  refine bind_congr_ok fun _ _ => ?_
  rw [foldsInWords_eq, ok_bind, mapError_guard]
  refine bind_congr_ok fun _ _ => ?_
  cases p.traceLayout.find? fun o => p.traceColumns ≤ o.column || p.traceLength ≤ o.row with
  | none => rfl
  | some entry => rfl

/-! ## The statement -/

/-- Parameters that pass `validate` have the sizes that their use asks for. And over words `validate` runs
as over all numbers: nothing outgrows its word, whatever the fields hold. -/
theorem sizes_of_validate (p : Parameters) :
    (p.validate = .ok () → p.Sized) ∧
      (p.traceLength < 2 ^ 64 → p.blowup < 2 ^ 64 →
        p.validateInWords = p.validate.mapError some) :=
  ⟨fun h => (validate_eq_ok_iff.mp h).sized, validateInWords_eq⟩

/-- The longest trace that there is a domain for, all of it queried. -/
def largest : Parameters where
  traceColumns := 2
  traceLength := 2 ^ 62
  constraints := 4
  blowup := 2
  constraintDegree := 1
  powBits := 8
  queries := 2 ^ 63
  friLayout := [30, 3, 29]
  traceLayout := [⟨0, 0⟩, ⟨1, 2 ^ 62 - 1⟩]

theorem sizes_of_validate_largest :
    largest.validate = .ok () ∧ largest.Sized ∧
      largest.traceLength < 2 ^ 64 ∧ largest.blowup < 2 ^ 64 ∧
      largest.validateInWords = largest.validate.mapError some :=
  have hvalidate : largest.validate = .ok () := rfl
  have htrace : largest.traceLength < 2 ^ 64 := by decide
  have hblowup : largest.blowup < 2 ^ 64 := by decide
  ⟨hvalidate, (sizes_of_validate largest).1 hvalidate, htrace, hblowup,
    (sizes_of_validate largest).2 htrace hblowup⟩

example : { largest with blowup := 2 ^ 63 }.validateInWords = .error (some (.domainTooLarge 125)) := rfl

end StarkVerifier.Parameters
