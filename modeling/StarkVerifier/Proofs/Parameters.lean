import StarkVerifier.Parameters
import StarkVerifier.Proofs.Field.Domain
import StarkVerifier.Proofs.Result
import StarkVerifier.Proofs.TwoPower

/-!
# Valid parameters

What `validate` promises, as a record: the sizes are powers of two of which the logarithms fit, and the
layers together fold no further than the trace is long.
-/

namespace StarkVerifier

namespace Parameters

/-- Parameters that pass `validate`. -/
structure Valid (p : Parameters) : Prop where
  two_le_traceLength : 2 ≤ p.traceLength
  traceLength_twoPower : isTwoPower p.traceLength = true
  two_le_blowup : 2 ≤ p.blowup
  blowup_twoPower : isTwoPower p.blowup = true
  traceColumns_ne_zero : p.traceColumns ≠ 0
  constraints_ne_zero : p.constraints ≠ 0
  constraintDegree_ne_zero : p.constraintDegree ≠ 0
  queries_ne_zero : p.queries ≠ 0
  friLayout_ne_nil : p.friLayout.length ≠ 0
  traceLayout_ne_nil : p.traceLayout.length ≠ 0
  logSize_le : p.traceLength.log2 + p.blowup.log2 ≤ maxLogEvalSize
  queries_le : p.queries ≤ p.evalSize
  steps_ne_zero : 0 ∉ p.friLayout
  friFolds_le : p.friFolds ≤ p.traceLength.log2
  cells : ∀ o ∈ p.traceLayout, o.column < p.traceColumns ∧ o.row < p.traceLength

/-- The evaluation domain of valid parameters. -/
def domain (p : Parameters) : EvalDomain :=
  ⟨Felt.generator ^ ((modulus - 1) >>> p.logEvalSize), p.logEvalSize⟩

theorem checkTwoPower_eq_ok_iff {what : String} {value : Nat} :
    checkTwoPower what value = .ok () ↔ 2 ≤ value ∧ isTwoPower value = true := by
  unfold checkTwoPower
  split <;> simp_all

theorem checkNonZero_eq_ok_iff {what : String} {value : Nat} :
    checkNonZero what value = .ok () ↔ value ≠ 0 := by
  unfold checkNonZero
  split <;> simp_all

theorem checkCells_eq_ok_iff {p : Parameters} {cells : List TraceOffset} :
    (match cells.find? fun o => p.traceColumns ≤ o.column || p.traceLength ≤ o.row with
      | some entry => throw (.traceLayoutOutOfRange entry p.traceColumns p.traceLength)
      | _ => pure () : Except ParameterError Unit) = .ok () ↔
      ∀ o ∈ cells, o.column < p.traceColumns ∧ o.row < p.traceLength := by
  split
  · next entry h =>
      have hbad := List.find?_some h
      simp only [throw, throwThe, MonadExceptOf.throw, reduceCtorEq, false_iff, not_forall]
      refine ⟨entry, List.mem_of_find?_eq_some h, ?_⟩
      simp only [Bool.or_eq_true, decide_eq_true_eq] at hbad
      omega
  · next h =>
      have hnone : cells.find? (fun o => p.traceColumns ≤ o.column || p.traceLength ≤ o.row) = none :=
        Option.eq_none_iff_forall_ne_some.mpr h
      rw [List.find?_eq_none] at hnone
      simp only [pure, Except.pure, true_iff]
      intro o ho
      have := hnone o ho
      simp only [Bool.or_eq_true, decide_eq_true_eq] at this
      omega

theorem validate_eq_ok_iff {p : Parameters} : p.validate = .ok () ↔ p.Valid := by
  simp only [validate, bind_eq_ok_iff, exists_unit_iff, checkTwoPower_eq_ok_iff,
    checkNonZero_eq_ok_iff, guard_eq_ok_iff, Nat.not_lt]
  constructor
  · rintro ⟨⟨h1, h2⟩, ⟨h3, h4⟩, h5, h6, h7, h8, h9, h10, h11, h12, h13, h14, h15⟩
    exact ⟨h1, h2, h3, h4, h5, h6, h7, h8, h9, h10, h11, h12, h13, h14,
      checkCells_eq_ok_iff.mp h15⟩
  · rintro ⟨h1, h2, h3, h4, h5, h6, h7, h8, h9, h10, h11, h12, h13, h14, h15⟩
    exact ⟨⟨h1, h2⟩, ⟨h3, h4⟩, h5, h6, h7, h8, h9, h10, h11, h12, h13, h14,
      checkCells_eq_ok_iff.mpr h15⟩

/-! ## Sizes -/

theorem evalSize_eq_of_twoPower {p : Parameters} (htrace : isTwoPower p.traceLength = true)
    (hblowup : isTwoPower p.blowup = true) :
    p.evalSize = 2 ^ (p.traceLength.log2 + p.blowup.log2) := by
  rw [Nat.pow_add, ← isTwoPower_iff.mp htrace, ← isTwoPower_iff.mp hblowup, evalSize]

namespace Valid

variable {p : Parameters}

theorem traceLength_eq (h : p.Valid) : p.traceLength = 2 ^ p.traceLength.log2 :=
  isTwoPower_iff.mp h.traceLength_twoPower

theorem blowup_eq (h : p.Valid) : p.blowup = 2 ^ p.blowup.log2 :=
  isTwoPower_iff.mp h.blowup_twoPower

theorem one_le_log_traceLength (h : p.Valid) : 1 ≤ p.traceLength.log2 :=
  (Nat.le_log2 (by have := h.two_le_traceLength; omega)).mpr h.two_le_traceLength

theorem evalSize_eq (h : p.Valid) : p.evalSize = 2 ^ (p.traceLength.log2 + p.blowup.log2) :=
  evalSize_eq_of_twoPower h.traceLength_twoPower h.blowup_twoPower

theorem logEvalSize_eq (h : p.Valid) : p.logEvalSize = p.traceLength.log2 + p.blowup.log2 := by
  have hle := h.logSize_le
  rw [logEvalSize, h.evalSize_eq, trailingZeros_two_pow (by unfold maxLogEvalSize at hle; omega)]

theorem evalSize_eq_two_pow (h : p.Valid) : p.evalSize = 2 ^ p.logEvalSize := by
  rw [h.evalSize_eq, h.logEvalSize_eq]

theorem evalDomain_eq (h : p.Valid) : p.evalDomain = .ok p.domain := by
  have hle := h.logSize_le
  have hpos := h.one_le_log_traceLength
  have hrange : ¬(p.logEvalSize = 0 ∨ 63 < p.logEvalSize) := by
    unfold maxLogEvalSize at hle
    rw [h.logEvalSize_eq]
    omega
  rw [evalDomain, EvalDomain.ofLogSize, if_neg hrange, domain]

end Valid

theorem evalDomain_eq_ok_iff {p : Parameters} {d : EvalDomain} :
    p.evalDomain = .ok d ↔ d.logSize = p.logEvalSize ∧ d.Valid :=
  EvalDomain.ofLogSize_eq_ok_iff

theorem traceGenerator_eq_ok_iff {p : Parameters} {w : Felt} :
    p.traceGenerator = .ok w ↔ ∃ d, p.evalDomain = .ok d ∧ d.generator ^ p.blowup = w := by
  simp only [traceGenerator, bind_eq_ok_iff, pure_eq_ok_iff]

namespace Valid

variable {p : Parameters}

theorem traceGenerator_eq (h : p.Valid) :
    p.traceGenerator = .ok (p.domain.generator ^ p.blowup) :=
  traceGenerator_eq_ok_iff.mpr ⟨_, h.evalDomain_eq, rfl⟩

/-- The trace domain has as many elements as the trace has rows. -/
theorem isPrimitiveRoot_traceGenerator (h : p.Valid) {w : Felt} (hw : p.traceGenerator = .ok w) :
    IsPrimitiveRoot w p.traceLength := by
  obtain ⟨d, hd, rfl⟩ := traceGenerator_eq_ok_iff.mp hw
  obtain ⟨hlog, hvalid⟩ := evalDomain_eq_ok_iff.mp hd
  apply hvalid.isPrimitiveRoot.pow (Nat.two_pow_pos _)
  rw [hlog, ← h.evalSize_eq_two_pow, evalSize, Nat.mul_comm]

/-- The trace generator stays within the evaluation domain. -/
theorem traceGenerator_pow (h : p.Valid) {w : Felt} (hw : p.traceGenerator = .ok w) (row : Nat) :
    (w ^ row) ^ p.evalSize = 1 := by
  rw [evalSize, ← pow_mul, Nat.mul_left_comm, pow_mul, (h.isPrimitiveRoot_traceGenerator hw).pow_eq_one,
    one_pow]

end Valid

/-- Adding up with a cap is adding up and capping once. -/
theorem foldl_min_eq (steps : List Nat) {cap start : Nat} (h : start ≤ cap) :
    steps.foldl (fun folds step => min (folds + step) cap) start = min (start + steps.sum) cap := by
  induction steps generalizing start with
  | nil => rw [List.foldl_nil, List.sum_nil, Nat.add_zero, Nat.min_eq_left h]
  | cons step steps ih =>
      rw [List.foldl_cons, ih (Nat.min_le_right _ _), List.sum_cons]
      omega

theorem friFolds_eq_min (p : Parameters) : p.friFolds = min p.friLayout.sum (2 ^ 32 - 1) := by
  have hsum := foldl_min_eq p.friLayout (Nat.zero_le (2 ^ 32 - 1))
  rwa [Nat.zero_add] at hsum

theorem Valid.friFolds_eq {p : Parameters} (h : p.Valid) : p.friFolds = p.friLayout.sum := by
  have hle := h.friFolds_le
  have hlog := h.logSize_le
  have hcapped := p.friFolds_eq_min
  unfold maxLogEvalSize at hlog
  omega

theorem Valid.sum_friLayout_le {p : Parameters} (h : p.Valid) :
    p.friLayout.sum ≤ p.traceLength.log2 :=
  h.friFolds_eq ▸ h.friFolds_le

theorem Valid.lastLayerSize_eq {p : Parameters} (h : p.Valid) :
    p.lastLayerSize = 2 ^ (p.logEvalSize - p.friLayout.sum) := by
  have hle := h.sum_friLayout_le
  rw [lastLayerSize, h.friFolds_eq, h.evalSize_eq, h.logEvalSize_eq, two_pow_shiftRight (by omega)]

/-- The bound on the last layer's degree is the trace length, folded as often as the layers fold. -/
theorem Valid.lastLayerDegreeBound_eq {p : Parameters} (h : p.Valid) :
    p.lastLayerDegreeBound = p.traceLength >>> p.friLayout.sum := by
  have hle := h.sum_friLayout_le
  have hlength : p.traceLength >>> p.friLayout.sum = 2 ^ (p.traceLength.log2 - p.friLayout.sum) := by
    rw [← two_pow_shiftRight hle, ← h.traceLength_eq]
  have hlog := h.logEvalSize_eq
  rw [lastLayerDegreeBound, h.lastLayerSize_eq, hlength]
  calc 2 ^ (p.logEvalSize - p.friLayout.sum) / p.blowup
      = 2 ^ (p.logEvalSize - p.friLayout.sum) / 2 ^ p.blowup.log2 := by rw [← h.blowup_eq]
    _ = 2 ^ (p.logEvalSize - p.friLayout.sum - p.blowup.log2) := two_pow_div_two_pow (by omega)
    _ = 2 ^ (p.traceLength.log2 - p.friLayout.sum) := by congr 1; omega

/-- One column of two rows, one fold and one query. -/
def smallest : Parameters where
  traceColumns := 1
  traceLength := 2
  constraints := 1
  blowup := 2
  constraintDegree := 1
  powBits := 0
  queries := 1
  friLayout := [1]
  traceLayout := [⟨0, 0⟩]

theorem smallest_valid : smallest.Valid := validate_eq_ok_iff.mp rfl

end Parameters
end StarkVerifier
