import StarkVerifier.Fibonacci
import StarkVerifier.Proofs.Fibonacci.Claim
import StarkVerifier.Proofs.Parameters

/-!
# Parameters of a claim

A run starts with the shortest trace that reaches the claimed index. Where no layout is configured the
layers fold that trace down to one coefficient, or to 256 of a long one, and `validate` has nothing to
refuse but the configured numbers. Main statement: `parameters_of_claim`.
-/

namespace StarkVerifier.Fibonacci

/-! ## The default layout -/

/-- The steps of a loop that folds by three bits at a time, by fewer in the end. -/
def greedySteps (folds : Nat) : List Nat :=
  if folds = 0 then [] else min folds 3 :: greedySteps (folds - min folds 3)
termination_by folds

theorem sum_greedySteps (folds : Nat) : (greedySteps folds).sum = folds := by
  induction folds using greedySteps.induct with
  | case1 => rw [greedySteps, if_pos rfl, List.sum_nil]
  | case2 folds hne ih =>
      rw [greedySteps, if_neg hne, List.sum_cons, ih]
      exact Nat.add_sub_cancel' (Nat.min_le_left folds 3)

theorem mem_greedySteps {folds step : Nat} (h : step ∈ greedySteps folds) : 1 ≤ step ∧ step ≤ 3 := by
  induction folds using greedySteps.induct with
  | case1 =>
      rw [greedySteps, if_pos rfl] at h
      exact absurd h List.not_mem_nil
  | case2 folds hne ih =>
      rw [greedySteps, if_neg hne, List.mem_cons] at h
      rcases h with rfl | h
      · exact ⟨Nat.le_min.mpr ⟨Nat.one_le_iff_ne_zero.mpr hne, by decide⟩, Nat.min_le_right _ _⟩
      · exact ih h

/-- The loop takes as many steps of three bits as there are, and what is left in one. -/
theorem greedySteps_eq (folds : Nat) :
    greedySteps folds = List.replicate (folds / 3) 3 ++ if folds % 3 = 0 then [] else [folds % 3] := by
  induction folds using greedySteps.induct with
  | case1 =>
      rw [greedySteps, if_pos rfl]
      rfl
  | case2 folds hne ih =>
      rw [greedySteps, if_neg hne, ih]
      by_cases hlong : 3 ≤ folds
      · obtain ⟨rest, rfl⟩ := Nat.exists_eq_add_of_le' hlong
        rw [Nat.min_eq_right hlong, Nat.add_sub_cancel, Nat.add_mod_right,
          Nat.add_div_right rest (by decide), List.replicate_succ, List.cons_append]
      · have hshort : folds < 3 := Nat.lt_of_not_le hlong
        rw [Nat.min_eq_left hshort.le, Nat.sub_self, Nat.mod_eq_of_lt hshort, if_neg hne,
          Nat.div_eq_of_lt hshort]
        rfl

/-- The folds that leave one coefficient of a short trace and 256 of a long one. -/
def defaultFolds (logLength : Nat) : Nat := if logLength ≤ 8 then logLength else logLength - 8

theorem defaultFriLayout_two_pow {k : Nat} (h : k ≤ 63) :
    defaultFriLayout (2 ^ k) = greedySteps (defaultFolds k) := by
  rw [defaultFriLayout, trailingZeros_two_pow (Nat.le_succ_of_le h), greedySteps_eq]
  rfl

theorem defaultFolds_le (k : Nat) : defaultFolds k ≤ k := by
  unfold defaultFolds
  split
  · exact Nat.le_refl k
  · exact Nat.sub_le k 8

theorem one_le_defaultFolds {k : Nat} (h : 1 ≤ k) : 1 ≤ defaultFolds k := by
  unfold defaultFolds
  split
  · exact h
  · next hlong => exact Nat.sub_pos_of_lt (Nat.lt_of_not_le hlong)

theorem two_pow_shiftRight_defaultFolds (k : Nat) :
    2 ^ k >>> defaultFolds k = if k ≤ 8 then 1 else 256 := by
  rw [two_pow_shiftRight (defaultFolds_le k)]
  unfold defaultFolds
  by_cases h : k ≤ 8
  · rw [if_pos h, if_pos h, Nat.sub_self, Nat.pow_zero]
  · rw [if_neg h, if_neg h, Nat.sub_sub_self (Nat.le_of_not_le h)]

/-! ## What `validate` asks of the configuration -/

variable {config : FibonacciConfig} {k : Nat}

theorem friLayout_parameters (hlayout : config.friLayout = none) (h : k ≤ 63) :
    (parameters config (2 ^ k)).friLayout = greedySteps (defaultFolds k) := by
  show config.friLayout.getD (defaultFriLayout (2 ^ k)) = greedySteps (defaultFolds k)
  rw [hlayout, Option.getD_none, defaultFriLayout_two_pow h]

theorem sum_friLayout_parameters (hlayout : config.friLayout = none) (h : k ≤ 63) :
    (parameters config (2 ^ k)).friLayout.sum = defaultFolds k := by
  rw [friLayout_parameters hlayout h, sum_greedySteps]

/-- Only the numbers of the configuration can be refused. -/
theorem valid_parameters_iff (hlayout : config.friLayout = none) (hpos : 1 ≤ k) (h : k ≤ 63) :
    (parameters config (2 ^ k)).Valid ↔
      config.blowup.isPowerOfTwo ∧ 2 ≤ config.blowup ∧ k + config.blowup.log2 ≤ 63 ∧
        1 ≤ config.queries ∧ config.queries ≤ 2 ^ k * config.blowup := by
  have hlog : (2 ^ k).log2 = k := Nat.log2_two_pow
  have hsum := sum_friLayout_parameters hlayout h
  constructor
  · intro hvalid
    exact ⟨isTwoPower_iff_isPowerOfTwo.mp hvalid.blowup_twoPower, hvalid.two_le_blowup,
      hlog ▸ hvalid.logSize_le, Nat.one_le_iff_ne_zero.mpr hvalid.queries_ne_zero, hvalid.queries_le⟩
  · rintro ⟨hblowup, htwo, hfits, hqueries, hle⟩
    have htwoRows : 2 ≤ 2 ^ k := Nat.le_self_pow (Nat.ne_of_gt hpos) 2
    exact {
      two_le_traceLength := htwoRows
      traceLength_twoPower := isTwoPower_two_pow k
      two_le_blowup := htwo
      blowup_twoPower := isTwoPower_iff_isPowerOfTwo.mpr hblowup
      traceColumns_ne_zero := Nat.succ_ne_zero 1
      constraints_ne_zero := Nat.succ_ne_zero 3
      constraintDegree_ne_zero := Nat.succ_ne_zero 0
      queries_ne_zero := Nat.one_le_iff_ne_zero.mp hqueries
      friLayout_ne_nil := by
        intro hnil
        have hfolds := one_le_defaultFolds hpos
        rw [List.length_eq_zero_iff.mp hnil, List.sum_nil] at hsum
        omega
      traceLayout_ne_nil := Nat.succ_ne_zero 3
      logSize_le := hlog.symm ▸ hfits
      queries_le := hle
      steps_ne_zero := by
        rw [friLayout_parameters hlayout h]
        intro hzero
        exact absurd (mem_greedySteps hzero).1 (by decide)
      friFolds_le := by
        have hfolds := defaultFolds_le k
        rw [Parameters.friFolds_eq_min, hsum]
        show min (defaultFolds k) (2 ^ 32 - 1) ≤ (2 ^ k).log2
        omega
      cells := by
        have hcells : ∀ o ∈ ([⟨0, 0⟩, ⟨0, 1⟩, ⟨1, 0⟩, ⟨1, 1⟩] : List TraceOffset),
            o.column < 2 ∧ o.row < 2 := by decide
        exact fun o ho => ⟨(hcells o ho).1, Nat.lt_of_lt_of_le (hcells o ho).2 htwoRows⟩ }

/-- Parameters of a trace of `n` rows where no layout is configured. -/
structure Fitted (config : FibonacciConfig) (n : Nat) : Prop where
  steps : ∀ step ∈ (parameters config n).friLayout, step = 1 ∨ step = 2 ∨ step = 3
  sum_eq : (parameters config n).friLayout.sum = if n ≤ 256 then n.log2 else n.log2 - 8
  remaining_eq : n >>> (parameters config n).friLayout.sum = if n ≤ 256 then 1 else 256
  validate_iff : (parameters config n).validate = .ok () ↔
    config.blowup.isPowerOfTwo ∧ 2 ≤ config.blowup ∧ n.log2 + config.blowup.log2 ≤ 63 ∧
      1 ≤ config.queries ∧ config.queries ≤ n * config.blowup
  lastLayerDegreeBound_eq : (parameters config n).validate = .ok () →
    (parameters config n).lastLayerDegreeBound = if n ≤ 256 then 1 else 256

theorem fitted (hlayout : config.friLayout = none) (hpos : 1 ≤ k) (h : k ≤ 63) :
    Fitted config (2 ^ k) := by
  have hlog : (2 ^ k).log2 = k := Nat.log2_two_pow
  have hshort : 2 ^ k ≤ 256 ↔ k ≤ 8 := Nat.pow_le_pow_iff_right Nat.one_lt_two (m := 8)
  have hsum := sum_friLayout_parameters hlayout h
  have hremaining : 2 ^ k >>> (parameters config (2 ^ k)).friLayout.sum =
      if 2 ^ k ≤ 256 then 1 else 256 := by
    rw [hsum, two_pow_shiftRight_defaultFolds, if_congr hshort rfl rfl]
  refine ⟨?_, ?_, hremaining, ?_, ?_⟩
  · intro step hstep
    rw [friLayout_parameters hlayout h] at hstep
    obtain ⟨hlow, hhigh⟩ := mem_greedySteps hstep
    omega
  · rw [hsum, defaultFolds, hlog, if_congr hshort rfl rfl]
  · rw [Parameters.validate_eq_ok_iff, valid_parameters_iff hlayout hpos h, hlog]
  · intro hvalidate
    rw [← hremaining]
    exact (Parameters.validate_eq_ok_iff.mp hvalidate).lastLayerDegreeBound_eq

/-! ## The statement -/

/-- A run starts with the parameters of the shortest trace that reaches the claimed index, and fails on an
index beyond 63 bits. The default layout folds this trace to one coefficient or to 256, and `validate`
refuses nothing but the configured blowup and number of queries. -/
theorem parameters_of_claim (c : FibonacciClaim) (config : FibonacciConfig) :
    (start config c.toPublicInputs =
        c.traceLength.map fun n => (parameters config n, .ofSeed c.toPublicInputs)) ∧
      (2 ^ 63 ≤ c.index.toNat →
        c.traceLength = .error (.publicInputs (.indexTooLarge c.index.toNat))) ∧
      (c.index.toNat < 2 ^ 63 → ∃ n, c.traceLength = .ok n ∧
        IsLeast {n | n.isPowerOfTwo ∧ 2 ≤ n ∧ c.index.toNat < n} n ∧
        (config.friLayout = none → Fitted config n)) := by
  refine ⟨?_, FibonacciClaim.traceLength_eq_error, ?_⟩
  · rw [start, FibonacciClaim.ofPublicInputs_toPublicInputs, ok_bind]
    cases c.traceLength with
    | error e => rfl
    | ok n => rfl
  · intro hindex
    obtain ⟨n, hn⟩ : ∃ n, c.traceLength = .ok n :=
      ⟨_, FibonacciClaim.traceLength_eq_ok_iff.mpr
        ⟨hindex, FibonacciClaim.isLeast_traceLengths c.index.toNat⟩⟩
    have hleast := (FibonacciClaim.traceLength_eq_ok_iff.mp hn).2
    obtain ⟨k, rfl, hpos, hle⟩ := FibonacciClaim.exists_traceLength_eq_two_pow hn
    exact ⟨_, hn, hleast, fun hlayout => fitted hlayout hpos hle⟩

/-- A trace of 512 rows, to be folded once, and the first index that is out of reach. -/
theorem parameters_of_claim_512 :
    start {} (FibonacciClaim.mk 7 300).toPublicInputs =
        .ok (parameters {} 512, .ofSeed (FibonacciClaim.mk 7 300).toPublicInputs) ∧
      Fitted {} 512 ∧
      (FibonacciClaim.mk 7 0x8000000000000000).traceLength =
        .error (.publicInputs (.indexTooLarge 0x8000000000000000)) := by
  obtain ⟨hstart, -, hreached⟩ := parameters_of_claim ⟨7, 300⟩ {}
  obtain ⟨n, hn, -, hfitted⟩ := hreached (by decide)
  have hlength : (FibonacciClaim.mk 7 300).traceLength = .ok 512 := rfl
  obtain rfl : 512 = n := Except.ok.inj (hlength.symm.trans hn)
  rw [hlength] at hstart
  exact ⟨hstart, hfitted rfl, (parameters_of_claim ⟨7, 0x8000000000000000⟩ {}).2.1 (by decide)⟩

example : (parameters {} 512).friLayout = [1] := rfl

end StarkVerifier.Fibonacci
