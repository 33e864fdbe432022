import StarkVerifier.Proofs.Fibonacci.Claim
import StarkVerifier.Proofs.Fibonacci.Composition
import StarkVerifier.Proofs.Verifier.Prover

/-!
# True claims have accepted proofs

The prover of the program interpolates the sequence, and its one piece is what the constraints combine
to. Main statement: `honest_proof_accepted`.
-/

namespace StarkVerifier.Fibonacci

open Polynomial Felt Verifier

/-- The claim that is true of the sequence with the given second term. -/
def trueClaim (second : Felt) (index : UInt64) : FibonacciClaim := ⟨term second index.toNat, index⟩

/-- The piece that the drawn coefficients make of the constraints. -/
noncomputable def piece (w : Felt) (n : Nat) (second : Felt) (index : UInt64)
    (coefficients : List Felt) : Felt[X] :=
  compositionPolynomial w n index.toNat (column w n second 0) (column w n second 1) coefficients

theorem degree_piece_lt {w : Felt} {n : Nat} (hw : IsPrimitiveRoot w n) (second : Felt)
    {index : UInt64} (hindex : index.toNat < n) (coefficients : List Felt) :
    (piece w n second index coefficients).degree < n :=
  degree_compositionPolynomial_lt (Nat.ne_of_gt (Nat.zero_lt_of_lt hindex)) hw
    (holdsSequence_column hw second hindex) coefficients

/-- The four cells of the layout and the one piece. -/
theorem honestOods_parameters (config : FibonacciConfig) (n : Nat) (w z : Felt)
    (column0 column1 composition : Felt[X]) :
    honestOods (parameters config n) w [column0, column1] [composition] z =
      ⟨z, [column0.eval z, column0.eval (w * z), column1.eval z, column1.eval (w * z)],
        [composition.eval z]⟩ := by
  simp [honestOods, parameters, rowAt]

/-! ## The prover -/

section

variable {config : FibonacciConfig} {second : Felt} {index : UInt64} {n : Nat}

/-- A prover that knows the second term, for parameters that make sense. -/
noncomputable def prover (nonce : UInt64) (hn : (trueClaim second index).traceLength = .ok n)
    (hvalid : (parameters config n).validate = .ok ()) : Prover :=
  have h : (parameters config n).Valid := Parameters.validate_eq_ok_iff.mp hvalid
  have hw := h.isPrimitiveRoot_traceGenerator h.traceGenerator_eq
  let w := (parameters config n).domain.generator ^ config.blowup
  { publicInputs := (trueClaim second index).toPublicInputs
    seeded := .ofSeed (trueClaim second index).toPublicInputs
    parameters := parameters config n
    domain := (parameters config n).domain
    generator := w
    columns := [column w n second 0, column w n second 1]
    pieces coefficients := [piece w n second index coefficients]
    nonce := nonce
    valid := h
    domain_eq := h.evalDomain_eq
    generator_eq := h.traceGenerator_eq
    columns_length := rfl
    columns_degree := by
      rw [List.forall_mem_cons, List.forall_mem_singleton]
      exact ⟨degree_column_lt hw second 0, degree_column_lt hw second 1⟩
    pieces_length _ := rfl
    pieces_degree coefficients := by
      rw [List.forall_mem_singleton]
      exact degree_piece_lt hw second (FibonacciClaim.index_lt_traceLength hn) coefficients }

variable (nonce : UInt64) (hn : (trueClaim second index).traceLength = .ok n)
  (hvalid : (parameters config n).validate = .ok ())

theorem ofPublicInputs_prover :
    FibonacciClaim.ofPublicInputs (prover nonce hn hvalid).publicInputs =
      .ok (trueClaim second index) :=
  FibonacciClaim.ofPublicInputs_toPublicInputs _

theorem publicInputs_prover_ne_nil : (prover nonce hn hvalid).publicInputs ≠ [] := by
  intro hnil
  have hclaim := ofPublicInputs_prover nonce hn hvalid
  rw [hnil] at hclaim
  exact absurd hclaim (by simp [FibonacciClaim.ofPublicInputs])

theorem start_prover :
    (program config).start (prover nonce hn hvalid).publicInputs =
      .ok ((prover nonce hn hvalid).parameters, (prover nonce hn hvalid).seeded) := by
  show start config (prover nonce hn hvalid).publicInputs = _
  rw [start, ofPublicInputs_prover]
  simp only [bind, Except.bind, hn]
  rfl

theorem isPrimitiveRoot_prover : IsPrimitiveRoot (prover nonce hn hvalid).generator n :=
  (prover nonce hn hvalid).valid.isPrimitiveRoot_traceGenerator (prover nonce hn hvalid).generator_eq

theorem holdsSequence_prover :
    HoldsSequence (prover nonce hn hvalid).generator n (trueClaim second index) second
      (column (prover nonce hn hvalid).generator n second 0)
      (column (prover nonce hn hvalid).generator n second 1) :=
  holdsSequence_column (isPrimitiveRoot_prover nonce hn hvalid) second
    (FibonacciClaim.index_lt_traceLength hn)

theorem oods_prover :
    let P := prover nonce hn hvalid
    P.oods = ⟨P.pointDraw.1, [(column P.generator n second 0).eval P.pointDraw.1,
      (column P.generator n second 0).eval (P.generator * P.pointDraw.1),
      (column P.generator n second 1).eval P.pointDraw.1,
      (column P.generator n second 1).eval (P.generator * P.pointDraw.1)],
      [(piece P.generator n second index P.constraintDraw.1).eval P.pointDraw.1]⟩ :=
  honestOods_parameters config n _ _ _ _ _

theorem combine_prover {x : Felt} (hx : x ^ n ≠ 1) (values : List Felt) :
    let P := prover nonce hn hvalid
    combine P.publicInputs P.parameters ⟨x, [(column P.generator n second 0).eval x,
      (column P.generator n second 0).eval (P.generator * x), (column P.generator n second 1).eval x,
      (column P.generator n second 1).eval (P.generator * x)], values⟩ P.constraintDraw.1 =
        .ok ((piece P.generator n second index P.constraintDraw.1).eval x) := by
  intro P
  have hindex : index.toNat < n := FibonacciClaim.index_lt_traceLength hn
  have hcount : P.constraintDraw.1.length = 8 := Coin.length_readFelts _ _
  exact combine_eq_ok (ofPublicInputs_prover nonce hn hvalid)
    (Nat.ne_of_gt (Nat.zero_lt_of_lt hindex)) P.generator_eq (isPrimitiveRoot_prover nonce hn hvalid)
    (holdsSequence_prover nonce hn hvalid) hcount hx values

/-- The prover of a true claim sends the roots of the columns that hold the sequence and of the
polynomial that the constraints combine to, and their values. Unless the drawn point lies in the trace
domain or among the query points, its layers fold into each other and its proof is accepted. -/
theorem honest_proof_accepted (hwork : (prover nonce hn hvalid).work.check nonce = true) :
    let P := prover nonce hn hvalid
    let z := P.pointDraw.1
    let w := P.generator
    ∃ column0 column1 composition : Felt[X],
      HoldsSequence w n (trueClaim second index) second column0 column1 ∧
      (composition.degree < n ∧ ∀ x : Felt, x ^ n ≠ 1 →
        combine P.publicInputs P.parameters ⟨x, [column0.eval x, column0.eval (w * x),
          column1.eval x, column1.eval (w * x)], [composition.eval x]⟩ P.constraintDraw.1 =
            .ok (composition.eval x)) ∧
      (P.proof.traceOods = [column0.eval z, column0.eval (w * z), column1.eval z,
          column1.eval (w * z)] ∧
        P.proof.constraintOods = [composition.eval z] ∧
        P.proof.lastLayer = coefficients (n >>> P.parameters.friLayout.sum)
          (layerPolynomial P.domain P.lastValues)) ∧
      (z ^ n = 1 ∨ (∃ q < P.parameters.evalSize, P.domain.queryPoint q = z) ∨
        deepComposition P.parameters (List.range P.parameters.evalSize)
            (P.table [column0, column1]) (P.table [composition])
            ⟨z, P.proof.traceOods, P.proof.constraintOods⟩ P.coefficientDraw.1 = .ok P.first ∧
          HonestLayer.FoldsTo P.domain P.layers P.first P.lastValues ∧
          Tables.CommittedBy ⟨P.table [column0, column1], P.table [composition],
            P.layers.map (·.values)⟩ P.proof P.parameters P.seeded ∧
          (layerPolynomial P.domain P.lastValues).degree <
            (n >>> P.parameters.friLayout.sum : Nat) ∧
          verify (program config) P.proof = .ok .accepted) := by
  intro P z w
  have hoods := oods_prover nonce hn hvalid
  have hcombine := fun x hx => combine_prover nonce hn hvalid (x := x) hx
  refine ⟨column w n second 0, column w n second 1, piece w n second index P.constraintDraw.1,
    holdsSequence_prover nonce hn hvalid, ⟨?_, fun x hx => hcombine x hx _⟩,
    ⟨congrArg Oods.traceValues hoods, congrArg Oods.constraintValues hoods, rfl⟩, ?_⟩
  · exact degree_piece_lt (isPrimitiveRoot_prover nonce hn hvalid) second
      (FibonacciClaim.index_lt_traceLength hn) _
  by_cases hz : z ^ n = 1
  · exact Or.inl hz
  by_cases hquery : ∃ q < P.parameters.evalSize, P.domain.queryPoint q = z
  · exact Or.inr (Or.inl hquery)
  -- off both domains nothing is divided by zero
  have hoff : P.OffDomain := P.offDomain rfl (mt P.exists_queryPoint_eq_iff.mpr hquery)
  have hdegree := P.degree_foldAll_lt
  rw [← P.layerPolynomial_lastValues hoff] at hdegree
  have hchecked : (program config).combine P.publicInputs P.parameters P.oods P.constraintDraw.1 =
      .ok (evalPoly P.oods.constraintValues z) := by
    rw [hoods, evalPoly, List.foldr_cons, List.foldr_nil, zero_mul, zero_add]
    exact hcombine z hz _
  exact Or.inr (Or.inr ⟨P.deepComposition_first hoff, P.foldsTo hoff, P.tables_committedBy hoff,
    hdegree, P.accepted rfl (publicInputs_prover_ne_nil nonce hn hvalid)
      (start_prover nonce hn hvalid) hchecked hoff hwork⟩)

/-- Of 1, 2, 3, 5, 8, 13 the sixth term, proved without work. -/
theorem sixth_term_accepted :
    (trueClaim 2 5).value = 13 ∧
      ∃ (hn : (trueClaim 2 5).traceLength = .ok 8)
        (hvalid : (parameters { powBits := 0 } 8).validate = .ok ()),
        let P := prover 0 hn hvalid
        P.work.check 0 = true ∧
          (P.pointDraw.1 ^ 8 = 1 ∨
            (∃ q < P.parameters.evalSize, P.domain.queryPoint q = P.pointDraw.1) ∨
            verify (program { powBits := 0 }) P.proof = .ok .accepted) := by
  have hvalue : (trueClaim 2 5).value = 13 := by decide +kernel
  have hn : (trueClaim 2 5).traceLength = .ok 8 := by rfl
  have hvalid : (parameters { powBits := 0 } 8).validate = .ok () := by rfl
  have hwork : (prover 0 hn hvalid).work.check 0 = true := by rfl
  obtain ⟨_, _, _, -, -, -, hverdict⟩ := honest_proof_accepted 0 hn hvalid hwork
  refine ⟨hvalue, hn, hvalid, hwork, ?_⟩
  exact hverdict.imp_right (Or.imp_right fun h => h.2.2.2.2)

end

end StarkVerifier.Fibonacci
