import StarkVerifier.Proofs.Coin.Reads
import StarkVerifier.Proofs.Composition
import StarkVerifier.Proofs.Fri.Completeness

/-!
# Honest proofs are accepted

A proof commits to tables: the rows of the trace, the rows of the constraints, and the values of every
layer. A prover holds columns of low degree and, for every draw of coefficients, the pieces that its
constraints combine to. It writes to the coin what the verifier will write, so it draws the verifier's
challenges. Main statement: `Prover.accepted`.
-/

namespace StarkVerifier

/-! ## Committed tables -/

namespace Verifier

/-- The tables of a trace, of its constraints, and of the layers in order. -/
structure Tables where
  trace : List (List Felt)
  constraints : List (List Felt)
  layers : List (List Felt)

/-- Each layer's root is that of its table's cosets, the first layer being of the given length. -/
def LayersCommitted : List (FriLayer × Nat × Felt) → List (List Felt) → Nat → Prop
  | [], [], _ => True
  | (layer, step, _) :: layers, table :: tables, length =>
    table.length = length ∧ MerkleTree.IsRootOf layer.root (Fri.cosetsOf step table) ∧
      LayersCommitted layers tables (length >>> step)
  | _, _, _ => False

/-- The roots of a proof are those of the tables, of the sizes that the parameters give them. -/
structure Tables.CommittedBy (T : Tables) (proof : Proof) (p : Parameters) (coin : Coin) : Prop where
  trace_length : T.trace.length = p.evalSize
  trace_columns : ∀ row ∈ T.trace, row.length = p.traceColumns
  trace_root : MerkleTree.IsRootOf proof.traceRoot T.trace
  constraint_length : T.constraints.length = p.evalSize
  constraint_columns : ∀ row ∈ T.constraints, row.length = p.constraintDegree
  constraint_root : MerkleTree.IsRootOf proof.constraintRoot T.constraints
  layers : LayersCommitted (Verifier.layers p coin proof) T.layers p.evalSize

/-- A prover's layers are the tables behind the roots that it sends. -/
theorem layersCommitted_openAll {d : EvalDomain} {layers : List HonestLayer} {log : Nat}
    {f : Polynomial Felt} (hlog : log ≤ Merkle.maxDepth)
    (hholds : HonestLayer.HoldsPolynomial d layers log f) (positions : List Nat) :
    LayersCommitted ((HonestLayer.openAll layers positions).zip
      ((layers.map (·.step)).zip (layers.map (·.challenge)))) (layers.map (·.values)) (2 ^ log) := by
  induction layers generalizing log f positions with
  | nil => trivial
  | cons l layers ih =>
      obtain ⟨hvalues, hstep, hrest⟩ := hholds
      have hlength : l.values.length = 2 ^ log := by rw [hvalues, Fri.length_layerOf]
      have htail := ih (by omega) hrest (Fri.touched l.step positions)
      rw [← two_pow_shiftRight hstep] at htail
      refine ⟨hlength, ?_, htail⟩
      exact MerkleTree.isRootOf_rootOf (Fri.length_cosetsOf_of_length hlength hstep) (by omega)

end Verifier

/-! ## Provers -/

open Polynomial Felt Verifier

/-- A statement with the polynomials behind it. -/
structure Prover where
  publicInputs : Bytes
  seeded : Coin
  parameters : Parameters
  domain : EvalDomain
  generator : Felt
  columns : List Felt[X]
  pieces : List Felt → List Felt[X]
  nonce : UInt64
  valid : parameters.Valid
  domain_eq : parameters.evalDomain = .ok domain
  generator_eq : parameters.traceGenerator = .ok generator
  columns_length : columns.length = parameters.traceColumns
  columns_degree : ∀ f ∈ columns, f.degree < parameters.traceLength
  pieces_length : ∀ coefficients, (pieces coefficients).length = parameters.constraintDegree
  pieces_degree : ∀ coefficients, ∀ f ∈ pieces coefficients, f.degree < parameters.traceLength

namespace Prover

variable (P : Prover)

/-! ## What the prover computes -/

/-- The rows of polynomials on the whole evaluation domain. -/
noncomputable def table (polynomials : List Felt[X]) : List (List Felt) :=
  (List.range P.parameters.evalSize).map fun q => rowAt polynomials (P.domain.queryPoint q)

noncomputable def traceRoot : Digest := MerkleTree.rootOf (P.table P.columns)

noncomputable def constraintDraw : List Felt × Coin :=
  Transcript.constraintCoefficients P.parameters P.seeded P.traceRoot

noncomputable def drawnPieces : List Felt[X] := P.pieces P.constraintDraw.1

noncomputable def constraintRoot : Digest := MerkleTree.rootOf (P.table P.drawnPieces)

noncomputable def pointDraw : Felt × Coin :=
  Transcript.oodsPoint P.constraintDraw.2 P.constraintRoot

noncomputable def oods : Oods :=
  honestOods P.parameters P.generator P.columns P.drawnPieces P.pointDraw.1

noncomputable def coefficientDraw : List Felt × Coin :=
  Transcript.oodsCoefficients P.parameters P.pointDraw.2 P.oods.traceValues P.oods.constraintValues

/-- The composition on the whole evaluation domain, empty if some point of it is hit. -/
noncomputable def first : List Felt :=
  match deepComposition P.parameters (List.range P.parameters.evalSize) (P.table P.columns)
    (P.table P.drawnPieces) P.oods P.coefficientDraw.1 with
  | .ok values => values
  | .error _ => []

noncomputable def commitment : List HonestLayer × List Felt × Coin :=
  commitLayers P.domain P.coefficientDraw.2 P.parameters.friLayout P.first

noncomputable def layers : List HonestLayer := P.commitment.1

/-- The values of the layer that is not committed to. -/
noncomputable def lastValues : List Felt := P.commitment.2.1

noncomputable def lastLayer : List Felt :=
  coefficients (P.parameters.traceLength >>> P.parameters.friLayout.sum)
    (layerPolynomial P.domain P.lastValues)

/-- The coin that the work is done on. -/
noncomputable def folded : Coin := P.commitment.2.2.writeFelts P.lastLayer

noncomputable def work : ProofOfWork := .ofDigest P.folded.digest P.parameters.powBits

noncomputable def queries : List Nat :=
  match (P.folded.write (Bytes.ofWord P.nonce)).readQueries P.parameters.queries
    P.domain.logSize with
  | .ok drawn => drawn.1
  | .error _ => []

noncomputable def proof : Proof where
  publicInputs := P.publicInputs
  traceRoot := P.traceRoot
  constraintRoot := P.constraintRoot
  traceOods := P.oods.traceValues
  constraintOods := P.oods.constraintValues
  friLayers := HonestLayer.openAll P.layers P.queries
  lastLayer := P.lastLayer
  powNonce := P.nonce
  traceRows := P.queries.map fun q => rowAt P.columns (P.domain.queryPoint q)
  traceDecommitment := MerkleTree.openRows (P.table P.columns) P.queries
  constraintRows := P.queries.map fun q => rowAt P.drawnPieces (P.domain.queryPoint q)
  constraintDecommitment := MerkleTree.openRows (P.table P.drawnPieces) P.queries

/-- The points that the composition divides by lie off the evaluation domain. -/
def OffDomain : Prop :=
  ∀ q < P.parameters.evalSize,
    (∀ o ∈ P.parameters.traceLayout, P.domain.queryPoint q ≠ P.generator ^ o.row * P.pointDraw.1) ∧
      P.domain.queryPoint q ≠ P.pointDraw.1 ^ P.parameters.constraintDegree

/-! ## The verifier's challenges -/

theorem oods_transcript : Transcript.oods P.parameters P.seeded P.proof =
    ⟨P.constraintDraw.1, P.pointDraw.1, P.coefficientDraw.1, P.coefficientDraw.2⟩ := rfl

theorem friChallenges_eq : friChallenges P.parameters P.seeded P.proof =
    ⟨P.layers.map (·.challenge), P.work, P.folded.write (Bytes.ofWord P.nonce)⟩ := by
  have hdraws := foldChallenges_commitLayers (d := P.domain) P.coefficientDraw.2
    P.parameters.friLayout P.first
  have hroots : P.proof.friLayers.map (·.root) =
      P.layers.map fun l => MerkleTree.rootOf (Fri.cosetsOf l.step l.values) :=
    HonestLayer.map_root_openAll P.layers P.queries
  rw [friChallenges, oods_transcript, Transcript.fri, hroots]
  simp only [layers, commitment, hdraws]
  rfl

theorem layers_eq : Verifier.layers P.parameters P.seeded P.proof =
    (HonestLayer.openAll P.layers P.queries).zip
      ((P.layers.map (·.step)).zip (P.layers.map (·.challenge))) := by
  have hsteps : P.layers.map (·.step) = P.parameters.friLayout :=
    map_step_commitLayers _ _ _
  rw [Verifier.layers, friChallenges_eq, hsteps]
  rfl

/-! ## Sizes and queries -/

theorem length_drawnPieces : P.drawnPieces.length = P.parameters.constraintDegree :=
  P.pieces_length _

theorem domain_valid : P.domain.Valid := (Parameters.evalDomain_eq_ok_iff.mp P.domain_eq).2

theorem logSize_eq : P.domain.logSize = P.parameters.logEvalSize :=
  (Parameters.evalDomain_eq_ok_iff.mp P.domain_eq).1

theorem evalSize_eq : P.parameters.evalSize = 2 ^ P.domain.logSize := by
  rw [logSize_eq, P.valid.evalSize_eq_two_pow]

theorem sum_friLayout_le : P.parameters.friLayout.sum ≤ P.domain.logSize := by
  have := P.valid.sum_friLayout_le
  rw [logSize_eq, P.valid.logEvalSize_eq]
  omega

theorem folds_layers : HonestLayer.folds P.layers = P.parameters.friLayout.sum := by
  rw [HonestLayer.folds, layers, commitment, map_step_commitLayers]

theorem readQueries_eq : ∃ after, (P.folded.write (Bytes.ofWord P.nonce)).readQueries
    P.parameters.queries P.domain.logSize = .ok (P.queries, after) := by
  have hle := P.domain_valid.logSize_le
  obtain ⟨drawn, after, hread⟩ := Coin.exists_readQueries
    (P.folded.write (Bytes.ofWord P.nonce)) (show P.domain.logSize ≤ 64 by omega)
    (show P.parameters.queries ≤ 2 ^ P.domain.logSize from P.evalSize_eq ▸ P.valid.queries_le)
  exact ⟨after, by rw [queries, hread]⟩

theorem queries_spec : P.queries ≠ [] ∧ (∀ q ∈ P.queries, q < 2 ^ P.domain.logSize) ∧
    P.queries.Pairwise (· < ·) := by
  obtain ⟨after, hread⟩ := P.readQueries_eq
  exact Coin.of_readQueries hread P.valid.queries_ne_zero

theorem exists_queryPoint_eq_iff {x : Felt} :
    (∃ q < P.parameters.evalSize, P.domain.queryPoint q = x) ↔
      x ^ P.parameters.evalSize = Felt.generator ^ P.parameters.evalSize := by
  have hsize : P.domain.size = P.parameters.evalSize := P.evalSize_eq.symm
  rw [← hsize]
  exact P.domain_valid.exists_queryPoint_eq_iff

/-- With one piece, all is well unless the drawn point itself is a query point. -/
theorem offDomain (hdegree : P.parameters.constraintDegree = 1)
    (h : P.pointDraw.1 ^ P.parameters.evalSize ≠ Felt.generator ^ P.parameters.evalSize) :
    P.OffDomain := by
  have hsize : P.domain.size = P.parameters.evalSize := P.evalSize_eq.symm
  rw [← hsize] at h
  intro q hq
  rw [← hsize] at hq
  refine ⟨fun o _ => P.domain_valid.queryPoint_ne hq ?_ h, ?_⟩
  · -- the trace generator moves the point within its coset
    rw [hsize]
    exact P.valid.traceGenerator_pow P.generator_eq o.row
  · have hne := P.domain_valid.queryPoint_ne hq (one_pow _) h
    rwa [hdegree, pow_one, ← one_mul P.pointDraw.1]

/-! ## The composition -/

/-- The composition as a polynomial in the place of the domain, of which the query points are the
multiples by the field's generator. -/
noncomputable def firstPolynomial : Felt[X] :=
  scaled Felt.generator (deepPolynomial P.parameters P.generator P.columns P.drawnPieces
    P.pointDraw.1 P.coefficientDraw.1)

theorem degree_firstPolynomial_lt : P.firstPolynomial.degree < P.parameters.traceLength := by
  have hsucc : ((P.parameters.traceLength : Nat) : WithBot Nat) <
      (P.parameters.traceLength + 1 : Nat) := by
    exact_mod_cast Nat.lt_succ_self _
  refine degree_scaled_lt (degree_deepPolynomial_lt (fun f hf => ?_) (fun f hf => ?_) _ _ _)
  · exact lt_trans (P.columns_degree f hf) hsucc
  · exact lt_trans (P.pieces_degree _ f hf) hsucc

theorem deepComposition_table (h : P.OffDomain) {places : List Nat}
    (hplaces : ∀ q ∈ places, q < P.parameters.evalSize) :
    deepComposition P.parameters places
        (places.map fun q => rowAt P.columns (P.domain.queryPoint q))
        (places.map fun q => rowAt P.drawnPieces (P.domain.queryPoint q)) P.oods
        P.coefficientDraw.1 =
      .ok (places.map (Fri.valueOn P.domain P.domain.logSize P.firstPolynomial)) := by
  have hcount : P.coefficientDraw.1.length = P.parameters.oodsCoefficientCount :=
    Coin.length_readFelts _ _
  have hvalue (q : Nat) : Fri.valueOn P.domain P.domain.logSize P.firstPolynomial q =
      (deepPolynomial P.parameters P.generator P.columns P.drawnPieces P.pointDraw.1
        P.coefficientDraw.1).eval (P.domain.queryPoint q) := by
    rw [Fri.valueOn, firstPolynomial, eval_scaled, ← P.domain_valid.bitReversedElement_eq,
      EvalDomain.queryPoint]
  rw [oods, deepComposition_rowsAt P.domain_eq P.generator_eq P.columns_length P.length_drawnPieces
    hcount (fun q hq => (h q (hplaces q hq)).1) (fun q hq => (h q (hplaces q hq)).2)]
  exact congrArg Except.ok (List.map_congr_left fun q _ => (hvalue q).symm)

theorem deepComposition_first (h : P.OffDomain) :
    deepComposition P.parameters (List.range P.parameters.evalSize) (P.table P.columns)
      (P.table P.drawnPieces) P.oods P.coefficientDraw.1 = .ok P.first := by
  have hcomposed := P.deepComposition_table h fun q hq => List.mem_range.mp hq
  rw [table, table, first, table, table, hcomposed]

theorem first_eq (h : P.OffDomain) :
    P.first = Fri.layerOf P.domain P.domain.logSize P.firstPolynomial := by
  have hcomposed := P.deepComposition_table h fun q hq => List.mem_range.mp hq
  rw [first, table, table, hcomposed, P.evalSize_eq]
  rfl

/-! ## The checks -/

theorem length_table (polynomials : List Felt[X]) :
    (P.table polynomials).length = P.parameters.evalSize := by
  rw [table, List.length_map, List.length_range]

theorem isRootOf_table (polynomials : List Felt[X]) :
    MerkleTree.IsRootOf (MerkleTree.rootOf (P.table polynomials)) (P.table polynomials) :=
  MerkleTree.isRootOf_rootOf ((P.length_table _).trans P.evalSize_eq) P.domain_valid.logSize_le

theorem rowsOpened : RowsOpened P.proof P.parameters P.domain P.queries := by
  obtain ⟨hne, hrange, hascending⟩ := P.queries_spec
  have hmax : P.domain.logSize ≤ Merkle.maxDepth := P.domain_valid.logSize_le
  have hopened (polynomials : List Felt[X]) :
      Merkle.verify (MerkleTree.rootOf (P.table polynomials)) P.domain.logSize P.queries
        (P.queries.map fun q => rowAt polynomials (P.domain.queryPoint q))
        (MerkleTree.openRows (P.table polynomials) P.queries) = .ok true := by
    refine MerkleTree.verify_openRows ((P.length_table _).trans P.evalSize_eq) hmax hne hrange
      hascending ?_
    rw [List.map_map]
    apply List.map_congr_left
    intro q hq
    have hq' : q < P.parameters.evalSize := P.evalSize_eq ▸ hrange q hq
    rw [table, List.getElem?_map, List.getElem?_range hq']
    rfl
  have hwidth {polynomials : List Felt[X]} {width : Nat} (h : polynomials.length = width) :
      ∀ row ∈ P.queries.map fun q => rowAt polynomials (P.domain.queryPoint q),
        row.length = width := by
    rw [List.forall_mem_map]
    intro q _
    rw [length_rowAt, h]
  exact {
    trace_length := List.length_map _
    constraint_length := List.length_map _
    trace_columns := hwidth P.columns_length
    constraint_columns := hwidth P.length_drawnPieces
    trace_opened := hopened P.columns
    constraint_opened := hopened P.drawnPieces }

theorem layers_spec (h : P.OffDomain) :
    HonestLayer.HoldsPolynomial P.domain P.layers P.domain.logSize P.firstPolynomial ∧
      P.lastValues = Fri.layerOf P.domain (P.domain.logSize - P.parameters.friLayout.sum)
        (HonestLayer.foldAll P.layers P.firstPolynomial) := by
  have hcommitted := commitLayers_layerOf P.domain_valid P.coefficientDraw.2 le_rfl P.sum_friLayout_le P.firstPolynomial
  rwa [← P.first_eq h] at hcommitted

/-- Every layer that the prover commits to folds into the next without fault. -/
theorem foldsTo (h : P.OffDomain) :
    HonestLayer.FoldsTo P.domain P.layers P.first P.lastValues := by
  have hfolds := foldsTo_commitLayers P.domain_valid P.coefficientDraw.2 le_rfl P.sum_friLayout_le P.firstPolynomial
  rwa [← P.first_eq h] at hfolds

/-- The tables that the prover commits to. -/
noncomputable def tables : Tables :=
  ⟨P.table P.columns, P.table P.drawnPieces, P.layers.map (·.values)⟩

theorem tables_committedBy (h : P.OffDomain) :
    P.tables.CommittedBy P.proof P.parameters P.seeded := by
  have hwidth {polynomials : List Felt[X]} {width : Nat} (h : polynomials.length = width) :
      ∀ row ∈ P.table polynomials, row.length = width := by
    rw [table, List.forall_mem_map]
    intro q _
    rw [length_rowAt, h]
  have hlayers := layersCommitted_openAll P.domain_valid.logSize_le (P.layers_spec h).1 P.queries
  rw [← layers_eq, ← evalSize_eq] at hlayers
  exact {
    trace_length := P.length_table _
    trace_columns := hwidth P.columns_length
    trace_root := P.isRootOf_table _
    constraint_length := P.length_table _
    constraint_columns := hwidth P.length_drawnPieces
    constraint_root := P.isRootOf_table _
    layers := hlayers }

/-- The last polynomial has no more coefficients than the prover sends. -/
theorem degree_foldAll_lt : (HonestLayer.foldAll P.layers P.firstPolynomial).degree <
    (P.parameters.traceLength >>> P.parameters.friLayout.sum : Nat) := by
  have hle := P.valid.sum_friLayout_le
  have hdegree := P.degree_firstPolynomial_lt
  rw [P.valid.traceLength_eq] at hdegree
  have hlast := HonestLayer.degree_foldAll_lt
    (show HonestLayer.folds P.layers ≤ _ by rwa [folds_layers]) hdegree
  rwa [folds_layers, ← two_pow_shiftRight hle, ← P.valid.traceLength_eq] at hlast

theorem layerPolynomial_lastValues (h : P.OffDomain) :
    layerPolynomial P.domain P.lastValues = HonestLayer.foldAll P.layers P.firstPolynomial := by
  have hle := P.valid.sum_friLayout_le
  have hbound : P.parameters.traceLength >>> P.parameters.friLayout.sum ≤
      2 ^ (P.domain.logSize - P.parameters.friLayout.sum) := by
    have hlog := P.logSize_eq.trans P.valid.logEvalSize_eq
    have hpower := two_pow_shiftRight hle
    rw [← P.valid.traceLength_eq] at hpower
    rw [hpower]
    exact Nat.pow_le_pow_right Nat.two_pos (by omega)
  rw [(P.layers_spec h).2]
  apply layerPolynomial_layerOf P.domain_valid (Nat.sub_le _ _)
  exact lt_of_lt_of_le P.degree_foldAll_lt (by exact_mod_cast hbound)

theorem lastLayer_eq (h : P.OffDomain) :
    P.lastLayer = coefficients (P.parameters.traceLength >>> P.parameters.friLayout.sum)
      (HonestLayer.foldAll P.layers P.firstPolynomial) := by
  rw [lastLayer, P.layerPolynomial_lastValues h]

theorem friChecked {cs : ConstraintSystem} (hcs : cs.evaluateAtQueries = deepComposition)
    (h : P.OffDomain) :
    Nonempty (FriChecked cs P.proof P.parameters P.seeded P.domain P.queries) := by
  obtain ⟨hne, hrange, hascending⟩ := P.queries_spec
  have hplaces : ∀ q ∈ P.queries, q < P.parameters.evalSize := fun q hq => by
    rw [P.evalSize_eq]
    exact hrange q hq
  have hcomposed := P.deepComposition_table h hplaces
  obtain ⟨hholds, -⟩ := P.layers_spec h
  have hlayers := checkLayers_openLayers P.domain_valid 0 le_rfl hholds hne hrange
    hascending
  rw [← layers_eq, Fri.valuesAt] at hlayers
  have hle := P.domain_valid.logSize_le
  -- the folded polynomial is below the bound, so its coefficients are all sent
  have hlast := lastLayerMismatch_coefficients (d := P.domain)
    (HonestLayer.touchedLast P.layers P.queries)
    (show P.domain.logSize - HonestLayer.folds P.layers ≤ 64 by omega) P.degree_foldAll_lt
  rw [← P.lastLayer_eq h] at hlast
  exact ⟨{
    first := _
    folded := _
    lastLength := _
    first_eq := by rw [hcs]; exact hcomposed
    first_length := List.length_map _
    layers_eq := by rw [zip_map_self]; exact hlayers
    last_eq := hlast }⟩

theorem checkShapes_proof : P.proof.checkShapes P.parameters = .ok () := by
  have hlayers : P.layers.length = P.parameters.friLayout.length := by
    have hsteps := congrArg List.length
      (map_step_commitLayers (d := P.domain) P.coefficientDraw.2 P.parameters.friLayout P.first)
    rwa [List.length_map] at hsteps
  refine checkShapes_eq_ok_iff.mpr ⟨List.length_map _, ?_, ?_, ?_⟩
  · exact (length_rowAt _ _).trans P.length_drawnPieces
  · exact (HonestLayer.length_openAll _ _).trans hlayers
  · rw [P.valid.lastLayerDegreeBound_eq]
    exact length_coefficients _ _

theorem setUp_proof {cs : ConstraintSystem} (hinputs : P.publicInputs ≠ [])
    (hstart : cs.start P.publicInputs = .ok (P.parameters, P.seeded)) :
    setUp cs P.proof = .ok (P.parameters, P.seeded, P.domain) :=
  setUp_eq_ok_iff.mpr ⟨hinputs, hstart, Parameters.validate_eq_ok_iff.mpr P.valid,
    P.checkShapes_proof, P.domain_eq⟩

theorem drawQueries_proof (hwork : P.work.check P.nonce = true) :
    drawQueries P.proof P.parameters P.seeded P.domain = .ok P.queries := by
  obtain ⟨after, hread⟩ := P.readQueries_eq
  rw [drawQueries_eq_ok_iff, friChallenges_eq]
  exact ⟨⟨after, hread⟩, hwork⟩

/-- A proof made from polynomials of low degree is accepted by every program that combines the columns
to the pieces. -/
theorem accepted {cs : ConstraintSystem} (hcs : cs.evaluateAtQueries = deepComposition)
    (hinputs : P.publicInputs ≠ []) (hstart : cs.start P.publicInputs = .ok (P.parameters, P.seeded))
    (hcombine : cs.combine P.publicInputs P.parameters P.oods P.constraintDraw.1 =
      .ok (evalPoly P.oods.constraintValues P.pointDraw.1))
    (hoff : P.OffDomain) (hwork : P.work.check P.nonce = true) :
    verify cs P.proof = .ok .accepted := by
  obtain ⟨hfri⟩ := P.friChecked hcs hoff
  exact verify_eq_accepted_iff.mpr ⟨{
    p := P.parameters
    coin := P.seeded
    d := P.domain
    queries := P.queries
    setUp_eq := P.setUp_proof hinputs hstart
    oods_eq := checkOods_eq_ok_iff.mpr hcombine
    queries_eq := P.drawQueries_proof hwork
    rows := P.rowsOpened
    fri := hfri }⟩

/-! ## A program without constraints -/

/-- The prover whose polynomials are all zero. -/
noncomputable def zero {p : Parameters} (h : p.Valid) (publicInputs : Bytes) (nonce : UInt64) :
    Prover :=
  have hdegree (width : Nat) : ∀ f ∈ List.replicate width (0 : Felt[X]), f.degree < p.traceLength := by
    intro f hf
    rw [List.eq_of_mem_replicate hf]
    exact degree_zero_lt _
  { publicInputs := publicInputs
    seeded := .ofSeed publicInputs
    parameters := p
    domain := p.domain
    generator := p.domain.generator ^ p.blowup
    columns := List.replicate p.traceColumns 0
    pieces _ := List.replicate p.constraintDegree 0
    nonce := nonce
    valid := h
    domain_eq := h.evalDomain_eq
    generator_eq := h.traceGenerator_eq
    columns_length := List.length_replicate
    columns_degree := hdegree _
    pieces_length _ := List.length_replicate
    pieces_degree _ := hdegree _ }

theorem table_zero (width : Nat) : P.table (List.replicate width 0) =
    List.replicate P.parameters.evalSize (List.replicate width 0) := by
  simp [table, rowAt, List.map_const']

/-- The drawn point depends on the two roots alone. -/
theorem pointDraw_zero {p : Parameters} (h : p.Valid) (publicInputs : Bytes) (nonce : UInt64) :
    (zero h publicInputs nonce).pointDraw =
      (((Coin.ofSeed publicInputs).writeDigest (MerkleTree.rootOf
        (List.replicate p.evalSize (List.replicate p.traceColumns 0)))).writeDigest
          (MerkleTree.rootOf
            (List.replicate p.evalSize (List.replicate p.constraintDegree 0)))).readFelt := by
  have htrace : (zero h publicInputs nonce).traceRoot = MerkleTree.rootOf _ :=
    congrArg MerkleTree.rootOf ((zero h publicInputs nonce).table_zero p.traceColumns)
  have hconstraint : (zero h publicInputs nonce).constraintRoot = MerkleTree.rootOf _ :=
    congrArg MerkleTree.rootOf ((zero h publicInputs nonce).table_zero p.constraintDegree)
  rw [pointDraw, Transcript.oodsPoint, constraintDraw, Transcript.constraintCoefficients,
    Coin.writeDigest_congr (Coin.digest_readFelts _ _), htrace, hconstraint]
  rfl

end Prover

/-- A program that takes its parameters from nowhere and asks nothing of its trace. -/
def ConstraintSystem.unconstrained (p : Parameters) : ConstraintSystem where
  start publicInputs := .ok (p, .ofSeed publicInputs)
  combine _ _ _ _ := .ok 0

namespace Prover

theorem zero_accepted {p : Parameters} (h : p.Valid) {publicInputs : Bytes} {nonce : UInt64}
    (hinputs : publicInputs ≠ []) (hoff : (zero h publicInputs nonce).OffDomain)
    (hwork : (zero h publicInputs nonce).work.check nonce = true) :
    verify (.unconstrained p) (zero h publicInputs nonce).proof = .ok .accepted := by
  have hvalues : (zero h publicInputs nonce).oods.constraintValues =
      List.replicate p.constraintDegree 0 := by
    show rowAt (List.replicate p.constraintDegree 0) _ = _
    rw [rowAt, List.map_replicate, eval_zero]
  have heval (width : Nat) (x : Felt) : evalPoly (List.replicate width 0) x = 0 := by
    induction width with
    | zero => rfl
    | succ width ih =>
        rw [evalPoly] at ih ⊢
        rw [List.replicate_succ, List.foldr_cons, ih, zero_mul, zero_add]
  refine (zero h publicInputs nonce).accepted rfl hinputs rfl ?_ hoff hwork
  rw [hvalues, heval]
  rfl

end Prover

namespace Prover

/-- The point drawn in the smallest run is no query point. -/
theorem zero_offDomain_smallest : (zero Parameters.smallest_valid [0] 0).OffDomain := by
  apply offDomain _ rfl
  rw [pointDraw_zero]
  decide +kernel

theorem zero_accepted_smallest :
    verify (.unconstrained .smallest) (zero Parameters.smallest_valid [0] 0).proof = .ok .accepted :=
  zero_accepted _ (List.cons_ne_nil _ _) zero_offDomain_smallest rfl

end Prover
end StarkVerifier
