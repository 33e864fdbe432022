import StarkVerifier.Proofs.Fri.Accounting
import StarkVerifier.Proofs.Verifier.Hashes
import StarkVerifier.Proofs.Verifier.Prover

/-!
# What acceptance means for committed tables

When the roots of an accepted proof are those of whole tables, the rows and values that the run has seen
are the tables' own, and at every query the tables fold into each other from the composition down to the
polynomial of the last layer. Main statement: `tables_hold_at_queries`.
-/

namespace StarkVerifier

theorem Fri.lastLayerMismatch_eq_none_iff {folded : List (Nat × Felt)} {coefficients : List Felt}
    {layerLength : Nat} {d : EvalDomain} :
    lastLayerMismatch folded coefficients layerLength d = none ↔
      ∀ f ∈ folded, f.2 = Felt.evalPoly coefficients
        ((d.generator ^ (d.size / layerLength)) ^ bitReverse (trailingZeros layerLength) f.1) := by
  simp only [lastLayerMismatch, Option.map_eq_none_iff, List.find?_eq_none, decide_eq_true_eq,
    ne_eq, not_not]
  exact forall₂_congr fun f _ => eq_comm

namespace Verifier

/-! ## What trees hash, and what tables say -/

/-- What is hashed when the trees of the layers are built. -/
def layerTreeMessages : List (FriLayer × Nat × Felt) → List (List Felt) → List Bytes
  | (_, step, _) :: layers, table :: tables =>
    MerkleTree.messages (Fri.cosetsOf step table) ++ layerTreeMessages layers tables
  | _, _ => []

/-- What is hashed when the trees of all tables are built. -/
def Tables.messages (T : Tables) (layers : List (FriLayer × Nat × Felt)) : List Bytes :=
  MerkleTree.messages T.trace ++ MerkleTree.messages T.constraints ++
    layerTreeMessages layers T.layers

/-- The value `v` stands at place `i` of the first table, the coset around it folds to the value at that
coset's place in the next, and so on down to the polynomial of the last layer. -/
def FoldsDown (d : EvalDomain) (lastLayer : List Felt) :
    List (FriLayer × Nat × Felt) → List (List Felt) → Nat → Nat → Felt → Prop
  | (_, step, challenge) :: layers, table :: tables, length, i, v =>
    table[i]? = some v ∧
      ∃ w, Fri.foldCoset (Fri.cosetAt step table (i >>> step)) challenge (i >>> step) length d =
          .ok w ∧
        FoldsDown d lastLayer layers tables (length >>> step) (i >>> step) w
  | _, _, length, i, v =>
    v = Felt.evalPoly lastLayer
      ((d.generator ^ (d.size / length)) ^ bitReverse (trailingZeros length) i)

/-! ## One layer -/

/-- A checked layer has read its table, and what it passes on is the table folded. -/
theorem folds_of_checkLayer {d : EvalDomain} {number log step : Nat} {known : List (Nat × Felt)}
    {layer : FriLayer} {challenge : Felt} {folded : List (Nat × Felt)} {table : List Felt}
    (hlength : table.length = 2 ^ log) (hstep : step ≤ log)
    (hroot : MerkleTree.IsRootOf layer.root (Fri.cosetsOf step table))
    (hchain : (known.map (·.1)).IsChain (· < ·))
    (h : checkLayer d number (2 ^ log) known layer step challenge = .ok folded) :
    Collides maskedKeccak (MerkleTree.messages (Fri.cosetsOf step table))
        (layerMessages number (2 ^ log) known layer step) ∨
      (folded.map (·.1)).IsChain (· < ·) ∧
        ∀ k ∈ known, table[k.1]? = some k.2 ∧ ∃ w, (k.1 >>> step, w) ∈ folded ∧
          Fri.foldCoset (Fri.cosetAt step table (k.1 >>> step)) challenge (k.1 >>> step) (2 ^ log) d =
            .ok w := by
  obtain ⟨t, ht, hroot⟩ := hroot
  obtain ⟨cosets, hcosets, hopened, hfolded⟩ := checkLayer_eq_ok_iff.mp h
  have hmembers : ∀ row ∈ cosets.map (·.2), row.length = 2 ^ step := by
    rw [List.forall_mem_map]
    exact Fri.length_of_mem_gatherCosets hcosets
  rw [Nat.log2_two_pow, ← hroot] at hopened
  rw [layerMessages_eq hcosets, Nat.log2_two_pow]
  refine (MerkleTree.rows_of_verify ht (Fri.length_cosetsOf_of_length hlength hstep)
    Fri.length_of_mem_cosetsOf hmembers hopened).imp_right fun hrows => ?_
  obtain ⟨-, -, -, -, hascending, -⟩ := Merkle.verify_eq_true_iff.mp hopened
  rw [Fri.zip_map_fst_map_snd] at hrows
  refine ⟨map_fst_foldCosets hfolded ▸ hascending, fun k hk => ?_⟩
  obtain ⟨members, hmem, hread⟩ :=
    Fri.exists_coset_of_mem_known (List.isChain_iff_pairwise.mp hchain) hcosets k hk
  obtain ⟨w, hw, happly⟩ := exists_of_mem_foldCosets hfolded _ hmem
  rw [Fri.LayerFold.apply, if_pos (Fri.length_of_mem_gatherCosets hcosets _ hmem)] at happly
  -- the opened coset is the table's
  obtain ⟨-, hmembers⟩ := Fri.cosetsOf_getElem?.mp (hrows _ hmem)
  simp only at hmembers happly
  rw [hmembers, Fri.cosetAt_shiftRight_getElem?] at hread
  rw [hmembers] at happly
  exact ⟨hread, w, hw, happly⟩

/-! ## All layers -/

theorem foldsDown_of_checkLayers {d : EvalDomain} {lastLayer : List Felt}
    {layers : List (FriLayer × Nat × Felt)} {tables : List (List Felt)} {number log : Nat}
    {known : List (Nat × Felt)} {last : List (Nat × Felt) × Nat}
    (hsteps : (layers.map (·.2.1)).sum ≤ log) (hcommitted : LayersCommitted layers tables (2 ^ log))
    (hchain : (known.map (·.1)).IsChain (· < ·))
    (h : checkLayers d layers number (2 ^ log) known = .ok last)
    (hlast : Fri.lastLayerMismatch last.1 lastLayer last.2 d = none) :
    Collides maskedKeccak (layerTreeMessages layers tables)
        (layersMessages d layers number (2 ^ log) known) ∨
      ∀ k ∈ known, FoldsDown d lastLayer layers tables (2 ^ log) k.1 k.2 := by
  induction layers generalizing tables number log known with
  | nil =>
      obtain rfl := Except.ok.inj h
      exact Or.inr (Fri.lastLayerMismatch_eq_none_iff.mp hlast)
  | cons l layers ih =>
      obtain ⟨layer, step, challenge⟩ := l
      cases tables with
      | nil => exact hcommitted.elim
      | cons table tables =>
          obtain ⟨hlength, hroot, hrest⟩ := hcommitted
          have hsum : step + (layers.map (·.2.1)).sum ≤ log := hsteps
          have hstep : step ≤ log := by omega
          obtain ⟨folded, hfolded, htail⟩ := checkLayers_cons_eq_ok_iff.mp h
          rw [layersMessages_cons_eq hfolded, layerTreeMessages]
          rw [two_pow_shiftRight hstep] at hrest htail
          rcases folds_of_checkLayer hlength hstep hroot hchain hfolded with
            hcollides | ⟨hchain', hfolds⟩
          · exact Or.inl (hcollides.append_left _ _)
          rw [two_pow_shiftRight hstep]
          -- what this layer folds to is what the next one knows
          rcases ih (by omega) hrest hchain' htail with hcollides | hdown
          · exact Or.inl (hcollides.append_right _ _)
          right
          intro k hk
          obtain ⟨hread, w, hw, hfold⟩ := hfolds k hk
          rw [FoldsDown, two_pow_shiftRight hstep]
          exact ⟨hread, w, hfold, hdown _ hw⟩

/-! ## The composition -/

/-- The composition of several rows is that of each row. -/
theorem deepComposition_at {p : Parameters} {queries : List Nat} {traceRows rows : List (List Felt)}
    {oods : Oods} {coefficients first : List Felt}
    (h : deepComposition p queries traceRows rows oods coefficients = .ok first) {j q : Nat}
    {traceRow row : List Felt} (hq : queries[j]? = some q) (htrace : traceRows[j]? = some traceRow)
    (hrow : rows[j]? = some row) :
    ∃ v, first[j]? = some v ∧ deepComposition p [q] [traceRow] [row] oods coefficients = .ok [v] := by
  simp only [deepComposition, bind_eq_ok_iff, exists_unit_iff, expectLength_eq_ok_iff,
    mapM_eq_ok_iff] at h ⊢
  obtain ⟨hoods, hclaimed, hcount, -, -, domain, hdomain, generator, hgenerator, hvalues⟩ := h
  have hcell : (queries.zip (traceRows.zip rows))[j]? = some (q, traceRow, row) := by
    simp [List.getElem?_zip_eq_some, hq, htrace, hrow]
  obtain ⟨hj, hcell⟩ := List.getElem?_eq_some_iff.mp hcell
  have hj' : j < first.length := hvalues.length_eq ▸ hj
  have hvalue := hvalues.get hj hj'
  rw [List.get_eq_getElem, hcell] at hvalue
  refine ⟨first[j], List.getElem?_eq_getElem hj', hoods, hclaimed, hcount, rfl, rfl, domain, hdomain,
    generator, hgenerator, ?_⟩
  exact .cons hvalue .nil

/-- The rows that an accepted run has opened are the tables' own. -/
theorem tables_of_rows {T : Tables} {proof : Proof} {p : Parameters} {coin : Coin} {d : EvalDomain}
    {queries : List Nat} (hsize : p.evalSize = 2 ^ d.logSize) (hT : T.CommittedBy proof p coin)
    (hrows : RowsOpened proof p d queries) :
    Collides maskedKeccak (MerkleTree.messages T.trace ++ MerkleTree.messages T.constraints)
        (rowsMessages proof d queries) ∨
      (∀ r ∈ queries.zip proof.traceRows, T.trace[r.1]? = some r.2) ∧
        ∀ r ∈ queries.zip proof.constraintRows, T.constraints[r.1]? = some r.2 := by
  obtain ⟨t, ht, hroot⟩ := hT.trace_root
  obtain ⟨t', ht', hroot'⟩ := hT.constraint_root
  have htrace := hrows.trace_opened
  have hconstraint := hrows.constraint_opened
  rw [← hroot] at htrace
  rw [← hroot'] at hconstraint
  rcases MerkleTree.rows_of_verify ht (hT.trace_length.trans hsize) hT.trace_columns
    hrows.trace_columns htrace with hcollides | hread
  · exact Or.inl (hcollides.append_left _ _)
  rcases MerkleTree.rows_of_verify ht' (hT.constraint_length.trans hsize) hT.constraint_columns
    hrows.constraint_columns hconstraint with hcollides | hread'
  · exact Or.inl (hcollides.append_right _ _)
  · exact Or.inr ⟨hread, hread'⟩

/-- At every query of an accepted proof: the opened rows are the tables', the first layer holds their
composition, and the layers fold into each other down to the polynomial of the last layer. -/
theorem tables_hold_at_queries {cs : ConstraintSystem} {proof : Proof} {p : Parameters} {coin : Coin}
    {d : EvalDomain} {queries : List Nat} {T : Tables}
    (hcs : cs.evaluateAtQueries = deepComposition) (haccepted : verify cs proof = .ok .accepted)
    (hsetUp : setUp cs proof = .ok (p, coin, d)) (hqueries : drawQueries proof p coin d = .ok queries)
    (hT : T.CommittedBy proof p coin) :
    Collides maskedKeccak (T.messages (layers p coin proof)) (merkleMessages cs proof) ∨
      ∀ j q : Nat, queries[j]? = some q → ∃ traceRow row v,
        (proof.traceRows[j]? = some traceRow ∧ T.trace[q]? = some traceRow) ∧
          (proof.constraintRows[j]? = some row ∧ T.constraints[q]? = some row) ∧
            deepComposition p [q] [traceRow] [row] (claimedOods p coin proof)
                (Transcript.oods p coin proof).oodsCoefficients = .ok [v] ∧
              FoldsDown d proof.lastLayer (layers p coin proof) T.layers p.evalSize q v := by
  obtain ⟨a⟩ := verify_eq_accepted_iff.mp haccepted
  rw [a.merkleMessages_eq]
  obtain ⟨p', coin', d', queries', hsetUp', -, hqueries', hrows, ⟨first, folded, lastLength, hfirst,
    hlength, hlayers, hlast⟩⟩ := a
  rw [hsetUp, Except.ok.injEq, Prod.mk.injEq, Prod.mk.injEq] at hsetUp'
  obtain ⟨rfl, rfl, rfl⟩ := hsetUp'
  obtain rfl := Except.ok.inj (hqueries.symm.trans hqueries')
  -- the values that the run has passed on are now those of the statement
  have hsize := evalSize_of_setUp hsetUp
  rcases tables_of_rows hsize hT hrows with hcollides | ⟨htrace, hconstraint⟩
  · exact Or.inl (hcollides.append_left _ _)
  have hascending : ((queries.zip first).map (·.1)).IsChain (· < ·) := by
    obtain ⟨-, -, -, -, hchain, -⟩ := Merkle.verify_eq_true_iff.mp hrows.trace_opened
    rwa [List.map_fst_zip (by rw [hlength])]
  have hcommitted := hT.layers
  rw [hsize] at hcommitted
  rcases foldsDown_of_checkLayers (sum_steps_le_of_setUp hsetUp) hcommitted hascending hlayers
    hlast with hcollides | hdown
  · exact Or.inl (hcollides.append_right _ _)
  right
  intro j q hq
  have hj := (List.getElem?_eq_some_iff.mp hq).1
  obtain ⟨traceRow, htraceRow⟩ : ∃ row, proof.traceRows[j]? = some row :=
    ⟨_, List.getElem?_eq_getElem (by rw [hrows.trace_length]; exact hj)⟩
  obtain ⟨row, hrow⟩ : ∃ row, proof.constraintRows[j]? = some row :=
    ⟨_, List.getElem?_eq_getElem (by rw [hrows.constraint_length]; exact hj)⟩
  rw [hcs] at hfirst
  obtain ⟨v, hv, hcomposed⟩ := deepComposition_at hfirst hq htraceRow hrow
  have hread := htrace (q, traceRow)
    (List.mem_of_getElem? (List.getElem?_zip_eq_some.mpr ⟨hq, htraceRow⟩))
  have hread' := hconstraint (q, row)
    (List.mem_of_getElem? (List.getElem?_zip_eq_some.mpr ⟨hq, hrow⟩))
  have hfolds := hdown (q, v) (List.mem_of_getElem? (List.getElem?_zip_eq_some.mpr ⟨hq, hv⟩))
  rw [hsize]
  exact ⟨traceRow, row, v, ⟨htraceRow, hread⟩, ⟨hrow, hread'⟩, hcomposed, hfolds⟩

theorem tables_hold_at_queries_zero :
    let P := Prover.zero Parameters.smallest_valid [0] 0
    verify (.unconstrained .smallest) P.proof = .ok .accepted ∧
      setUp (.unconstrained .smallest) P.proof = .ok (P.parameters, P.seeded, P.domain) ∧
      drawQueries P.proof P.parameters P.seeded P.domain = .ok P.queries ∧
      P.tables.CommittedBy P.proof P.parameters P.seeded ∧
      (Collides maskedKeccak (P.tables.messages (layers P.parameters P.seeded P.proof))
          (merkleMessages (.unconstrained .smallest) P.proof) ∨
        ∀ j q : Nat, P.queries[j]? = some q → ∃ traceRow row v,
          (P.proof.traceRows[j]? = some traceRow ∧ P.tables.trace[q]? = some traceRow) ∧
            (P.proof.constraintRows[j]? = some row ∧ P.tables.constraints[q]? = some row) ∧
              deepComposition P.parameters [q] [traceRow] [row]
                  (claimedOods P.parameters P.seeded P.proof)
                  (Transcript.oods P.parameters P.seeded P.proof).oodsCoefficients = .ok [v] ∧
                FoldsDown P.domain P.proof.lastLayer (layers P.parameters P.seeded P.proof)
                  P.tables.layers P.parameters.evalSize q v) := by
  intro P
  have haccepted : verify (.unconstrained .smallest) P.proof = .ok .accepted :=
    Prover.zero_accepted_smallest
  have hsetUp : setUp (.unconstrained .smallest) P.proof = .ok (P.parameters, P.seeded, P.domain) :=
    P.setUp_proof (List.cons_ne_nil _ _) rfl
  have hqueries := P.drawQueries_proof rfl
  have hcommitted := P.tables_committedBy Prover.zero_offDomain_smallest
  exact ⟨haccepted, hsetUp, hqueries, hcommitted,
    tables_hold_at_queries rfl haccepted hsetUp hqueries hcommitted⟩

end Verifier
end StarkVerifier
