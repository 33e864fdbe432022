import StarkVerifier.Proofs.Fri.Cosets
import StarkVerifier.Proofs.Transcript.Binding
import StarkVerifier.Proofs.Verifier.Hashes
import StarkVerifier.Proofs.Verifier.Prover

/-!
# Accepted proofs are not malleable

The transcript fixes the challenges and the queries, the roots fix what is opened at them, and from the
opened rows on every layer fixes the values known in the next. Main statement: `eq_of_accepted`.
-/

namespace StarkVerifier

namespace Proof.SameAbsorbed

open Verifier

variable {proof proof' : Proof}

theorem oods_eq (h : proof.SameAbsorbed proof') (p : Parameters) (coin : Coin) :
    Transcript.oods p coin proof = Transcript.oods p coin proof' :=
  oods_congr h.traceRoot h.constraintRoot h.traceOods h.constraintOods p coin

theorem claimedOods_eq (h : proof.SameAbsorbed proof') (p : Parameters) (coin : Coin) :
    claimedOods p coin proof = claimedOods p coin proof' := by
  simp only [claimedOods, h.oods_eq, h.traceOods, h.constraintOods]

theorem friChallenges_eq (h : proof.SameAbsorbed proof') (p : Parameters) (coin : Coin) :
    friChallenges p coin proof = friChallenges p coin proof' :=
  friChallenges_congr (h.oods_eq p coin) h.friRoots h.lastLayer h.powNonce

theorem drawQueries_eq (h : proof.SameAbsorbed proof') (p : Parameters) (coin : Coin)
    (d : EvalDomain) : drawQueries proof p coin d = drawQueries proof' p coin d := by
  simp only [drawQueries, h.friChallenges_eq, h.powNonce]

end Proof.SameAbsorbed

namespace Verifier

/-- Equal known values and equal roots: the same supplied values, the same digests, and the same
values in the next layer. -/
theorem checkLayer_inj {d : EvalDomain} {number layerLength : Nat} {known : List (Nat × Felt)}
    {layer layer' : FriLayer} {step : Nat} {challenge : Felt} {folded folded' : List (Nat × Felt)}
    (hroot : layer.root = layer'.root)
    (h : checkLayer d number layerLength known layer step challenge = .ok folded)
    (h' : checkLayer d number layerLength known layer' step challenge = .ok folded') :
    Collides maskedKeccak (layerMessages number layerLength known layer step)
        (layerMessages number layerLength known layer' step) ∨
      layer = layer' ∧ folded = folded' := by
  obtain ⟨cosets, hcosets, hopened, hfolded⟩ := checkLayer_eq_ok_iff.mp h
  obtain ⟨cosets', hcosets', hopened', hfolded'⟩ := checkLayer_eq_ok_iff.mp h'
  have hplaces := Fri.map_fst_gatherCosets hcosets hcosets'
  have hwidth : ∀ row ∈ cosets.map (·.2), row.length = 2 ^ step := by
    rw [List.forall_mem_map]
    exact Fri.length_of_mem_gatherCosets hcosets
  have hwidth' : ∀ row ∈ cosets'.map (·.2), row.length = 2 ^ step := by
    rw [List.forall_mem_map]
    exact Fri.length_of_mem_gatherCosets hcosets'
  rw [layerMessages_eq hcosets, layerMessages_eq hcosets']
  rw [← hroot] at hopened'
  rw [← hplaces] at hopened' ⊢
  apply (Merkle.verify_inj hwidth hwidth' hopened hopened').imp_right
  rintro ⟨hmembers, hdecommitment⟩
  -- equal places and equal members: the verifier has folded the same cosets
  have hsame : cosets = cosets' := by
    rw [← Fri.zip_map_fst_map_snd cosets, ← Fri.zip_map_fst_map_snd cosets', hplaces, hmembers]
  subst hsame
  rw [hfolded, Except.ok.injEq] at hfolded'
  have hvalues := Fri.gatherCosets_inj hcosets hcosets'
  cases layer
  cases layer'
  simp_all

/-- Layers with the same roots, steps and challenges, from the first to the last. -/
theorem checkLayers_inj {d : EvalDomain} {layers layers' : List (FriLayer × Nat × Felt)}
    {number layerLength : Nat} {known : List (Nat × Felt)} {last last' : List (Nat × Felt) × Nat}
    (hroots : layers.map (fun l => (l.1.root, l.2)) = layers'.map (fun l => (l.1.root, l.2)))
    (h : checkLayers d layers number layerLength known = .ok last)
    (h' : checkLayers d layers' number layerLength known = .ok last') :
    Collides maskedKeccak (layersMessages d layers number layerLength known)
        (layersMessages d layers' number layerLength known) ∨ layers = layers' := by
  induction layers generalizing layers' number layerLength known with
  | nil => exact Or.inr (by simpa using hroots.symm)
  | cons l layers ih =>
      cases layers' with
      | nil => simp at hroots
      | cons l' layers' =>
          obtain ⟨layer, step, challenge⟩ := l
          obtain ⟨layer', step', challenge'⟩ := l'
          simp only [List.map_cons, List.cons.injEq, Prod.mk.injEq] at hroots
          obtain ⟨⟨hroot, rfl, rfl⟩, htail⟩ := hroots
          obtain ⟨folded, hfolded, hrest⟩ := checkLayers_cons_eq_ok_iff.mp h
          obtain ⟨folded', hfolded', hrest'⟩ := checkLayers_cons_eq_ok_iff.mp h'
          rw [layersMessages_cons_eq hfolded, layersMessages_cons_eq hfolded']
          rcases checkLayer_inj hroot hfolded hfolded' with hcollides | ⟨rfl, rfl⟩
          · exact Or.inl (hcollides.append_left _ _)
          rcases ih htail hrest hrest' with hcollides | rfl
          · exact Or.inl (hcollides.append_right _ _)
          · exact Or.inr rfl

/-- Of two accepted runs on one transcript: the same rows with the same digests. -/
theorem rows_inj {proof proof' : Proof} {p : Parameters} {d : EvalDomain} {queries : List Nat}
    (hsame : proof.SameAbsorbed proof') (h : RowsOpened proof p d queries)
    (h' : RowsOpened proof' p d queries) :
    Collides maskedKeccak (rowsMessages proof d queries) (rowsMessages proof' d queries) ∨
      (proof.traceRows = proof'.traceRows ∧ proof.traceDecommitment = proof'.traceDecommitment) ∧
        proof.constraintRows = proof'.constraintRows ∧
          proof.constraintDecommitment = proof'.constraintDecommitment := by
  have htrace := h.trace_opened
  have hconstraint := h.constraint_opened
  rw [hsame.traceRoot] at htrace
  rw [hsame.constraintRoot] at hconstraint
  rcases Merkle.verify_inj h.trace_columns h'.trace_columns htrace h'.trace_opened with
    hcollides | hrows
  · exact Or.inl (hcollides.append_left _ _)
  rcases Merkle.verify_inj h.constraint_columns h'.constraint_columns hconstraint
    h'.constraint_opened with hcollides | hrows'
  · exact Or.inl (hcollides.append_right _ _)
  · exact Or.inr ⟨hrows, hrows'⟩

/-- An accepted proof is determined by what its transcript takes in: no row, no supplied value and no
digest of an opening can be changed, added or left out. -/
theorem eq_of_accepted {cs : ConstraintSystem} {proof proof' : Proof}
    (h : verify cs proof = .ok .accepted) (h' : verify cs proof' = .ok .accepted)
    (hsame : proof.SameAbsorbed proof') :
    Collides maskedKeccak (merkleMessages cs proof) (merkleMessages cs proof') ∨
      proof = proof' := by
  obtain ⟨a⟩ := verify_eq_accepted_iff.mp h
  obtain ⟨a'⟩ := verify_eq_accepted_iff.mp h'
  rw [a.merkleMessages_eq, a'.merkleMessages_eq]
  obtain ⟨p, coin, d, queries, hsetUp, -, hqueries, hrows, ⟨first, folded, lastLength, hfirst, -,
    hlayers, -⟩⟩ := a
  obtain ⟨p', coin', d', queries', hsetUp', -, hqueries', hrows', ⟨first', folded', lastLength',
    hfirst', -, hlayers', -⟩⟩ := a'
  -- one transcript: the same challenges and the same queries
  obtain ⟨rfl, rfl, rfl⟩ := setUp_unique hsame.publicInputs hsetUp hsetUp'
  obtain rfl : queries = queries' := by
    rwa [hsame.drawQueries_eq, hqueries', Except.ok.injEq, eq_comm] at hqueries
  rcases rows_inj hsame hrows hrows' with hcollides | ⟨⟨htrace, htraceD⟩, hconstraint, hconstraintD⟩
  · exact Or.inl (hcollides.append_left _ _)
  -- equal rows compose to equal values in the first layer
  obtain rfl : first = first' := by
    rwa [hsame.claimedOods_eq, hsame.oods_eq, htrace, hconstraint, hfirst', Except.ok.injEq,
      eq_comm] at hfirst
  obtain ⟨-, -, -, hshapes, -⟩ := setUp_eq_ok_iff.mp hsetUp
  obtain ⟨-, -, -, hshapes', -⟩ := setUp_eq_ok_iff.mp hsetUp'
  obtain ⟨-, -, hlength, -⟩ := checkShapes_eq_ok_iff.mp hshapes
  obtain ⟨-, -, hlength', -⟩ := checkShapes_eq_ok_iff.mp hshapes'
  have hroots : (layers p coin proof).map (fun l => (l.1.root, l.2)) =
      (layers p coin proof').map (fun l => (l.1.root, l.2)) := by
    have hzip (proof : Proof) : (layers p coin proof).map (fun l => (l.1.root, l.2)) =
        (proof.friLayers.map (·.root)).zip
          (p.friLayout.zip (friChallenges p coin proof).foldChallenges) := by
      rw [layers, List.zip_map_left]
      rfl
    rw [hzip, hzip, hsame.friRoots, hsame.friChallenges_eq]
  rcases checkLayers_inj hroots hlayers hlayers' with hcollides | hlayersEq
  · exact Or.inl (hcollides.append_right _ _)
  have hfri : proof.friLayers = proof'.friLayers := by
    rw [← map_fst_layers coin hlength, ← map_fst_layers coin hlength', hlayersEq]
  obtain ⟨hinputs, htraceRoot, hconstraintRoot, htraceOods, hconstraintOods, -, hlast, hnonce⟩ :=
    hsame
  right
  cases proof
  cases proof'
  simp_all

theorem eq_of_accepted_zero :
    let proof := (Prover.zero Parameters.smallest_valid [0] 0).proof
    verify (.unconstrained .smallest) proof = .ok .accepted ∧ proof.SameAbsorbed proof ∧
      (Collides maskedKeccak (merkleMessages (.unconstrained .smallest) proof)
        (merkleMessages (.unconstrained .smallest) proof) ∨ proof = proof) := by
  intro proof
  have haccepted := Prover.zero_accepted_smallest
  have hsame : proof.SameAbsorbed proof := ⟨rfl, rfl, rfl, rfl, rfl, rfl, rfl, rfl⟩
  exact ⟨haccepted, hsame, eq_of_accepted haccepted haccepted hsame⟩

end Verifier
end StarkVerifier
