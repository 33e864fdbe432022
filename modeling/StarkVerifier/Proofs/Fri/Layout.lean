import StarkVerifier.Proofs.Fri.Completeness
import StarkVerifier.Proofs.Parameters

/-!
# Layers of any layout

The layers of a polynomial of low degree pass every check, however the parameters divide the folds among
them, and the last layer is a polynomial of which the coefficients are weighted sums of the first one's.
Main statement: `layers_complete`.
-/

namespace StarkVerifier

open Polynomial Felt

namespace Fri

/-- The digits of `m` in the mixed base of the steps, each the exponent of its layer's challenge. -/
def digitWeight : List (Nat × Felt) → Nat → Felt
  | [], _ => 1
  | (step, challenge) :: rest, m =>
    challenge ^ (m % 2 ^ step) * digitWeight rest (m / 2 ^ step)

end Fri

namespace Verifier

open Fri

namespace HonestLayer

/-- How a layer folds. -/
def fold (l : HonestLayer) : Nat × Felt := (l.step, l.challenge)

theorem mixes_foldAll (layers : List HonestLayer) (f : Felt[X]) :
    Mixes (2 ^ folds layers) (digitWeight (layers.map fold)) f (foldAll layers f) := by
  induction layers generalizing f with
  | nil =>
      intro j
      simp [folds, foldAll, digitWeight]
  | cons l layers ih =>
      have hsum : folds (l :: layers) = l.step + folds layers := rfl
      rw [hsum, Nat.pow_add]
      exact (mixes_foldMany l.step l.challenge f).trans (ih _)

end HonestLayer

open HonestLayer

variable {d : EvalDomain}

/-! ## Layers that pass -/

/-- A layer passes where the known values lead: its prover takes the root and the digests from the tree
over its cosets, the gathered cosets are its own, they open, and they fold to values of the next layer. -/
structure LayerPasses (d : EvalDomain) (number : Nat) (l : HonestLayer) (next : List Felt)
    (positions : List Nat) : Prop where
  committed : ∃ tree, MerkleTree.ofLeaves (cosetsOf l.step l.values) = .ok tree ∧
    tree.root = (openLayer l.step l.values positions).root ∧
      tree.openAt (touched l.step positions) = .ok (openLayer l.step l.values positions).decommitment
  gathered : gatherCosets (valuesAt (fun i => l.values[i]?.getD 0) positions) l.step
      (openLayer l.step l.values positions).values number =
    .ok ((touched l.step positions).map fun c => (c, cosetAt l.step l.values c))
  opened : Merkle.verify (openLayer l.step l.values positions).root (l.values.length.log2 - l.step)
    (touched l.step positions) ((touched l.step positions).map (cosetAt l.step l.values))
    (openLayer l.step l.values positions).decommitment = .ok true
  folded : foldCosets ⟨l.challenge, 2 ^ l.step, l.values.length, d⟩
      ((touched l.step positions).map fun c => (c, cosetAt l.step l.values c)) =
    .ok (valuesAt (fun i => next[i]?.getD 0) (touched l.step positions))

/-- Every layer passes, the known values of each being those that the layer before folds to. -/
def LayersPass (d : EvalDomain) : Nat → List HonestLayer → List Felt → List Nat → Prop
  | _, [], _, _ => True
  | number, l :: layers, last, positions =>
    LayerPasses d number l ((layers.head?.map (·.values)).getD last) positions ∧
      LayersPass d (number + 1) layers last (touched l.step positions)

theorem FoldsTo.head_eq {layers : List HonestLayer} {first last : List Felt}
    (h : FoldsTo d layers first last) : (layers.head?.map (·.values)).getD last = first := by
  cases layers with
  | nil => exact Eq.symm h
  | cons l layers => exact h.1

/-- The prover's records name what its tree gives. -/
theorem exists_tree_openLayer {step log : Nat} {layer : List Felt} {positions : List Nat}
    (h : PlacesWithin log positions) (hlength : layer.length = 2 ^ log) (hstep : step ≤ log)
    (hmax : log ≤ Merkle.maxDepth) :
    ∃ tree, MerkleTree.ofLeaves (cosetsOf step layer) = .ok tree ∧
      tree.root = (openLayer step layer positions).root ∧
        tree.openAt (touched step positions) = .ok (openLayer step layer positions).decommitment := by
  obtain ⟨tree, htree, hdepth⟩ := MerkleTree.exists_ofLeaves
    (length_cosetsOf_of_length hlength hstep) (show log - step ≤ Merkle.maxDepth by omega)
  have htouched := h.touched hstep
  have hopen := MerkleTree.openAt_eq_ok (t := tree) htouched.ne_nil (by rw [hdepth]; exact htouched.lt)
    htouched.ascending
  refine ⟨tree, htree, ?_, ?_⟩
  · simp only [openLayer, MerkleTree.rootOf, htree]
  · simp only [openLayer, MerkleTree.openRows, htree, bind, Except.bind, hopen]

theorem mapM_range_eq_ok {ε α : Type} {f : Nat → Except ε α} {count : Nat} {as : List α}
    (h : (List.range count).mapM f = .ok as) :
    as.length = count ∧ ∀ i < count, ∃ a, as[i]? = some a ∧ f i = .ok a := by
  obtain ⟨hlength, hsteps⟩ := List.forall₂_iff_get.mp (mapM_eq_ok_iff.mp h)
  rw [List.length_range] at hlength
  refine ⟨hlength.symm, fun i hi => ⟨as[i], List.getElem?_eq_getElem _, ?_⟩⟩
  have hstep := hsteps i (by rwa [List.length_range]) (by rwa [← hlength])
  rwa [List.get_eq_getElem, List.get_eq_getElem, List.getElem_range] at hstep

theorem layerPasses_of_folds (number : Nat) {l : HonestLayer} {log : Nat} {next : List Felt}
    {positions : List Nat} (h : PlacesWithin log positions) (hlength : l.values.length = 2 ^ log)
    (hstep : l.step ≤ log) (hmax : log ≤ Merkle.maxDepth)
    (hfolds : (List.range (l.values.length / 2 ^ l.step)).mapM (fun c =>
      foldCoset (cosetAt l.step l.values c) l.challenge c l.values.length d) = .ok next) :
    LayerPasses d number l next positions where
  committed := exists_tree_openLayer h hlength hstep hmax
  gathered := gatherCosets_openLayer h hlength hstep number
  opened := by
    rw [hlength, Nat.log2_two_pow]
    exact verify_openLayer h hlength hstep hmax
  folded := by
    apply foldCosets_map
    intro c hc
    have hcount := h.lt_count hlength hstep c hc
    obtain ⟨v, hv, hfold⟩ := (mapM_range_eq_ok hfolds).2 c hcount
    rw [LayerFold.apply, if_pos (length_cosetAt hcount), hfold, hv, Option.getD_some]

/-- Layers that fold into each other pass, whatever the first one holds. -/
theorem layersPass_of_foldsTo (number : Nat) {layers : List HonestLayer} {log : Nat}
    {first last : List Felt} {positions : List Nat} (h : FoldsTo d layers first last)
    (hplaces : PlacesWithin log positions) (hlength : first.length = 2 ^ log)
    (hsteps : folds layers ≤ log) (hmax : log ≤ Merkle.maxDepth) :
    LayersPass d number layers last positions := by
  induction layers generalizing number log first positions with
  | nil => trivial
  | cons l layers ih =>
      obtain ⟨rfl, next, hfolds, hrest⟩ := h
      have hsum : folds (l :: layers) = l.step + folds layers := rfl
      have hstep : l.step ≤ log := by omega
      have hnext : next.length = 2 ^ (log - l.step) := by
        rw [(mapM_range_eq_ok hfolds).1, hlength, two_pow_div_two_pow hstep]
      rw [LayersPass, FoldsTo.head_eq hrest]
      exact ⟨layerPasses_of_folds number hplaces hlength hstep hmax hfolds,
        ih (number + 1) hrest (hplaces.touched hstep) hnext (by omega) (by omega)⟩

/-- Layers that pass take the verifier from the known values of the first to those of the last. -/
theorem checkLayers_of_layersPass (number : Nat) {layers : List HonestLayer} {first last : List Felt}
    {positions : List Nat} (h : FoldsTo d layers first last)
    (hpass : LayersPass d number layers last positions) :
    checkLayers d ((openAll layers positions).zip (layers.map fold)) number first.length
        (valuesAt (fun i => first[i]?.getD 0) positions) =
      .ok (valuesAt (fun i => last[i]?.getD 0) (touchedLast layers positions),
        first.length >>> folds layers) := by
  induction layers generalizing number first positions with
  | nil =>
      obtain rfl : first = last := h
      rfl
  | cons l layers ih =>
      obtain ⟨rfl, next, hfolds, hrest⟩ := h
      rw [LayersPass, FoldsTo.head_eq hrest] at hpass
      have hsum : folds (l :: layers) = l.step + folds layers := rfl
      have hnext : l.values.length >>> l.step = next.length := by
        rw [(mapM_range_eq_ok hfolds).1, Nat.shiftRight_eq_div_pow]
      have hplaces : ((touched l.step positions).map fun c =>
          (c, cosetAt l.step l.values c)).map (·.1) = touched l.step positions := by
        simp [Function.comp_def]
      rw [openAll, List.map_cons, fold, List.zip_cons_cons, checkLayers_cons_eq_ok_iff]
      refine ⟨_, checkLayer_eq_ok_iff.mpr ⟨_, hpass.1.gathered, ?_, hpass.1.folded⟩, ?_⟩
      · rw [hplaces, List.map_map]
        exact hpass.1.opened
      · rw [hnext, ih (number + 1) hrest hpass.2, hsum, Nat.shiftRight_add, hnext]
        rfl

/-! ## Where the queries lead -/

theorem touched_touched {a b : Nat} {positions : List Nat} (h : positions.Pairwise (· < ·)) :
    touched b (touched a positions) = touched (a + b) positions := by
  apply eq_of_ascending (pairwise_touched (pairwise_touched h)) (pairwise_touched h)
  intro c
  simp [mem_touched, Nat.shiftRight_add]

theorem touchedLast_eq {layers : List HonestLayer} {positions : List Nat}
    (h : positions.Pairwise (· < ·)) : touchedLast layers positions = touched (folds layers) positions := by
  induction layers generalizing positions with
  | nil =>
      apply eq_of_ascending h (pairwise_touched h)
      intro c
      simp [mem_touched, folds]
  | cons l layers ih =>
      have hsum : folds (l :: layers) = l.step + folds layers := rfl
      rw [touchedLast, ih (pairwise_touched h), touched_touched h, hsum]

/-! ## The layers of a polynomial -/

/-- The layers of a polynomial, for given folds. -/
noncomputable def layersOf (d : EvalDomain) : List (Nat × Felt) → Nat → Felt[X] → List HonestLayer
  | [], _, _ => []
  | (step, challenge) :: rest, log, f =>
    ⟨step, challenge, layerOf d log f⟩ :: layersOf d rest (log - step) (foldMany step challenge f)

theorem map_fold_layersOf (folds : List (Nat × Felt)) (log : Nat) (f : Felt[X]) :
    (layersOf d folds log f).map fold = folds := by
  induction folds generalizing log f with
  | nil => rfl
  | cons l folds ih => rw [layersOf, List.map_cons, ih, fold]

theorem folds_eq_of_map_fold {layers : List HonestLayer} {steps : List Nat} {challenges : List Felt}
    (h : layers.map fold = steps.zip challenges) (hcount : challenges.length = steps.length) :
    folds layers = steps.sum := by
  have hsteps : layers.map (·.step) = (layers.map fold).map (·.1) := by
    rw [List.map_map]
    rfl
  rw [folds, hsteps, h, List.map_fst_zip (Nat.le_of_eq hcount.symm)]

theorem holdsPolynomial_layersOf {folds : List (Nat × Felt)} {log : Nat}
    (h : (folds.map (·.1)).sum ≤ log) (f : Felt[X]) :
    HoldsPolynomial d (layersOf d folds log f) log f := by
  induction folds generalizing log f with
  | nil => trivial
  | cons l folds ih =>
      rw [List.map_cons, List.sum_cons] at h
      exact ⟨rfl, by simp only; omega, ih (by omega) _⟩

theorem coefficients_foldAll (bound : Nat) (layers : List HonestLayer) (f : Felt[X]) :
    coefficients bound (foldAll layers f) = (List.range bound).map fun j =>
      2 ^ folds layers * ∑ m ∈ Finset.range (2 ^ folds layers),
        f.coeff (j * 2 ^ folds layers + m) * digitWeight (layers.map fold) m := by
  apply List.map_congr_left
  intro j _
  rw [mixes_foldAll layers f j, Nat.cast_pow, Nat.cast_two]

/-- For valid parameters, whatever their layout, the layers of a polynomial below the length of the trace
pass at any queries and under any challenges, and what the queries lead to in the last layer agrees with
the coefficients that the folds make of the polynomial's own. -/
theorem layers_complete {p : Parameters} {f : Felt[X]} {positions : List Nat} {challenges : List Felt}
    (hvalid : p.validate = .ok ()) (hf : f.degree < p.traceLength) (hne : positions ≠ [])
    (hascending : positions.Pairwise (· < ·)) (hrange : ∀ i ∈ positions, i < p.evalSize)
    (hcount : challenges.length = p.friLayout.length) :
    ∃ d layers last, p.evalDomain = .ok d ∧ layers.map fold = p.friLayout.zip challenges ∧
      FoldsTo d layers ((List.range p.evalSize).map fun i =>
        f.eval (d.generator ^ bitReverse p.evalSize.log2 i)) last ∧
      LayersPass d 0 layers last positions ∧
      checkLayers d ((openAll layers positions).zip (p.friLayout.zip challenges)) 0 p.evalSize
          (valuesAt (fun i => f.eval (d.generator ^ bitReverse p.evalSize.log2 i)) positions) =
        .ok (valuesAt (fun i => last[i]?.getD 0) (touched p.friLayout.sum positions),
          p.evalSize >>> p.friLayout.sum) ∧
      lastLayerMismatch (valuesAt (fun i => last[i]?.getD 0) (touched p.friLayout.sum positions))
        ((List.range (p.traceLength >>> p.friLayout.sum)).map fun j =>
          2 ^ p.friLayout.sum * ∑ m ∈ Finset.range (2 ^ p.friLayout.sum),
            f.coeff (j * 2 ^ p.friLayout.sum + m) * digitWeight (p.friLayout.zip challenges) m)
        (p.evalSize >>> p.friLayout.sum) d = none := by
  have h := Parameters.validate_eq_ok_iff.mp hvalid
  have hdomain := h.evalDomain_eq
  obtain ⟨hlog, hd⟩ := Parameters.evalDomain_eq_ok_iff.mp hdomain
  generalize p.domain = d at hdomain hlog hd
  have hsize : p.evalSize = 2 ^ d.logSize := by rw [hlog, h.evalSize_eq_two_pow]
  have hsum : p.friLayout.sum ≤ d.logSize := by
    have := h.sum_friLayout_le
    rw [hlog, h.logEvalSize_eq]
    omega
  have hfolds := map_fold_layersOf (d := d) (p.friLayout.zip challenges) d.logSize f
  have hsteps : folds (layersOf d (p.friLayout.zip challenges) d.logSize f) = p.friLayout.sum :=
    folds_eq_of_map_fold hfolds hcount
  have hholds : HoldsPolynomial d (layersOf d (p.friLayout.zip challenges) d.logSize f) d.logSize f := by
    apply holdsPolynomial_layersOf
    rwa [List.map_fst_zip (Nat.le_of_eq hcount.symm)]
  generalize layersOf d (p.friLayout.zip challenges) d.logSize f = layers at hfolds hsteps hholds
  have hto := foldsTo_of_holdsPolynomial hd le_rfl hholds
  rw [hsize] at hrange
  have hpass := layersPass_of_foldsTo 0 hto ⟨hne, hrange, hascending⟩ (length_layerOf _ f) (by omega)
    hd.logSize_le
  have hpoint (i : Nat) : d.generator ^ bitReverse p.evalSize.log2 i = d.point d.logSize i := by
    rw [hsize, Nat.log2_two_pow, EvalDomain.point, EvalDomain.size, Nat.div_self (Nat.two_pow_pos _),
      pow_one]
  have hloop := checkLayers_of_layersPass 0 hto hpass
  rw [valuesAt_layerOf f hrange, length_layerOf, hfolds, touchedLast_eq hascending, hsteps] at hloop
  refine ⟨d, layers, _, hdomain, hfolds, ?_, hpass, ?_, ?_⟩
  · simp only [hpoint]
    rw [hsize]
    exact hto
  · simp only [hpoint, hsteps]
    rw [hsize]
    exact hloop
  · -- the last layer holds the folded polynomial, of which these are the coefficients
    have hdegree : (foldAll layers f).degree < (p.traceLength >>> p.friLayout.sum : Nat) := by
      have hle : folds layers ≤ p.traceLength.log2 := hsteps ▸ h.sum_friLayout_le
      have hbound := degree_foldAll_lt hle (h.traceLength_eq ▸ hf)
      rwa [hsteps, ← two_pow_shiftRight h.sum_friLayout_le, ← h.traceLength_eq] at hbound
    have hwidth : d.logSize - p.friLayout.sum ≤ 64 := by
      have := hd.logSize_le
      omega
    have hmismatch := lastLayerMismatch_coefficients (d := d) (touched p.friLayout.sum positions) hwidth
      hdegree
    rw [coefficients_foldAll, hfolds, hsteps] at hmismatch
    rw [hsteps, valuesAt_layerOf _ (lt_of_mem_touched hsum hrange), hsize, two_pow_shiftRight hsum]
    exact hmismatch

/-- Sixteen points folded by four and by two: of the coefficients 3, 0, 0, 0, 0, 1 remains
`8 * (3 + 2 * 3)`. -/
theorem layers_complete_sixteen :
    let p : Parameters := ⟨1, 8, 1, 2, 1, 0, 3, [2, 1], [⟨0, 0⟩]⟩
    let f : Felt[X] := X ^ 5 + C 3
    p.validate = .ok () ∧ f.degree < (8 : Nat) ∧
      ∃ d layers last, p.evalDomain = .ok d ∧ layers.map fold = [(2, 2), (1, 3)] ∧
        FoldsTo d layers ((List.range 16).map fun i => f.eval (d.generator ^ bitReverse 4 i)) last ∧
        LayersPass d 0 layers last [1, 6, 11] ∧
        lastLayerMismatch (valuesAt (fun i => last[i]?.getD 0) [0, 1]) [72] 2 d = none := by
  intro p f
  have hvalid : (⟨1, 8, 1, 2, 1, 0, 3, [2, 1], [⟨0, 0⟩]⟩ : Parameters).validate = .ok () := by rfl
  have hdegree : f.degree < (8 : Nat) := by
    rw [degree_X_pow_add_C (by decide)]
    exact_mod_cast (by decide : 5 < 8)
  have hne : [1, 6, 11] ≠ ([] : List Nat) := by decide
  have hcount : ([2, 3] : List Felt).length = [2, 1].length := rfl
  obtain ⟨d, layers, last, hd, hfolds, hto, hpass, -, hlast⟩ := layers_complete hvalid hdegree hne
    (by decide) (by decide) hcount
  refine ⟨hvalid, hdegree, d, layers, last, hd, hfolds, hto, hpass, ?_⟩
  have hcoefficients : (List.range 1).map (fun j => 2 ^ 3 * ∑ m ∈ Finset.range (2 ^ 3),
      f.coeff (j * 2 ^ 3 + m) * digitWeight [(2, 2), (1, 3)] m) = [72] := by
    simp only [List.range_one, List.map_singleton, f, coeff_add, coeff_X_pow, coeff_C]
    decide +kernel
  exact hcoefficients ▸ hlast

end Verifier
end StarkVerifier
