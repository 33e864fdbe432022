import StarkVerifier.Proofs.Field.Interpolation
import StarkVerifier.Proofs.Fri.Folding
import StarkVerifier.Proofs.Fri.Gathering
import StarkVerifier.Proofs.Merkle.Opening
import StarkVerifier.Proofs.Verifier.Phases

/-!
# Honest layers are accepted

A prover commits to the layers of a polynomial of low degree and opens the cosets that the queries
touch. Every layer then passes its checks, and the last one is the polynomial it is compared with. Main
statements: `checkLayers_openLayers` and `lastLayerMismatch_coefficients`.
-/

namespace StarkVerifier

open Polynomial Felt

namespace Fri

variable {d : EvalDomain}

/-! ## The prover's layers -/

/-- The next layer: every coset folded. -/
def foldLayer (d : EvalDomain) (step : Nat) (challenge : Felt) (layer : List Felt) : List Felt :=
  (List.range (layer.length / 2 ^ step)).map fun c =>
    match foldCoset (cosetAt step layer c) challenge c layer.length d with
    | .ok v => v
    | .error _ => 0

/-- What a prover that holds a layer says about it for the given positions. -/
def openLayer (step : Nat) (layer : List Felt) (positions : List Nat) : FriLayer where
  root := MerkleTree.rootOf (cosetsOf step layer)
  values := suppliedValues step (fun i => layer[i]?.getD 0) positions
  decommitment := MerkleTree.openRows (cosetsOf step layer) (touched step positions)

/-- The value of a polynomial at place `i` of the layer of length `2 ^ log`. -/
noncomputable def valueOn (d : EvalDomain) (log : Nat) (f : Felt[X]) (i : Nat) : Felt :=
  f.eval (d.point log i)

theorem foldLayer_layerOf (hd : d.Valid) {step log : Nat} (hlog : log ≤ d.logSize)
    (hstep : step ≤ log) (challenge : Felt) (f : Felt[X]) :
    foldLayer d step challenge (layerOf d log f) =
      layerOf d (log - step) (foldMany step challenge f) := by
  rw [foldLayer, length_layerOf, two_pow_div_two_pow hstep]
  apply List.map_congr_left
  intro c hc
  rw [foldCoset_layerOf hd hlog hstep (List.mem_range.mp hc)]

/-- No coset of the layer of a polynomial fails to fold. -/
theorem mapM_foldCoset_layerOf (hd : d.Valid) {step log : Nat} (hlog : log ≤ d.logSize)
    (hstep : step ≤ log) (challenge : Felt) (f : Felt[X]) :
    (List.range (2 ^ log / 2 ^ step)).mapM (fun c =>
        foldCoset (cosetAt step (layerOf d log f) c) challenge c (2 ^ log) d) =
      .ok (layerOf d (log - step) (foldMany step challenge f)) := by
  have hnext : layerOf d (log - step) (foldMany step challenge f) =
      (List.range (2 ^ (log - step))).map fun c =>
        (foldMany step challenge f).eval (d.point (log - step) c) := rfl
  rw [mapM_eq_ok_iff, two_pow_div_two_pow hstep, hnext, List.forall₂_map_right_iff,
    List.forall₂_same]
  intro c hc
  exact foldCoset_layerOf hd hlog hstep (List.mem_range.mp hc) f challenge

theorem layerOf_getD {log : Nat} (f : Felt[X]) {i : Nat} (h : i < 2 ^ log) :
    (layerOf d log f)[i]?.getD 0 = valueOn d log f i := by
  rw [layerOf_getElem? log f h, Option.getD_some, valueOn]

theorem valuesAt_layerOf {log : Nat} (f : Felt[X]) {positions : List Nat}
    (h : ∀ i ∈ positions, i < 2 ^ log) :
    valuesAt (fun i => (layerOf d log f)[i]?.getD 0) positions = valuesAt (valueOn d log f) positions :=
  List.map_congr_left fun i hi => congrArg (Prod.mk i) (layerOf_getD f (h i hi))

/-- The members of a coset of a layer, position by position. -/
theorem map_getD_eq_cosetAt {step c : Nat} {layer : List Felt} (hc : c < layer.length / 2 ^ step) :
    (List.range' (c <<< step) (2 ^ step)).map (fun i => layer[i]?.getD 0) = cosetAt step layer c := by
  refine List.ext_getElem? fun j => ?_
  by_cases hj : j < 2 ^ step
  · have hlt : c * 2 ^ step + j < layer.length := by
      have hend := coset_end_le hc
      omega
    rw [cosetAt_getElem? hj, List.getElem?_map, List.getElem?_range' hj, Option.map_some,
      Nat.shiftLeft_eq, Nat.one_mul, List.getElem?_eq_getElem hlt, Option.getD_some]
  · rw [List.getElem?_eq_none (by rw [List.length_map, List.length_range']; omega),
      List.getElem?_eq_none (by rw [length_cosetAt hc]; omega)]

/-! ## What a prover opens of a layer -/

section

variable {step log : Nat} {layer : List Felt} {positions : List Nat}

theorem PlacesWithin.lt_count (h : PlacesWithin log positions) (hlength : layer.length = 2 ^ log)
    (hstep : step ≤ log) : ∀ c ∈ Fri.touched step positions, c < layer.length / 2 ^ step := by
  rw [hlength, two_pow_div_two_pow hstep]
  exact (h.touched hstep).lt

/-- The supplied values complete the touched cosets of the layer. -/
theorem gatherCosets_openLayer (h : PlacesWithin log positions) (hlength : layer.length = 2 ^ log)
    (hstep : step ≤ log) (number : Nat) :
    gatherCosets (valuesAt (fun i => layer[i]?.getD 0) positions) step
        (openLayer step layer positions).values number =
      .ok ((touched step positions).map fun c => (c, cosetAt step layer c)) := by
  rw [openLayer, gatherCosets_suppliedValues _ step h.ascending number]
  congr 1
  apply List.map_congr_left
  intro c hc
  rw [map_getD_eq_cosetAt (h.lt_count hlength hstep c hc)]

/-- The touched cosets open against the root of the layer. -/
theorem verify_openLayer (h : PlacesWithin log positions) (hlength : layer.length = 2 ^ log)
    (hstep : step ≤ log) (hmax : log ≤ Merkle.maxDepth) :
    Merkle.verify (openLayer step layer positions).root (log - step) (touched step positions)
      ((touched step positions).map (cosetAt step layer))
      (openLayer step layer positions).decommitment = .ok true := by
  have htouched := h.touched hstep
  refine MerkleTree.verify_openRows (length_cosetsOf_of_length hlength hstep) (by omega)
    htouched.ne_nil htouched.lt htouched.ascending ?_
  rw [List.map_map]
  apply List.map_congr_left
  intro c hc
  exact cosetsOf_getElem?.mpr ⟨h.lt_count hlength hstep c hc, rfl⟩

end

end Fri

namespace Verifier

open Fri

variable {d : EvalDomain}

/-! ## One layer -/

theorem foldCosets_map {fold : LayerFold} {value : Nat → Felt} {row : Nat → List Felt}
    {places : List Nat} (h : ∀ c ∈ places, fold.apply c (row c) = .ok (value c)) :
    foldCosets fold (places.map fun c => (c, row c)) = .ok (valuesAt value places) := by
  rw [foldCosets_eq_ok_iff, valuesAt, List.forall₂_map_left_iff, List.forall₂_map_right_iff,
    List.forall₂_same]
  exact fun c hc => ⟨h c hc, rfl⟩

theorem checkLayer_openLayer (hd : d.Valid) (number : Nat) {step log : Nat} {positions : List Nat}
    (hlog : log ≤ d.logSize) (hstep : step ≤ log) (hne : positions ≠ [])
    (hrange : ∀ i ∈ positions, i < 2 ^ log) (hascending : positions.Pairwise (· < ·))
    (challenge : Felt) (f : Felt[X]) :
    checkLayer d number (2 ^ log) (valuesAt (valueOn d log f) positions)
        (openLayer step (layerOf d log f) positions) step challenge =
      .ok (valuesAt (valueOn d (log - step) (foldMany step challenge f))
        (touched step positions)) := by
  have hlength : (layerOf d log f).length = 2 ^ log := length_layerOf log f
  have hplaces : PlacesWithin log positions := ⟨hne, hrange, hascending⟩
  have hgather := gatherCosets_openLayer hplaces hlength hstep number
  rw [valuesAt_layerOf f hrange] at hgather
  -- the gathered cosets are the layer's own: they open, and each folds to the next layer's value
  refine checkLayer_eq_ok_iff.mpr ⟨_, hgather, ?_, ?_⟩
  · have hfst : ((touched step positions).map fun c =>
        (c, cosetAt step (layerOf d log f) c)).map (·.1) = touched step positions := by
      simp [Function.comp_def]
    rw [Nat.log2_two_pow, hfst, List.map_map]
    exact verify_openLayer hplaces hlength hstep (hlog.trans hd.logSize_le)
  · apply foldCosets_map
    intro c hc
    have hwidth : (cosetAt step (layerOf d log f) c).length = 2 ^ step :=
      length_cosetAt (hplaces.lt_count hlength hstep c hc)
    rw [LayerFold.apply, if_pos hwidth,
      foldCoset_layerOf hd hlog hstep ((hplaces.touched hstep).lt c hc)]
    rfl

/-! ## All layers -/

/-- A layer as its prover holds it, with how it folds. -/
structure HonestLayer where
  step : Nat
  challenge : Felt
  values : List Felt

namespace HonestLayer

/-- The layers below the first, opened where the positions of the first lead. -/
def openAll : List HonestLayer → List Nat → List FriLayer
  | [], _ => []
  | l :: layers, positions =>
    openLayer l.step l.values positions :: openAll layers (touched l.step positions)

/-- Where the positions of the first layer lead in the last. -/
def touchedLast : List HonestLayer → List Nat → List Nat
  | [], positions => positions
  | l :: layers, positions => touchedLast layers (touched l.step positions)

/-- What a polynomial has become after the last fold. -/
noncomputable def foldAll : List HonestLayer → Felt[X] → Felt[X]
  | [], f => f
  | l :: layers, f => foldAll layers (foldMany l.step l.challenge f)

/-- Each layer holds the values of the polynomial that the layers before it have folded to. -/
def HoldsPolynomial (d : EvalDomain) : List HonestLayer → Nat → Felt[X] → Prop
  | [], _, _ => True
  | l :: layers, log, f => l.values = layerOf d log f ∧ l.step ≤ log ∧
      HoldsPolynomial d layers (log - l.step) (foldMany l.step l.challenge f)

/-- Layer by layer, every coset of a layer folds to its value in the next. -/
def FoldsTo (d : EvalDomain) : List HonestLayer → List Felt → List Felt → Prop
  | [], first, last => first = last
  | l :: layers, first, last => l.values = first ∧ ∃ next,
      (List.range (first.length / 2 ^ l.step)).mapM (fun c =>
          foldCoset (cosetAt l.step first c) l.challenge c first.length d) = .ok next ∧
        FoldsTo d layers next last

/-- Binary logarithm of what all layers together divide the length by. -/
def folds (layers : List HonestLayer) : Nat := (layers.map (·.step)).sum

theorem map_root_openAll (layers : List HonestLayer) (positions : List Nat) :
    (openAll layers positions).map (·.root) =
      layers.map fun l => MerkleTree.rootOf (cosetsOf l.step l.values) := by
  induction layers generalizing positions with
  | nil => rfl
  | cons l layers ih => rw [openAll, List.map_cons, List.map_cons, ih]; rfl

theorem length_openAll (layers : List HonestLayer) (positions : List Nat) :
    (openAll layers positions).length = layers.length := by
  have h := congrArg List.length (map_root_openAll layers positions)
  simpa using h

theorem degree_foldAll_lt {layers : List HonestLayer} {log : Nat} {f : Felt[X]}
    (hfolds : folds layers ≤ log) (h : f.degree < (2 ^ log : Nat)) :
    (foldAll layers f).degree < (2 ^ (log - folds layers) : Nat) := by
  induction layers generalizing log f with
  | nil => exact h
  | cons l layers ih =>
      have hsum : folds (l :: layers) = l.step + folds layers := rfl
      rw [hsum] at hfolds ⊢
      rw [← Nat.sub_sub]
      refine ih (by omega) (degree_foldMany_lt l.challenge ?_)
      rwa [← Nat.pow_add, Nat.add_sub_cancel' (by omega)]

/-- Layers that hold what a polynomial folds to fold into each other. -/
theorem foldsTo_of_holdsPolynomial (hd : d.Valid) {layers : List HonestLayer} {log : Nat}
    {f : Felt[X]} (hlog : log ≤ d.logSize) (h : HoldsPolynomial d layers log f) :
    FoldsTo d layers (layerOf d log f) (layerOf d (log - folds layers) (foldAll layers f)) := by
  induction layers generalizing log f with
  | nil => rfl
  | cons l layers ih =>
      obtain ⟨hvalues, hstep, hrest⟩ := h
      have hsum : folds (l :: layers) = l.step + folds layers := rfl
      refine ⟨hvalues, layerOf d (log - l.step) (foldMany l.step l.challenge f), ?_, ?_⟩
      · rw [length_layerOf]
        exact mapM_foldCoset_layerOf hd hlog hstep _ f
      · rw [hsum, ← Nat.sub_sub]
        exact ih (by omega) hrest

end HonestLayer

open HonestLayer

/-- From layer to layer the values that the verifier knows are those of the folded polynomial. -/
theorem checkLayers_openLayers (hd : d.Valid) (number : Nat) {layers : List HonestLayer} {log : Nat}
    {positions : List Nat} {f : Felt[X]} (hlog : log ≤ d.logSize)
    (hholds : HoldsPolynomial d layers log f) (hne : positions ≠ [])
    (hrange : ∀ i ∈ positions, i < 2 ^ log) (hascending : positions.Pairwise (· < ·)) :
    checkLayers d ((openAll layers positions).zip ((layers.map (·.step)).zip
        (layers.map (·.challenge)))) number (2 ^ log) (valuesAt (valueOn d log f) positions) =
      .ok (valuesAt (valueOn d (log - folds layers) (foldAll layers f))
        (touchedLast layers positions), 2 ^ (log - folds layers)) := by
  induction layers generalizing log number positions f with
  | nil => rfl
  | cons l layers ih =>
      obtain ⟨hvalues, hstep, hrest⟩ := hholds
      have hsum : folds (l :: layers) = l.step + folds layers := rfl
      have hlayer := checkLayer_openLayer hd number hlog hstep hne hrange hascending
        l.challenge f
      have htail := ih (number + 1) (Nat.le_trans (Nat.sub_le _ _) hlog) hrest
        (touched_ne_nil hne) (lt_of_mem_touched hstep hrange) (pairwise_touched hascending)
      rw [openAll, List.map_cons, List.map_cons, List.zip_cons_cons, List.zip_cons_cons,
        checkLayers_cons_eq_ok_iff, hvalues]
      refine ⟨_, hlayer, ?_⟩
      rw [two_pow_shiftRight hstep, htail, hsum, Nat.sub_sub]
      rfl

/-! ## Commitment -/

/-- The layers that a prover commits to from the first one on, the last layer, and the coin after them. -/
def commitLayers (d : EvalDomain) :
    Coin → List Nat → List Felt → List HonestLayer × List Felt × Coin
  | coin, [], layer => ([], layer, coin)
  | coin, step :: steps, layer =>
    let drawn := (coin.writeDigest (MerkleTree.rootOf (cosetsOf step layer))).readFelt
    let rest := commitLayers d drawn.2 steps (foldLayer d step drawn.1 layer)
    (⟨step, drawn.1, layer⟩ :: rest.1, rest.2)

theorem map_step_commitLayers (coin : Coin) (steps : List Nat) (layer : List Felt) :
    (commitLayers d coin steps layer).1.map (·.step) = steps := by
  induction steps generalizing coin layer with
  | nil => rfl
  | cons step steps ih => rw [commitLayers, List.map_cons, ih]

/-- The verifier draws the prover's challenges from the prover's roots. -/
theorem foldChallenges_commitLayers (coin : Coin) (steps : List Nat) (layer : List Felt) :
    Transcript.foldChallenges coin ((commitLayers d coin steps layer).1.map fun l =>
        MerkleTree.rootOf (cosetsOf l.step l.values)) =
      ((commitLayers d coin steps layer).1.map (·.challenge),
        (commitLayers d coin steps layer).2.2) := by
  induction steps generalizing coin layer with
  | nil => rfl
  | cons step steps ih => simp only [commitLayers, List.map_cons, Transcript.foldChallenges, ih]

theorem commitLayers_layerOf (hd : d.Valid) {steps : List Nat} {log : Nat} (coin : Coin)
    (hlog : log ≤ d.logSize) (hsteps : steps.sum ≤ log) (f : Felt[X]) :
    HoldsPolynomial d (commitLayers d coin steps (layerOf d log f)).1 log f ∧
      (commitLayers d coin steps (layerOf d log f)).2.1 =
        layerOf d (log - steps.sum) (foldAll (commitLayers d coin steps (layerOf d log f)).1 f) := by
  induction steps generalizing coin log f with
  | nil => exact ⟨trivial, rfl⟩
  | cons step steps ih =>
      rw [List.sum_cons] at hsteps ⊢
      have hstep : step ≤ log := by omega
      simp only [commitLayers, foldLayer_layerOf hd hlog hstep, HoldsPolynomial, foldAll]
      rw [← Nat.sub_sub]
      obtain ⟨hholds, hlast⟩ := ih
        (coin.writeDigest (MerkleTree.rootOf (cosetsOf step (layerOf d log f)))).readFelt.2
        (show log - step ≤ d.logSize by omega) (by omega) (foldMany step
          (coin.writeDigest (MerkleTree.rootOf (cosetsOf step (layerOf d log f)))).readFelt.1 f)
      exact ⟨⟨trivial, hstep, hholds⟩, hlast⟩

theorem foldsTo_commitLayers (hd : d.Valid) {steps : List Nat} {log : Nat} (coin : Coin)
    (hlog : log ≤ d.logSize) (hsteps : steps.sum ≤ log) (f : Felt[X]) :
    FoldsTo d (commitLayers d coin steps (layerOf d log f)).1 (layerOf d log f)
      (commitLayers d coin steps (layerOf d log f)).2.1 := by
  obtain ⟨hholds, hlast⟩ := commitLayers_layerOf hd coin hlog hsteps f
  have hfolds : folds (commitLayers d coin steps (layerOf d log f)).1 = steps.sum := by
    rw [folds, map_step_commitLayers]
  rw [hlast, ← hfolds]
  exact foldsTo_of_holdsPolynomial hd hlog hholds

/-! ## The last layer -/

/-- The polynomial that takes the values of a layer. -/
noncomputable def layerPolynomial (d : EvalDomain) (layer : List Felt) : Felt[X] :=
  interpolant (d.generator ^ (d.size / layer.length)) layer.length fun r =>
    layer[bitReverse layer.length.log2 r]?.getD 0

theorem layerPolynomial_layerOf (hd : d.Valid) {log : Nat} (hlog : log ≤ d.logSize) {f : Felt[X]}
    (h : f.degree < (2 ^ log : Nat)) : layerPolynomial d (layerOf d log f) = f := by
  rw [layerPolynomial, length_layerOf, Nat.log2_two_pow]
  apply interpolant_eq (hd.isPrimitiveRoot_layer hlog) h
  intro r hr
  rw [layerOf_getElem? log f (bitReverse_lt log r), Option.getD_some, EvalDomain.point,
    bitReverse_bitReverse hr]

/-- The coefficients of the folded polynomial agree with what is known of the last layer. -/
theorem lastLayerMismatch_coefficients {log bound : Nat} {f : Felt[X]} (positions : List Nat)
    (hlog : log ≤ 64) (hdegree : f.degree < bound) :
    lastLayerMismatch (valuesAt (valueOn d log f) positions) (coefficients bound f) (2 ^ log) d =
      none := by
  rw [lastLayerMismatch, Option.map_eq_none_iff, List.find?_eq_none, valuesAt, List.forall_mem_map]
  intro i _
  rw [trailingZeros_two_pow hlog, evalPoly_coefficients hdegree, decide_eq_true_eq, not_not]
  rfl

end Verifier
end StarkVerifier
