import StarkVerifier.Field.Basic
import StarkVerifier.Verifier.Error
/-!
Layers of the low-degree test. A verifier knows some members of the cosets touched by the queries from the
layer before, and the proof supplies the others, in order of position. Each coset folds to one value of
the next layer. Layers are in bit-reversed order, so the points `x` and `-x` stand side by side and fold
to a value at `x ^ 2`.
-/

namespace StarkVerifier

/-! ## Cosets -/

/-- A walk that puts one element in front of what the rest of it yields. -/
theorem map_cons_eq_some_iff {α β : Type} {a : α} {walk : Option (List α × β)} {as : List α} {b : β} :
    (walk.map fun r => (a :: r.1, r.2)) = some (as, b) ↔
      ∃ others, walk = some (others, b) ∧ as = a :: others := by
  rw [Option.map_eq_some_iff]
  constructor
  · rintro ⟨⟨others, left⟩, hwalk, heq⟩
    obtain ⟨rfl, rfl⟩ := Prod.mk.inj heq
    exact ⟨others, hwalk, rfl⟩
  · rintro ⟨others, hwalk, rfl⟩
    exact ⟨_, hwalk, rfl⟩

namespace Fri

/-- The members at `count` positions from `position` on. A known value is taken at its own position, at
the others the next supplied one. With them the known and the supplied values that are still ahead. -/
def fillCoset : Nat → Nat → List (Nat × Felt) → List Felt →
    Option (List Felt × List (Nat × Felt) × List Felt)
  | 0, _, known, supplied => some ([], known, supplied)
  | count + 1, position, [], supplied =>
    match supplied with
    | [] => none
    | v :: supplied =>
      (fillCoset count (position + 1) [] supplied).map fun r => (v :: r.1, r.2)
  | count + 1, position, (i, v) :: known, supplied =>
    if i = position then
      (fillCoset count (position + 1) known supplied).map fun r => (v :: r.1, r.2)
    else
      match supplied with
      | [] => none
      | w :: supplied =>
        (fillCoset count (position + 1) ((i, v) :: known) supplied).map fun r => (w :: r.1, r.2)

theorem length_ahead_le {count position : Nat} {known ahead : List (Nat × Felt)}
    {supplied members left : List Felt}
    (h : fillCoset count position known supplied = some (members, ahead, left)) :
    ahead.length ≤ known.length := by
  fun_induction fillCoset count position known supplied generalizing members with
  | case1 position known supplied => simp_all
  | case2 count position => simp at h
  | case3 count position v supplied ih =>
      obtain ⟨_, hrest, -⟩ := map_cons_eq_some_iff.mp h
      exact ih hrest
  | case4 count position v known supplied ih =>
      obtain ⟨_, hrest, -⟩ := map_cons_eq_some_iff.mp h
      exact Nat.le_succ_of_le (ih hrest)
  | case5 count position i v known hne => simp at h
  | case6 count position i v known hne w supplied ih =>
      obtain ⟨_, hrest, -⟩ := map_cons_eq_some_iff.mp h
      exact ih hrest

/-- A coset that begins no later than the first known value takes that value. -/
theorem length_ahead_lt {count position i : Nat} {v : Felt} {known ahead : List (Nat × Felt)}
    {supplied members left : List Felt}
    (h : fillCoset count position ((i, v) :: known) supplied = some (members, ahead, left))
    (hlow : position ≤ i) (hhigh : i < position + count) : ahead.length < known.length + 1 := by
  induction count generalizing position supplied members with
  | zero => omega
  | succ count ih =>
      by_cases hi : i = position
      · simp only [fillCoset, if_pos hi] at h
        obtain ⟨_, hrest, -⟩ := map_cons_eq_some_iff.mp h
        exact Nat.lt_succ_of_le (length_ahead_le hrest)
      · cases supplied with
        | nil => simp [fillCoset, hi] at h
        | cons w supplied =>
            simp only [fillCoset, if_neg hi] at h
            obtain ⟨_, hrest, -⟩ := map_cons_eq_some_iff.mp h
            exact ih hrest (by omega) (by omega)

theorem coset_of_shiftRight (i step : Nat) :
    (i >>> step) <<< step ≤ i ∧ i < (i >>> step) <<< step + 2 ^ step := by
  rw [Nat.shiftLeft_eq, Nat.shiftRight_eq_div_pow]
  have := Nat.div_add_mod' i (2 ^ step)
  have := Nat.mod_lt i (Nat.two_pow_pos step)
  omega

/-- Fills the coset of the first known value, then that of the first one still ahead, until none is. -/
def fillCosets (step : Nat) (known : List (Nat × Felt)) (supplied : List Felt) :
    Option (List (Nat × List Felt) × List Felt) :=
  match known with
  | [] => some ([], supplied)
  | (i, v) :: known =>
    let c := i >>> step
    match _h : fillCoset (2 ^ step) (c <<< step) ((i, v) :: known) supplied with
    | none => none
    | some (members, ahead, left) =>
      (fillCosets step ahead left).map fun r => ((c, members) :: r.1, r.2)
termination_by known.length
decreasing_by
  have hcoset := coset_of_shiftRight i step
  exact length_ahead_lt _h hcoset.1 hcoset.2

/-- The touched cosets of a layer with their numbers, every supplied value used once. -/
def gatherCosets (known : List (Nat × Felt)) (step : Nat) (supplied : List Felt) (layer : Nat) :
    Except VerifierError (List (Nat × List Felt)) :=
  match fillCosets step known supplied with
  | none => .error (.missingFriValues layer)
  | some (cosets, []) => .ok cosets
  | some (_, extra) => .error (.unusedFriValues layer extra.length)

/-! ## Room for a coset -/

/-- The most bytes that one list may take, however much memory there is. -/
def maxListBytes : Nat := 2 ^ 63 - 1

/-- No list has room for a coset of `2 ^ step` elements, 32 bytes each. -/
def tooWide (step : Nat) : Bool := maxListBytes < 32 * 2 ^ step

/-- Room for a whole coset is asked for before its first member is taken, and the program aborts where
there can be none. -/
def gather (known : List (Nat × Felt)) (step : Nat) (supplied : List Felt) (layer : Nat) :
    Attempt (Except VerifierError (List (Nat × List Felt))) :=
  if !known.isEmpty && tooWide step then .overflowed
  else .answered (gatherCosets known step supplied layer)

/-! ## Folding -/

/-- Folds neighbours of a layer of length `layerLength`, the first pair being number `position`. -/
def foldPairs (d : EvalDomain) (layerLength : Nat) (challenge : Felt) (position : Nat) :
    List Felt → List Felt
  | a :: b :: rest =>
    let point := bitReverse (layerLength / 2).log2 position * (d.size / layerLength)
    (a + b + challenge * d.inverseElement point * (a - b)) ::
      foldPairs d layerLength challenge (position + 1) rest
  | _ => []

/-- Halves a coset `rounds` times. Each round squares the challenge and halves the layer. -/
def foldRounds (d : EvalDomain) (cosetIndex : Nat) : Nat → Nat → Felt → List Felt → List Felt
  | 0, _, _, values => values
  | rounds + 1, layerLength, challenge, values =>
    foldRounds d cosetIndex rounds (layerLength / 2) challenge.square
      (foldPairs d layerLength challenge (cosetIndex * (values.length / 2)) values)

/-- Whether coset number `index` of the given size lies in a layer of the given length. -/
def cosetFits (d : EvalDomain) (cosetIndex cosetSize layerLength : Nat) : Bool :=
  isTwoPower cosetSize && isTwoPower layerLength && layerLength ≤ d.size &&
    cosetSize ≤ layerLength && cosetIndex < layerLength / cosetSize

def foldCoset (values : List Felt) (challenge : Felt) (cosetIndex layerLength : Nat)
    (d : EvalDomain) : Except VerifierError Felt :=
  if cosetFits d cosetIndex values.length layerLength then
    .ok ((foldRounds d cosetIndex values.length.log2 layerLength challenge values).headD 0)
  else .error (.invalidCoset cosetIndex values.length layerLength)

/-- How one layer folds. -/
structure LayerFold where
  challenge : Felt
  cosetSize : Nat
  layerLength : Nat
  domain : EvalDomain

def LayerFold.apply (f : LayerFold) (cosetIndex : Nat) (values : List Felt) :
    Except VerifierError Felt :=
  if values.length = f.cosetSize then
    foldCoset values f.challenge cosetIndex f.layerLength f.domain
  else .error (.invalidCoset cosetIndex values.length f.layerLength)

/-- The first index at which the folded values leave the polynomial of the last layer. -/
def lastLayerMismatch (folded : List (Nat × Felt)) (coefficients : List Felt) (layerLength : Nat)
    (d : EvalDomain) : Option Nat :=
  let root := d.generator ^ (d.size / layerLength)
  let bits := trailingZeros layerLength
  (folded.find? fun f => Felt.evalPoly coefficients (root ^ bitReverse bits f.1) ≠ f.2).map (·.1)

end Fri
end StarkVerifier
