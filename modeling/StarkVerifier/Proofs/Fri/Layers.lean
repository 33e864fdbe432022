import StarkVerifier.Proofs.Fri.Cosets
import StarkVerifier.Proofs.TwoPower

/-!
# Whole layers cut into cosets

What a prover commits to for a layer: its consecutive cosets of a power of two.
-/

namespace StarkVerifier.Fri

/-- Coset number `c` of a layer. -/
def cosetAt (step : Nat) (layer : List Felt) (c : Nat) : List Felt :=
  (layer.drop (c * 2 ^ step)).take (2 ^ step)

/-- All cosets of a layer, the rows that its root commits to. -/
def cosetsOf (step : Nat) (layer : List Felt) : List (List Felt) :=
  (List.range (layer.length / 2 ^ step)).map (cosetAt step layer)

variable {step c : Nat} {layer : List Felt}

@[simp] theorem length_cosetsOf : (cosetsOf step layer).length = layer.length / 2 ^ step := by
  rw [cosetsOf, List.length_map, List.length_range]

theorem length_cosetsOf_of_length {log : Nat} (h : layer.length = 2 ^ log) (hstep : step ≤ log) :
    (cosetsOf step layer).length = 2 ^ (log - step) := by
  rw [length_cosetsOf, h, two_pow_div_two_pow hstep]

theorem cosetsOf_getElem? {row : List Felt} :
    (cosetsOf step layer)[c]? = some row ↔
      c < layer.length / 2 ^ step ∧ row = cosetAt step layer c := by
  rw [cosetsOf, List.getElem?_map, Option.map_eq_some_iff]
  constructor
  · rintro ⟨i, hi, rfl⟩
    obtain ⟨hlt, heq⟩ := List.getElem?_eq_some_iff.mp hi
    rw [List.length_range] at hlt
    rw [List.getElem_range] at heq
    exact ⟨hlt, by rw [heq]⟩
  · rintro ⟨hlt, rfl⟩
    exact ⟨c, by rw [List.getElem?_range hlt], rfl⟩

/-- A coset ends within its layer. -/
theorem coset_end_le {length : Nat} (h : c < length / 2 ^ step) :
    c * 2 ^ step + 2 ^ step ≤ length := by
  have hend : (c + 1) * 2 ^ step ≤ length :=
    Nat.le_trans (Nat.mul_le_mul_right _ h) (Nat.div_mul_le_self _ _)
  rwa [Nat.add_mul, Nat.one_mul] at hend

theorem length_cosetAt (h : c < layer.length / 2 ^ step) :
    (cosetAt step layer c).length = 2 ^ step := by
  have hend := coset_end_le h
  rw [cosetAt, List.length_take, List.length_drop]
  omega

theorem length_of_mem_cosetsOf : ∀ row ∈ cosetsOf step layer, row.length = 2 ^ step := by
  intro row hrow
  obtain ⟨c, hc, rfl⟩ := List.mem_map.mp hrow
  exact length_cosetAt (List.mem_range.mp hc)

theorem cosetAt_getElem? {j : Nat} (hj : j < 2 ^ step) :
    (cosetAt step layer c)[j]? = layer[c * 2 ^ step + j]? := by
  rw [cosetAt, List.getElem?_take_of_lt hj, List.getElem?_drop]

/-- A position is found in its coset. -/
theorem cosetAt_shiftRight_getElem? (i : Nat) :
    (cosetAt step layer (i >>> step))[i % 2 ^ step]? = layer[i]? := by
  rw [cosetAt_getElem? (Nat.mod_lt _ (Nat.two_pow_pos step)), Nat.shiftRight_eq_div_pow,
    Nat.div_add_mod']

end StarkVerifier.Fri
