import Mathlib.Data.List.Dedup
import StarkVerifier.Proofs.Fri.Layers

/-!
# Gathering what an honest prover supplies

A prover that holds the whole layer supplies the members of the touched cosets that the verifier does
not know. Then the gathered cosets are those of the layer. Main statement: `gatherCosets_suppliedValues`.
-/

namespace StarkVerifier.Fri

/-- Numbers of the cosets that hold one of the positions. -/
def touched (step : Nat) (positions : List Nat) : List Nat := (positions.map (· >>> step)).dedup

/-- The positions of a coset that are not among the given ones. -/
def untouched (step : Nat) (positions : List Nat) (c : Nat) : List Nat :=
  (List.range' (c <<< step) (2 ^ step)).filter (· ∉ positions)

/-- Members of the touched cosets at the other positions, in order. -/
def suppliedValues (step : Nat) (value : Nat → Felt) (positions : List Nat) : List Felt :=
  ((touched step positions).flatMap (untouched step positions)).map value

/-- The values at some positions, as the verifier knows them. -/
def valuesAt (value : Nat → Felt) (positions : List Nat) : List (Nat × Felt) :=
  positions.map fun i => (i, value i)

/-! ## Ascending lists -/

theorem nodup_of_ascending {l : List Nat} (h : l.Pairwise (· < ·)) : l.Nodup :=
  h.imp fun hlt => Nat.ne_of_lt hlt

theorem eq_of_ascending {l l' : List Nat} (h : l.Pairwise (· < ·)) (h' : l'.Pairwise (· < ·))
    (hmem : ∀ i, i ∈ l ↔ i ∈ l') : l = l' := by
  have hperm := (List.perm_ext_iff_of_nodup (nodup_of_ascending h) (nodup_of_ascending h')).mpr hmem
  refine hperm.eq_of_pairwise ?_ h h'
  intro a b _ _ hab hba
  omega

theorem pairwise_touched {step : Nat} {positions : List Nat} (h : positions.Pairwise (· < ·)) :
    (touched step positions).Pairwise (· < ·) := by
  have hle : (positions.map (· >>> step)).Pairwise (· ≤ ·) := by
    rw [List.pairwise_map]
    apply h.imp
    intro i j hlt
    rw [Nat.shiftRight_eq_div_pow, Nat.shiftRight_eq_div_pow]
    exact Nat.div_le_div_right hlt.le
  have hsorted := hle.sublist (List.dedup_sublist _)
  have hnodup : (touched step positions).Nodup := List.nodup_dedup _
  exact (hsorted.and hnodup).imp fun h => Nat.lt_of_le_of_ne h.1 h.2

theorem mem_touched {step c : Nat} {positions : List Nat} :
    c ∈ touched step positions ↔ ∃ i ∈ positions, i >>> step = c := by
  rw [touched, List.mem_dedup, List.mem_map]

theorem lt_of_mem_touched {step log : Nat} {positions : List Nat} (hstep : step ≤ log)
    (h : ∀ i ∈ positions, i < 2 ^ log) : ∀ c ∈ touched step positions, c < 2 ^ (log - step) := by
  intro c hc
  obtain ⟨i, hi, rfl⟩ := mem_touched.mp hc
  rw [Nat.shiftRight_eq_div_pow, Nat.div_lt_iff_lt_mul (Nat.two_pow_pos _), ← Nat.pow_add,
    Nat.sub_add_cancel hstep]
  exact h i hi

theorem touched_ne_nil {step : Nat} {positions : List Nat} (h : positions ≠ []) :
    touched step positions ≠ [] := by
  rw [touched, Ne, List.dedup_eq_nil, List.map_eq_nil_iff]
  exact h

/-- Places of a layer of length `2 ^ log`, at least one and in ascending order. -/
structure PlacesWithin (log : Nat) (places : List Nat) : Prop where
  ne_nil : places ≠ []
  lt : ∀ i ∈ places, i < 2 ^ log
  ascending : places.Pairwise (· < ·)

/-- The places of the touched cosets in the next layer. -/
theorem PlacesWithin.touched {step log : Nat} {places : List Nat} (h : PlacesWithin log places)
    (hstep : step ≤ log) : PlacesWithin (log - step) (Fri.touched step places) :=
  ⟨touched_ne_nil h.ne_nil, lt_of_mem_touched hstep h.lt, pairwise_touched h.ascending⟩

/-! ## Filling from a layer -/

theorem shiftRight_eq_iff (i step c : Nat) :
    i >>> step = c ↔ c <<< step ≤ i ∧ i < c <<< step + 2 ^ step := by
  constructor
  · rintro rfl
    exact coset_of_shiftRight i step
  · rw [Nat.shiftLeft_eq, Nat.shiftRight_eq_div_pow]
    rintro ⟨hlow, hhigh⟩
    exact Nat.div_eq_of_lt_le hlow (by rwa [Nat.add_mul, Nat.one_mul])

theorem filter_range'_cons (i count : Nat) (places : List Nat) :
    (List.range' (i + 1) count).filter (· ∉ i :: places) =
      (List.range' (i + 1) count).filter (· ∉ places) := by
  apply List.filter_congr
  intro j hj
  have := (List.mem_range'_1.mp hj).1
  have hne : j ≠ i := by omega
  simp [hne]

theorem not_mem_of_lt_first {position i : Nat} {places : List Nat}
    (hascending : (i :: places).Pairwise (· < ·)) (hlt : position < i) : position ∉ i :: places := by
  intro hmem
  rcases List.mem_cons.mp hmem with rfl | hmem
  · exact Nat.lt_irrefl _ hlt
  · exact Nat.lt_asymm hlt ((List.pairwise_cons.mp hascending).1 position hmem)

/-- A coset is filled by the known values and by the layer's values at the other positions. What is
known behind it is still ahead. -/
theorem fillCoset_valuesAt (value : Nat → Felt) {count : Nat} (position : Nat) {places : List Nat}
    (hascending : places.Pairwise (· < ·)) (hfrom : ∀ i ∈ places, position ≤ i) (rest : List Felt) :
    fillCoset count position (valuesAt value places)
        (((List.range' position count).filter (· ∉ places)).map value ++ rest) =
      some ((List.range' position count).map value,
        valuesAt value (places.filter (position + count ≤ ·)), rest) := by
  induction count generalizing position places with
  | zero =>
      have hall : places.filter (position + 0 ≤ ·) = places := by
        rw [List.filter_eq_self]
        simpa using hfrom
      rw [hall]
      rfl
  | succ count ih =>
      rw [List.range'_succ, List.map_cons, show position + (count + 1) = position + 1 + count by omega]
      cases places with
      | nil =>
          have htail := ih (position + 1) List.Pairwise.nil (by simp)
          simp only [valuesAt, List.map_nil, List.not_mem_nil, not_false_eq_true, decide_true,
            List.filter_true, List.filter_nil] at htail
          simp [valuesAt, fillCoset, htail]
      | cons i places =>
          obtain ⟨hhead, htail⟩ := List.pairwise_cons.mp hascending
          rw [List.forall_mem_cons] at hfrom
          by_cases hi : i = position
          · subst hi
            have hrest := ih (i + 1) htail hhead
            rw [valuesAt] at hrest
            rw [List.filter_cons_of_neg (by simp), filter_range'_cons,
              List.filter_cons_of_neg (by simp; omega)]
            simp only [valuesAt, List.map_cons, fillCoset, if_true, hrest, Option.map_some]
          · have hlt : position < i := by omega
            have hfree := not_mem_of_lt_first hascending hlt
            -- the first known position is still ahead
            have habove : ∀ j ∈ i :: places, position + 1 ≤ j := by
              rw [List.forall_mem_cons]
              exact ⟨hlt, fun j hj => hlt.trans (hhead j hj)⟩
            have hrest := ih (position + 1) hascending habove
            rw [valuesAt, List.map_cons] at hrest
            rw [List.filter_cons_of_pos (by simpa using hfree)]
            simp only [valuesAt, List.map_cons, List.cons_append, fillCoset, if_neg hi, hrest,
              Option.map_some]

/-! ## One coset after the other -/

/-- The positions that lie in later cosets than `i` does. -/
def laterThan (step i : Nat) (positions : List Nat) : List Nat :=
  positions.filter (i >>> step < · >>> step)

theorem mem_laterThan {step i j : Nat} {positions : List Nat} :
    j ∈ laterThan step i positions ↔ j ∈ positions ∧ i >>> step < j >>> step := by
  rw [laterThan, List.mem_filter, decide_eq_true_eq]

theorem laterThan_eq (step i : Nat) (positions : List Nat) :
    laterThan step i positions = positions.filter ((i >>> step) <<< step + 2 ^ step ≤ ·) := by
  refine List.filter_congr fun j _ => decide_eq_decide.mpr ?_
  rw [Nat.shiftLeft_eq, ← Nat.succ_mul, Nat.shiftRight_eq_div_pow j,
    ← Nat.le_div_iff_mul_le (Nat.two_pow_pos step)]
  exact Nat.succ_le_iff.symm

section

variable {step i : Nat} {rest : List Nat} (h : (i :: rest).Pairwise (· < ·))

include h

theorem first_le : ∀ j ∈ i :: rest, i ≤ j := by
  rw [List.forall_mem_cons]
  exact ⟨Nat.le_refl i, fun j hj => ((List.pairwise_cons.mp h).1 j hj).le⟩

theorem shiftRight_first_le : ∀ j ∈ i :: rest, i >>> step ≤ j >>> step := by
  intro j hj
  rw [Nat.shiftRight_eq_div_pow, Nat.shiftRight_eq_div_pow]
  exact Nat.div_le_div_right (first_le h j hj)

theorem touched_cons :
    touched step (i :: rest) = (i >>> step) :: touched step (laterThan step i (i :: rest)) := by
  apply eq_of_ascending (pairwise_touched h)
  · rw [List.pairwise_cons]
    refine ⟨fun c hc => ?_, pairwise_touched (h.filter _)⟩
    obtain ⟨j, hj, rfl⟩ := mem_touched.mp hc
    exact (mem_laterThan.mp hj).2
  · intro c
    simp only [List.mem_cons (a := c), mem_touched, mem_laterThan]
    constructor
    · rintro ⟨j, hj, rfl⟩
      rcases Nat.eq_or_lt_of_le (shiftRight_first_le h j hj) with heq | hlt
      · exact Or.inl heq.symm
      · exact Or.inr ⟨j, ⟨hj, hlt⟩, rfl⟩
    · rintro (rfl | ⟨j, ⟨hj, -⟩, rfl⟩)
      · exact ⟨i, List.mem_cons_self, rfl⟩
      · exact ⟨j, hj, rfl⟩

theorem suppliedValues_cons (value : Nat → Felt) :
    suppliedValues step value (i :: rest) =
      (untouched step (i :: rest) (i >>> step)).map value ++
        suppliedValues step value (laterThan step i (i :: rest)) := by
  rw [suppliedValues, touched_cons h, List.flatMap_cons, List.map_append, suppliedValues]
  congr 2
  refine List.flatMap_congr fun c hc => List.filter_congr fun j hj => decide_eq_decide.mpr ?_
  -- a position of a later coset is known exactly if it is one of the later positions
  obtain ⟨k, hk, rfl⟩ := mem_touched.mp hc
  have hcoset := (shiftRight_eq_iff j step _).mpr (List.mem_range'_1.mp hj)
  have hlt := (mem_laterThan.mp hk).2
  rw [mem_laterThan, hcoset, and_iff_left hlt]

end

theorem fillCosets_suppliedValues (value : Nat → Felt) (step : Nat) {positions : List Nat}
    (h : positions.Pairwise (· < ·)) :
    fillCosets step (valuesAt value positions) (suppliedValues step value positions) =
      some ((touched step positions).map fun c =>
        (c, (List.range' (c <<< step) (2 ^ step)).map value), []) := by
  induction hlength : positions.length using Nat.strong_induction_on generalizing positions with
  | _ length ih =>
  cases positions with
  | nil => simp [fillCosets, valuesAt, suppliedValues, touched]
  | cons i rest =>
      have hfrom : ∀ j ∈ i :: rest, (i >>> step) <<< step ≤ j := fun j hj =>
        (coset_of_shiftRight i step).1.trans (first_le h j hj)
      have hfill := @fillCoset_valuesAt value (2 ^ step) ((i >>> step) <<< step) _ h hfrom
        (suppliedValues step value (laterThan step i (i :: rest)))
      rw [← laterThan_eq] at hfill
      have hshorter : (laterThan step i (i :: rest)).length < length := by
        rw [laterThan, List.filter_cons_of_neg (by simp), ← hlength]
        exact Nat.lt_succ_of_le (List.length_filter_le _ rest)
      have hothers := ih _ hshorter (h.filter _) rfl
      rw [suppliedValues_cons h, touched_cons h, List.map_cons]
      exact fillCosets_cons_eq_some_iff.mpr ⟨_, _, _, _, hfill, hothers, rfl⟩

/-- The gathered cosets are the touched cosets of the layer. -/
theorem gatherCosets_suppliedValues (value : Nat → Felt) (step : Nat) {positions : List Nat}
    (h : positions.Pairwise (· < ·)) (number : Nat) :
    gatherCosets (valuesAt value positions) step (suppliedValues step value positions) number =
      .ok ((touched step positions).map fun c =>
        (c, (List.range' (c <<< step) (2 ^ step)).map value)) :=
  gatherCosets_eq_ok_iff.mpr (fillCosets_suppliedValues value step h)

/-! ## Numbers of the gathered cosets -/

theorem exists_map_eq {positions : List Nat} {values : List Felt} (hnodup : positions.Nodup)
    (hlength : positions.length = values.length) : ∃ value : Nat → Felt, positions.map value = values := by
  induction positions generalizing values with
  | nil => exact ⟨fun _ => 0, (List.eq_nil_of_length_eq_zero hlength.symm).symm⟩
  | cons i positions ih =>
      cases values with
      | nil => simp at hlength
      | cons v values =>
          obtain ⟨hi, hnodup⟩ := List.nodup_cons.mp hnodup
          obtain ⟨value, rfl⟩ := ih hnodup (Nat.succ.inj hlength)
          refine ⟨Function.update value i v, ?_⟩
          rw [List.map_cons, Function.update_self]
          congr 1
          refine List.map_congr_left fun j hj => Function.update_of_ne ?_ v value
          rintro rfl
          exact hi hj

theorem exists_valuesAt {known : List (Nat × Felt)} (h : (known.map (·.1)).Pairwise (· < ·)) :
    ∃ value : Nat → Felt, known = valuesAt value (known.map (·.1)) := by
  obtain ⟨value, hvalue⟩ := @exists_map_eq _ (known.map (·.2)) (nodup_of_ascending h) (by simp)
  refine ⟨value, ?_⟩
  rw [valuesAt, ← zip_map_self, hvalue, zip_map_fst_map_snd]

/-- Known values in ascending order have the touched cosets gathered, whatever is supplied. -/
theorem map_fst_gatherCosets_eq_touched {known : List (Nat × Felt)} {step layer : Nat}
    {supplied : List Felt} {cosets : List (Nat × List Felt)}
    (hascending : (known.map (·.1)).Pairwise (· < ·))
    (h : gatherCosets known step supplied layer = .ok cosets) :
    cosets.map (·.1) = touched step (known.map (·.1)) := by
  obtain ⟨value, hknown⟩ := exists_valuesAt hascending
  have hgather := gatherCosets_suppliedValues value step hascending layer
  rw [← hknown] at hgather
  rw [map_fst_gatherCosets h hgather, List.map_map]
  exact List.map_id _

end StarkVerifier.Fri
