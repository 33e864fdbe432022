import Mathlib.Data.List.Chain
import StarkVerifier.Fri
import StarkVerifier.Proofs.Result

/-!
# Cosets completed from known and supplied values

Whatever is known of a layer, the gathered cosets all have their full length, their numbers do not depend
on the values that were supplied, and those values can be read off the cosets.
-/

namespace StarkVerifier.Fri

/-! ## Filling one coset -/

theorem length_fillCoset {count position : Nat} {known ahead : List (Nat × Felt)}
    {supplied members left : List Felt}
    (h : fillCoset count position known supplied = some (members, ahead, left)) :
    members.length = count := by
  fun_induction fillCoset count position known supplied generalizing members with
  | case1 position known supplied =>
      obtain ⟨rfl, -⟩ := Prod.mk.inj (Option.some.inj h)
      rfl
  | case2 count position => simp at h
  | case3 count position v supplied ih =>
      obtain ⟨up, hup, rfl⟩ := map_cons_eq_some_iff.mp h
      rw [List.length_cons, ih hup]
  | case4 count position v known supplied ih =>
      obtain ⟨up, hup, rfl⟩ := map_cons_eq_some_iff.mp h
      rw [List.length_cons, ih hup]
  | case5 count position i v known hne => simp at h
  | case6 count position i v known hne w supplied ih =>
      obtain ⟨up, hup, rfl⟩ := map_cons_eq_some_iff.mp h
      rw [List.length_cons, ih hup]

/-- Two fillings of one coset from the same known values take the same of them, and when they come to the
same members with the same values left, the same values were supplied. -/
theorem fillCoset_agree {count position : Nat} {known ahead ahead' : List (Nat × Felt)}
    {supplied supplied' members members' left left' : List Felt}
    (h : fillCoset count position known supplied = some (members, ahead, left))
    (h' : fillCoset count position known supplied' = some (members', ahead', left')) :
    ahead = ahead' ∧ (members = members' → left = left' → supplied = supplied') := by
  fun_induction fillCoset count position known supplied generalizing supplied' members members' with
  | case1 position known supplied =>
      simp only [fillCoset, Option.some.injEq, Prod.mk.injEq] at h h'
      obtain ⟨-, rfl, rfl⟩ := h
      obtain ⟨-, rfl, rfl⟩ := h'
      exact ⟨rfl, fun _ heq => heq⟩
  | case2 count position => simp at h
  | case3 count position v supplied ih =>
      cases supplied' with
      | nil => simp [fillCoset] at h'
      | cons v' supplied' =>
          simp only [fillCoset] at h'
          obtain ⟨up, hup, rfl⟩ := map_cons_eq_some_iff.mp h
          obtain ⟨up', hup', rfl⟩ := map_cons_eq_some_iff.mp h'
          obtain ⟨hahead, hsame⟩ := ih hup hup'
          refine ⟨hahead, fun hmembers hleft => ?_⟩
          obtain ⟨rfl, htail⟩ := List.cons.inj hmembers
          rw [hsame htail hleft]
  | case4 count position v known supplied ih =>
      simp only [fillCoset, if_true] at h'
      obtain ⟨up, hup, rfl⟩ := map_cons_eq_some_iff.mp h
      obtain ⟨up', hup', rfl⟩ := map_cons_eq_some_iff.mp h'
      obtain ⟨hahead, hsame⟩ := ih hup hup'
      exact ⟨hahead, fun hmembers hleft => hsame (List.cons.inj hmembers).2 hleft⟩
  | case5 count position i v known hne => simp at h
  | case6 count position i v known hne w supplied ih =>
      cases supplied' with
      | nil => simp [fillCoset, hne] at h'
      | cons w' supplied' =>
          simp only [fillCoset, if_neg hne] at h'
          obtain ⟨up, hup, rfl⟩ := map_cons_eq_some_iff.mp h
          obtain ⟨up', hup', rfl⟩ := map_cons_eq_some_iff.mp h'
          obtain ⟨hahead, hsame⟩ := ih hup hup'
          refine ⟨hahead, fun hmembers hleft => ?_⟩
          obtain ⟨rfl, htail⟩ := List.cons.inj hmembers
          rw [hsame htail hleft]

/-! ## Filling all cosets -/

theorem fillCosets_cons_eq_some_iff {step i : Nat} {v : Felt} {known : List (Nat × Felt)}
    {supplied rest : List Felt} {cosets : List (Nat × List Felt)} :
    fillCosets step ((i, v) :: known) supplied = some (cosets, rest) ↔
      ∃ members ahead left others,
        fillCoset (2 ^ step) ((i >>> step) <<< step) ((i, v) :: known) supplied =
            some (members, ahead, left) ∧
          fillCosets step ahead left = some (others, rest) ∧
            cosets = (i >>> step, members) :: others := by
  rw [fillCosets]
  constructor
  · intro h
    split at h
    · simp at h
    · next members ahead left hfill =>
        obtain ⟨others, hothers, rfl⟩ := map_cons_eq_some_iff.mp h
        exact ⟨members, ahead, left, others, hfill, hothers, rfl⟩
  · rintro ⟨members, ahead, left, others, hfill, hothers, rfl⟩
    split
    · next hnone => simp [hfill] at hnone
    · next members' ahead' left' hfill' =>
        rw [hfill, Option.some.injEq, Prod.mk.injEq, Prod.mk.injEq] at hfill'
        obtain ⟨rfl, rfl, rfl⟩ := hfill'
        exact map_cons_eq_some_iff.mpr ⟨others, hothers, rfl⟩

theorem length_of_mem_fillCosets {step : Nat} {known : List (Nat × Felt)} {supplied rest : List Felt}
    {cosets : List (Nat × List Felt)} (h : fillCosets step known supplied = some (cosets, rest)) :
    ∀ c ∈ cosets, c.2.length = 2 ^ step := by
  induction cosets generalizing known supplied with
  | nil => simp
  | cons c cosets ih =>
      cases known with
      | nil => simp [fillCosets] at h
      | cons k known =>
          obtain ⟨members, ahead, left, others, hfill, hothers, heq⟩ :=
            fillCosets_cons_eq_some_iff.mp h
          obtain ⟨rfl, rfl⟩ := List.cons.inj heq
          rw [List.forall_mem_cons]
          exact ⟨length_fillCoset hfill, ih hothers⟩

/-- Two runs over the same known values go through the same cosets, and when these are filled alike with
the same values left, the same values were supplied. -/
theorem fillCosets_agree {step : Nat} {known : List (Nat × Felt)} {supplied supplied' rest rest' : List Felt}
    {cosets cosets' : List (Nat × List Felt)}
    (h : fillCosets step known supplied = some (cosets, rest))
    (h' : fillCosets step known supplied' = some (cosets', rest')) :
    cosets.map (·.1) = cosets'.map (·.1) ∧ (cosets = cosets' → rest = rest' → supplied = supplied') := by
  induction cosets generalizing known supplied supplied' cosets' with
  | nil =>
      cases known with
      | nil =>
          simp only [fillCosets, Option.some.injEq, Prod.mk.injEq] at h h'
          obtain ⟨-, rfl⟩ := h
          obtain ⟨rfl, rfl⟩ := h'
          exact ⟨rfl, fun _ heq => heq⟩
      | cons k known =>
          obtain ⟨_, _, _, _, -, -, heq⟩ := fillCosets_cons_eq_some_iff.mp h
          simp at heq
  | cons c cosets ih =>
      cases known with
      | nil => simp [fillCosets] at h
      | cons k known =>
          obtain ⟨members, ahead, left, others, hfill, hothers, heq⟩ :=
            fillCosets_cons_eq_some_iff.mp h
          obtain ⟨members', ahead', left', others', hfill', hothers', rfl⟩ :=
            fillCosets_cons_eq_some_iff.mp h'
          obtain ⟨rfl, rfl⟩ := List.cons.inj heq
          obtain ⟨rfl, hone⟩ := fillCoset_agree hfill hfill'
          obtain ⟨hnumbers, hall⟩ := ih hothers hothers'
          refine ⟨by rw [List.map_cons, List.map_cons, hnumbers], fun hcosets hrest => ?_⟩
          simp only [List.cons.injEq, Prod.mk.injEq, true_and] at hcosets
          exact hone hcosets.1 (hall hcosets.2 hrest)

/-! ## Gathering -/

theorem gatherCosets_eq_ok_iff {known : List (Nat × Felt)} {step layer : Nat}
    {supplied : List Felt} {cosets : List (Nat × List Felt)} :
    gatherCosets known step supplied layer = .ok cosets ↔
      fillCosets step known supplied = some (cosets, []) := by
  unfold gatherCosets
  split
  · next h => simp [h]
  · next gathered h => simp [h]
  · next gathered extra hextra h =>
      have hne : extra ≠ [] := hextra
      simp [h, hne]

theorem length_of_mem_gatherCosets {known : List (Nat × Felt)} {step layer : Nat}
    {supplied : List Felt} {cosets : List (Nat × List Felt)}
    (h : gatherCosets known step supplied layer = .ok cosets) :
    ∀ c ∈ cosets, c.2.length = 2 ^ step :=
  length_of_mem_fillCosets (gatherCosets_eq_ok_iff.mp h)

/-- The known values alone decide which cosets are gathered. -/
theorem map_fst_gatherCosets {known : List (Nat × Felt)} {step layer : Nat}
    {supplied supplied' : List Felt} {cosets cosets' : List (Nat × List Felt)}
    (h : gatherCosets known step supplied layer = .ok cosets)
    (h' : gatherCosets known step supplied' layer = .ok cosets') :
    cosets.map (·.1) = cosets'.map (·.1) :=
  (fillCosets_agree (gatherCosets_eq_ok_iff.mp h) (gatherCosets_eq_ok_iff.mp h')).1

/-- The cosets determine the values that were supplied for them. -/
theorem gatherCosets_inj {known : List (Nat × Felt)} {step layer : Nat}
    {supplied supplied' : List Felt} {cosets : List (Nat × List Felt)}
    (h : gatherCosets known step supplied layer = .ok cosets)
    (h' : gatherCosets known step supplied' layer = .ok cosets) : supplied = supplied' :=
  (fillCosets_agree (gatherCosets_eq_ok_iff.mp h) (gatherCosets_eq_ok_iff.mp h')).2 rfl rfl

theorem zip_map_fst_map_snd {β : Type} (numbered : List (Nat × β)) :
    (numbered.map (·.1)).zip (numbered.map (·.2)) = numbered := by
  have h := List.zip_unzip numbered
  rwa [List.unzip_eq_map] at h

end StarkVerifier.Fri
