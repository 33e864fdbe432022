import StarkVerifier.Proofs.Fri.Gathering

/-!
# Every value is used once

The known positions fix how many values have to be supplied: one for each other position of the touched
cosets. With as many the cosets are complete, and read position by position they hold the known values and
the supplied ones, each in its order. Main statement: `gather_accounts`.
-/

namespace StarkVerifier.Fri

/-! ## Positions of the touched cosets -/

/-- All positions of the touched cosets, coset by coset. -/
def touchedPositions (step : Nat) (positions : List Nat) : List Nat :=
  (touched step positions).flatMap fun c => List.range' (c <<< step) (2 ^ step)

/-- Those that are not among the given ones. -/
def openPositions (step : Nat) (positions : List Nat) : List Nat :=
  (touchedPositions step positions).filter (· ∉ positions)

theorem openPositions_eq (step : Nat) (positions : List Nat) :
    openPositions step positions = (touched step positions).flatMap (untouched step positions) :=
  List.filter_flatMap

theorem mem_touchedPositions {step i : Nat} {positions : List Nat} :
    i ∈ touchedPositions step positions ↔ i >>> step ∈ touched step positions := by
  simp only [touchedPositions, List.mem_flatMap, List.mem_range'_1, ← shiftRight_eq_iff]
  constructor
  · rintro ⟨c, hc, rfl⟩
    exact hc
  · intro h
    exact ⟨_, h, rfl⟩

theorem pairwise_touchedPositions (step : Nat) {positions : List Nat}
    (h : positions.Pairwise (· < ·)) : (touchedPositions step positions).Pairwise (· < ·) := by
  rw [touchedPositions, List.pairwise_flatMap]
  refine ⟨fun c _ => List.pairwise_lt_range' 1, (pairwise_touched h).imp ?_⟩
  intro c c' hlt i hi i' hi'
  rw [List.mem_range'_1, ← shiftRight_eq_iff] at hi hi'
  rw [← hi, ← hi', Nat.shiftRight_eq_div_pow, Nat.shiftRight_eq_div_pow] at hlt
  exact Nat.lt_of_div_lt_div hlt

/-- Every given position lies in a touched coset. -/
theorem filter_touchedPositions (step : Nat) {positions : List Nat} (h : positions.Pairwise (· < ·)) :
    (touchedPositions step positions).filter (· ∈ positions) = positions := by
  apply eq_of_ascending ((pairwise_touchedPositions step h).filter _) h
  intro i
  rw [List.mem_filter, mem_touchedPositions, mem_touched, decide_eq_true_eq]
  constructor
  · rintro ⟨-, hi⟩
    exact hi
  · intro hi
    exact ⟨⟨i, hi, rfl⟩, hi⟩

theorem nodup_append_openPositions (step : Nat) {positions : List Nat}
    (h : positions.Pairwise (· < ·)) : (positions ++ openPositions step positions).Nodup := by
  rw [List.nodup_append]
  refine ⟨nodup_of_ascending h, (nodup_of_ascending (pairwise_touchedPositions step h)).filter _, ?_⟩
  rintro i hi _ hopen rfl
  simpa [hi] using List.of_mem_filter hopen

/-! ## A layer behind the values -/

/-- As many values as there are open positions are what some layer holds there, and the known values are
what it holds at theirs. -/
theorem exists_layer {known : List (Nat × Felt)} {supplied : List Felt} {step : Nat}
    (hascending : (known.map (·.1)).Pairwise (· < ·))
    (hlength : supplied.length = (openPositions step (known.map (·.1))).length) :
    ∃ value : Nat → Felt, known = valuesAt value (known.map (·.1)) ∧
      supplied = (openPositions step (known.map (·.1))).map value := by
  have hcount : (known.map (·.1) ++ openPositions step (known.map (·.1))).length =
      (known.map (·.2) ++ supplied).length := by simp [hlength]
  obtain ⟨value, hvalue⟩ := exists_map_eq (nodup_append_openPositions step hascending) hcount
  rw [List.map_append] at hvalue
  obtain ⟨hknown, hsupplied⟩ := List.append_inj hvalue (by simp)
  refine ⟨value, ?_, hsupplied.symm⟩
  rw [valuesAt, ← zip_map_self, hknown, zip_map_fst_map_snd]

/-! ## Values left over -/

theorem fillCoset_append {count position : Nat} {known ahead : List (Nat × Felt)}
    {supplied members left : List Felt}
    (h : fillCoset count position known supplied = some (members, ahead, left)) (extra : List Felt) :
    fillCoset count position known (supplied ++ extra) = some (members, ahead, left ++ extra) := by
  fun_induction fillCoset count position known supplied generalizing members with
  | case1 position known supplied =>
      obtain ⟨rfl, hrest⟩ := Prod.mk.inj (Option.some.inj h)
      obtain ⟨rfl, rfl⟩ := Prod.mk.inj hrest
      rfl
  | case2 count position => simp at h
  | case3 count position v supplied ih =>
      obtain ⟨up, hup, rfl⟩ := map_cons_eq_some_iff.mp h
      exact map_cons_eq_some_iff.mpr ⟨up, ih hup, rfl⟩
  | case4 count position v known supplied ih =>
      obtain ⟨up, hup, rfl⟩ := map_cons_eq_some_iff.mp h
      simp only [fillCoset, if_true]
      exact map_cons_eq_some_iff.mpr ⟨up, ih hup, rfl⟩
  | case5 count position i v known hne => simp at h
  | case6 count position i v known hne w supplied ih =>
      obtain ⟨up, hup, rfl⟩ := map_cons_eq_some_iff.mp h
      simp only [List.cons_append, fillCoset, if_neg hne]
      exact map_cons_eq_some_iff.mpr ⟨up, ih hup, rfl⟩

/-- Values beyond those that are needed are left over. -/
theorem fillCosets_append {step : Nat} {known : List (Nat × Felt)} {supplied rest : List Felt}
    {cosets : List (Nat × List Felt)} (h : fillCosets step known supplied = some (cosets, rest))
    (extra : List Felt) :
    fillCosets step known (supplied ++ extra) = some (cosets, rest ++ extra) := by
  induction cosets generalizing known supplied with
  | nil =>
      cases known with
      | nil =>
          obtain rfl : supplied = rest := by simpa [fillCosets] using h
          simp [fillCosets]
      | cons k known =>
          obtain ⟨_, _, _, _, -, -, heq⟩ := fillCosets_cons_eq_some_iff.mp h
          simp at heq
  | cons c cosets ih =>
      cases known with
      | nil => simp [fillCosets] at h
      | cons k known =>
          obtain ⟨members, ahead, left, others, hfill, hothers, heq⟩ :=
            fillCosets_cons_eq_some_iff.mp h
          obtain ⟨rfl, rfl⟩ := List.cons.inj heq
          exact fillCosets_cons_eq_some_iff.mpr
            ⟨members, ahead, left ++ extra, cosets, fillCoset_append hfill extra, ih hothers, rfl⟩

/-! ## Gathering by the number of supplied values -/

section

variable {known : List (Nat × Felt)} {step : Nat} {supplied : List Felt}

theorem exists_fillCosets (hascending : (known.map (·.1)).Pairwise (· < ·))
    (hlength : supplied.length = (openPositions step (known.map (·.1))).length) :
    ∃ cosets, fillCosets step known supplied = some (cosets, []) := by
  obtain ⟨value, hknown, hsupplied⟩ := exists_layer hascending hlength
  have hgather := gatherCosets_suppliedValues value step hascending 0
  rw [suppliedValues, ← openPositions_eq, ← hknown, ← hsupplied] at hgather
  exact ⟨_, gatherCosets_eq_ok_iff.mp hgather⟩

theorem gatherCosets_of_length_eq (hascending : (known.map (·.1)).Pairwise (· < ·)) (layer : Nat)
    (hlength : supplied.length = (openPositions step (known.map (·.1))).length) :
    ∃ cosets, gatherCosets known step supplied layer = .ok cosets := by
  obtain ⟨cosets, hfill⟩ := exists_fillCosets hascending hlength
  exact ⟨cosets, gatherCosets_eq_ok_iff.mpr hfill⟩

theorem gatherCosets_of_length_lt (hascending : (known.map (·.1)).Pairwise (· < ·)) (layer : Nat)
    (hlength : supplied.length < (openPositions step (known.map (·.1))).length) :
    gatherCosets known step supplied layer = .error (.missingFriValues layer) := by
  have hnone : fillCosets step known supplied = none := by
    -- were they enough, some would be left over when there are just as many as open positions
    rw [Option.eq_none_iff_forall_ne_some]
    rintro ⟨cosets, rest⟩ hfill
    obtain ⟨lacking, hlacking⟩ := Nat.exists_eq_add_of_lt hlength
    have hfull := fillCosets_append hfill (List.replicate (lacking + 1) 0)
    have hlength' : (supplied ++ List.replicate (lacking + 1) 0).length =
        (openPositions step (known.map (·.1))).length := by
      rw [List.length_append, List.length_replicate, hlacking, Nat.add_assoc]
    obtain ⟨cosets', hexact⟩ := exists_fillCosets hascending hlength'
    have hrest := (Prod.mk.inj (Option.some.inj (hfull.symm.trans hexact))).2
    simp at hrest
  rw [gatherCosets, hnone]

theorem gatherCosets_of_lt_length (hascending : (known.map (·.1)).Pairwise (· < ·)) (layer : Nat)
    (hlength : (openPositions step (known.map (·.1))).length < supplied.length) :
    gatherCosets known step supplied layer = .error (.unusedFriValues layer
      (supplied.length - (openPositions step (known.map (·.1))).length)) := by
  generalize hcount : (openPositions step (known.map (·.1))).length = count at hlength ⊢
  have htake : (supplied.take count).length = (openPositions step (known.map (·.1))).length := by
    rw [List.length_take, hcount, Nat.min_eq_left hlength.le]
  obtain ⟨cosets, hfill⟩ := exists_fillCosets hascending htake
  have hall := fillCosets_append hfill (supplied.drop count)
  rw [List.take_append_drop, List.nil_append] at hall
  have hextra := List.length_drop (i := count) (l := supplied)
  cases hdrop : supplied.drop count with
  | nil =>
      rw [hdrop, List.length_nil] at hextra
      omega
  | cons v extra =>
      rw [hdrop] at hall hextra
      rw [gatherCosets, hall, ← hextra]

/-- There are just enough values, too few or too many. -/
theorem gatherCosets_cases (hascending : (known.map (·.1)).Pairwise (· < ·)) (step : Nat)
    (supplied : List Felt) (layer : Nat) :
    (supplied.length = (openPositions step (known.map (·.1))).length ∧
      ∃ cosets, gatherCosets known step supplied layer = .ok cosets) ∨
    (supplied.length < (openPositions step (known.map (·.1))).length ∧
      gatherCosets known step supplied layer = .error (.missingFriValues layer)) ∨
    ((openPositions step (known.map (·.1))).length < supplied.length ∧
      gatherCosets known step supplied layer = .error (.unusedFriValues layer
        (supplied.length - (openPositions step (known.map (·.1))).length))) := by
  rcases Nat.lt_trichotomy supplied.length (openPositions step (known.map (·.1))).length with
    hlt | heq | hgt
  · exact Or.inr (Or.inl ⟨hlt, gatherCosets_of_length_lt hascending layer hlt⟩)
  · exact Or.inl ⟨heq, gatherCosets_of_length_eq hascending layer heq⟩
  · exact Or.inr (Or.inr ⟨hgt, gatherCosets_of_lt_length hascending layer hgt⟩)

/-! ## Where the values stand -/

/-- Members of cosets with the positions at which they stand. -/
def placed (step : Nat) (cosets : List (Nat × List Felt)) : List (Nat × Felt) :=
  cosets.flatMap fun c => (List.range' (c.1 <<< step) (2 ^ step)).zip c.2

theorem placed_map (step : Nat) (value : Nat → Felt) (numbers : List Nat) :
    placed step (numbers.map fun c => (c, (List.range' (c <<< step) (2 ^ step)).map value)) =
      valuesAt value (numbers.flatMap fun c => List.range' (c <<< step) (2 ^ step)) := by
  rw [placed, List.flatMap_map, valuesAt, List.map_flatMap]
  exact List.flatMap_congr fun c _ => zip_map_self _ _

theorem filter_valuesAt (value : Nat → Felt) (positions : List Nat) (p : Nat → Bool) :
    (valuesAt value positions).filter (fun k => p k.1) = valuesAt value (positions.filter p) :=
  List.filter_map

/-- Complete cosets are those of a layer that holds the known and the supplied values. -/
theorem exists_layer_of_gatherCosets (hascending : (known.map (·.1)).Pairwise (· < ·)) {layer : Nat}
    {cosets : List (Nat × List Felt)} (h : gatherCosets known step supplied layer = .ok cosets) :
    ∃ value : Nat → Felt, known = valuesAt value (known.map (·.1)) ∧
      supplied = (openPositions step (known.map (·.1))).map value ∧
        cosets = (touched step (known.map (·.1))).map fun c =>
          (c, (List.range' (c <<< step) (2 ^ step)).map value) := by
  have hlength : supplied.length = (openPositions step (known.map (·.1))).length := by
    rcases gatherCosets_cases hascending step supplied layer with ⟨heq, -⟩ | ⟨-, herror⟩ | ⟨-, herror⟩
    · exact heq
    · simp [herror] at h
    · simp [herror] at h
  obtain ⟨value, hknown, hsupplied⟩ := exists_layer hascending hlength
  have hgather := gatherCosets_suppliedValues value step hascending layer
  rw [suppliedValues, ← openPositions_eq, ← hknown, ← hsupplied, h] at hgather
  exact ⟨value, hknown, hsupplied, Except.ok.inj hgather⟩

/-- Read position by position, complete cosets hold the known values and the supplied ones. -/
theorem placed_gatherCosets (hascending : (known.map (·.1)).Pairwise (· < ·)) {layer : Nat}
    {cosets : List (Nat × List Felt)} (h : gatherCosets known step supplied layer = .ok cosets) :
    (placed step cosets).filter (fun k => k.1 ∈ known.map (·.1)) = known ∧
      ((placed step cosets).filter (fun k => k.1 ∉ known.map (·.1))).map (·.2) = supplied := by
  obtain ⟨value, hknown, hsupplied, rfl⟩ := exists_layer_of_gatherCosets hascending h
  rw [placed_map, ← touchedPositions]
  constructor
  · rw [filter_valuesAt value _ fun i => decide (i ∈ known.map (·.1)),
      filter_touchedPositions step hascending, ← hknown]
  · rw [filter_valuesAt value _ fun i => decide (i ∉ known.map (·.1)), ← openPositions, valuesAt,
      List.map_map]
    exact hsupplied.symm

/-- No known value is dropped or moved. -/
theorem exists_coset_of_mem_known (hascending : (known.map (·.1)).Pairwise (· < ·)) {layer : Nat}
    {cosets : List (Nat × List Felt)} (h : gatherCosets known step supplied layer = .ok cosets) :
    ∀ k ∈ known, ∃ members, (k.1 >>> step, members) ∈ cosets ∧
      members[k.1 % 2 ^ step]? = some k.2 := by
  obtain ⟨value, hknown, -, rfl⟩ := exists_layer_of_gatherCosets hascending h
  intro k hk
  have hvalue : k.2 = value k.1 := by
    rw [hknown] at hk
    obtain ⟨i, -, rfl⟩ := List.mem_map.mp hk
    rfl
  refine ⟨_, List.mem_map_of_mem (mem_touched.mpr ⟨k.1, List.mem_map_of_mem hk, rfl⟩), ?_⟩
  have hlt := Nat.mod_lt k.1 (Nat.two_pow_pos step)
  rw [List.getElem?_map, List.getElem?_range' hlt, Option.map_some, hvalue, Nat.one_mul,
    Nat.shiftLeft_eq, Nat.shiftRight_eq_div_pow, Nat.div_add_mod']

end

/-- One known value does not fill a coset. -/
theorem gatherCosets_single {step : Nat} (hstep : step ≠ 0) (i : Nat) (v : Felt) (layer : Nat) :
    gatherCosets [(i, v)] step [] layer = .error (.missingFriValues layer) := by
  have hfill (count position : Nat) : fillCoset (count + 2) position [(i, v)] [] = none := by
    by_cases h : i = position <;> simp [fillCoset, h]
  obtain ⟨count, hcount⟩ : ∃ count, 2 ^ step = count + 2 :=
    Nat.exists_eq_add_of_le' (Nat.le_self_pow hstep 2)
  have hnone : fillCosets step [(i, v)] [] = none := by
    rw [fillCosets]
    split
    · rfl
    · next h => simp [hcount, hfill] at h
  rw [gatherCosets, hnone]

/-! ## Wide cosets -/

/-- From `2 ^ 58` elements on a coset is too wide. -/
theorem tooWide_iff (step : Nat) : tooWide step = true ↔ 58 ≤ step := by
  rw [tooWide, decide_eq_true_eq, maxListBytes]
  constructor
  · intro h
    by_contra hlt
    have hle : 2 ^ step ≤ 2 ^ 57 := Nat.pow_le_pow_right Nat.two_pos (by omega)
    omega
  · intro h
    have hle : 2 ^ 58 ≤ 2 ^ step := Nat.pow_le_pow_right Nat.two_pos h
    omega

theorem gather_eq_overflowed_iff {known : List (Nat × Felt)} {step layer : Nat}
    {supplied : List Felt} :
    gather known step supplied layer = .overflowed ↔ known ≠ [] ∧ 58 ≤ step := by
  rw [← tooWide_iff, gather]
  cases known <;> cases tooWide step <;> simp

theorem gather_eq_answered_iff {known : List (Nat × Felt)} {step layer : Nat} {supplied : List Felt}
    {answer : Except VerifierError (List (Nat × List Felt))} :
    gather known step supplied layer = .answered answer ↔
      ¬(known ≠ [] ∧ 58 ≤ step) ∧ gatherCosets known step supplied layer = answer := by
  rw [← tooWide_iff, gather]
  cases known <;> cases tooWide step <;> simp

/-- Where there is room for a coset, the number of supplied values decides whether the cosets are
complete. Then their numbers are those of the known positions in ascending order, each coset has all its
members, the members at known positions are the known values, and the others are the supplied values in
order. No memory has room for `2 ^ 58` elements. -/
theorem gather_accounts {known : List (Nat × Felt)}
    (hascending : (known.map (·.1)).Pairwise (· < ·)) (step : Nat) (supplied : List Felt) (layer : Nat) :
    let keys := known.map (·.1)
    let needed := (openPositions step keys).length
    (gather known step supplied layer = .overflowed ↔ known ≠ [] ∧ 58 ≤ step) ∧
    (known = [] ∨ step < 58 →
      ((∃ cosets, gather known step supplied layer = .answered (.ok cosets)) ↔
        supplied.length = needed) ∧
      (gather known step supplied layer = .answered (.error (.missingFriValues layer)) ↔
        supplied.length < needed) ∧
      ∀ extra, gather known step supplied layer = .answered (.error (.unusedFriValues layer extra)) ↔
        needed < supplied.length ∧ extra = supplied.length - needed) ∧
    (∀ c, c ∈ touched step keys ↔ ∃ i ∈ keys, i >>> step = c) ∧
    (touched step keys).Pairwise (· < ·) ∧
    ∀ cosets, gather known step supplied layer = .answered (.ok cosets) →
      cosets.map (·.1) = touched step keys ∧ (∀ c ∈ cosets, c.2.length = 2 ^ step) ∧
      (placed step cosets).filter (fun k => k.1 ∈ keys) = known ∧
      ((placed step cosets).filter (fun k => k.1 ∉ keys)).map (·.2) = supplied := by
  intro keys needed
  refine ⟨gather_eq_overflowed_iff, fun hroom => ?_, fun c => mem_touched, pairwise_touched hascending,
    fun cosets h => ?_⟩
  · have hroom : ¬(known ≠ [] ∧ 58 ≤ step) := by
      rintro ⟨hne, hstep⟩
      rcases hroom with hnil | hlt
      · exact hne hnil
      · omega
    simp only [gather_eq_answered_iff, and_iff_right hroom]
    rcases gatherCosets_cases hascending step supplied layer with
      ⟨heq, cosets, h⟩ | ⟨hlt, h⟩ | ⟨hgt, h⟩
    · exact ⟨iff_of_true ⟨cosets, h⟩ heq, iff_of_false (by simp [h]) heq.not_lt,
        fun extra => iff_of_false (by simp [h]) fun hextra => heq.not_gt hextra.1⟩
    · exact ⟨iff_of_false (by simp [h]) hlt.ne, iff_of_true h hlt,
        fun extra => iff_of_false (by simp [h]) fun hextra => hlt.not_gt hextra.1⟩
    · refine ⟨iff_of_false (by simp [h]) hgt.ne', iff_of_false (by simp [h]) hgt.not_gt, fun extra => ?_⟩
      rw [h, Except.error.injEq, VerifierError.unusedFriValues.injEq, eq_comm (b := extra)]
      exact ⟨fun heq => ⟨hgt, heq.2⟩, fun hextra => ⟨rfl, hextra.2⟩⟩
  · obtain ⟨-, h⟩ := gather_eq_answered_iff.mp h
    exact ⟨map_fst_gatherCosets_eq_touched hascending h, length_of_mem_gatherCosets h,
      placed_gatherCosets hascending h⟩

/-- Two known values of one coset and one at the end of another, as the values 1 and 0 alternate. -/
theorem gather_accounts_two_cosets :
    let known : List (Nat × Felt) := [(1, 1), (2, 0), (11, 1)]
    (known.map (·.1)).Pairwise (· < ·) ∧ openPositions 2 (known.map (·.1)) = [0, 3, 8, 9, 10] ∧
    (∃ cosets, gather known 2 [0, 1, 0, 1, 0] 7 = .answered (.ok cosets) ∧
      cosets.map (·.1) = [0, 2]) ∧
    gather known 2 [0, 1, 0, 1] 7 = .answered (.error (.missingFriValues 7)) ∧
    gather known 2 [0, 1, 0, 1, 0, 1, 0] 7 = .answered (.error (.unusedFriValues 7 2)) := by
  intro known
  have hascending : (known.map (·.1)).Pairwise (· < ·) := by decide
  have hopen : openPositions 2 (known.map (·.1)) = [0, 3, 8, 9, 10] := by decide
  have hroom : known = [] ∨ 2 < 58 := Or.inr (by decide)
  refine ⟨hascending, hopen, ?_, ?_, ?_⟩
  · obtain ⟨-, hanswer, -, -, hmembers⟩ := gather_accounts hascending 2 [0, 1, 0, 1, 0] 7
    obtain ⟨cosets, h⟩ := (hanswer hroom).1.mpr (by rw [hopen]; rfl)
    exact ⟨cosets, h, (hmembers cosets h).1⟩
  · have hmissing := ((gather_accounts hascending 2 [0, 1, 0, 1] 7).2.1 hroom).2.1
    exact hmissing.mpr (by rw [hopen]; decide)
  · have hunused := ((gather_accounts hascending 2 [0, 1, 0, 1, 0, 1, 0] 7).2.1 hroom).2.2
    exact (hunused 2).mpr (by rw [hopen]; decide)

/-- One value of a coset of `2 ^ 58` is known and no other supplied: that these are too few is never
found out. -/
theorem gather_overflows_unsupplied :
    let known : List (Nat × Felt) := [(0, 1)]
    (known.map (·.1)).Pairwise (· < ·) ∧
      ([] : List Felt).length < (openPositions 58 (known.map (·.1))).length ∧
      gather known 58 [] 0 = .overflowed ∧
      gather known 58 [] 0 ≠ .answered (.error (.missingFriValues 0)) := by
  intro known
  have hover : gather known 58 [] 0 = .overflowed :=
    gather_eq_overflowed_iff.mpr ⟨by simp [known], Nat.le_refl 58⟩
  refine ⟨by decide, List.length_pos_of_mem (a := 1) ?_, hover, by simp [hover]⟩
  -- position 1 lies in the coset of position 0
  rw [openPositions, List.mem_filter, mem_touchedPositions, mem_touched]
  exact ⟨⟨0, by simp [known], by decide⟩, by simp [known]⟩

end StarkVerifier.Fri
