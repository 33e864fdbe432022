import Mathlib.Algebra.BigOperators.Intervals
import StarkVerifier.Fri
import StarkVerifier.Proofs.Field.Domain
import StarkVerifier.Proofs.Field.Polynomial
import StarkVerifier.Proofs.Fri.Layers

/-!
# Folding as an operation on polynomials

A layer that holds the values of a polynomial folds to the layer of another polynomial, of which the
degree bound is halved by every round. Main statement: `foldCoset_segment`.
-/

namespace StarkVerifier.Fri

open Polynomial Felt

variable {d : EvalDomain}

/-! ## Folded polynomials -/

/-- What one round makes of a polynomial. -/
noncomputable def foldOnce (challenge : Felt) (f : Felt[X]) : Felt[X] :=
  C 2 * (evenPart f + C challenge * oddPart f)

/-- What `rounds` rounds make of a polynomial, each squaring the challenge. -/
noncomputable def foldMany : Nat → Felt → Felt[X] → Felt[X]
  | 0, _, f => f
  | rounds + 1, challenge, f => foldMany rounds challenge.square (foldOnce challenge f)

theorem degree_foldOnce_lt {n : Nat} {f : Felt[X]} (challenge : Felt)
    (h : f.degree < (2 * n : Nat)) : (foldOnce challenge f).degree < n := by
  have hodd := degree_C_mul_lt challenge (degree_oddPart_lt h)
  exact degree_C_mul_lt 2 (degree_add_lt_of_lt (degree_evenPart_lt h) hodd)

theorem degree_foldMany_lt {rounds n : Nat} {f : Felt[X]} (challenge : Felt)
    (h : f.degree < (2 ^ rounds * n : Nat)) : (foldMany rounds challenge f).degree < n := by
  induction rounds generalizing challenge f with
  | zero => simpa [foldMany] using h
  | succ rounds ih =>
      refine ih challenge.square (degree_foldOnce_lt challenge ?_)
      rwa [Nat.pow_succ', Nat.mul_assoc] at h

/-- The values at `x` and `-x` fold to the folded polynomial's value at `x ^ 2`. -/
theorem eval_foldOnce (challenge : Felt) (f : Felt[X]) {x : Felt} (hx : x ≠ 0) :
    f.eval x + f.eval (-x) + challenge * x⁻¹ * (f.eval x - f.eval (-x)) =
      (foldOnce challenge f).eval (x ^ 2) := by
  rw [eval_eq_even_add_odd f x, eval_eq_even_add_odd f (-x), neg_sq, foldOnce, eval_mul, eval_C,
    eval_add, eval_mul, eval_C]
  field_simp
  ring

/-! ## Coefficients of folded polynomials -/

/-- Each coefficient of the second polynomial is the weighted sum of `width` neighbouring coefficients of
the first, times their number. -/
def Mixes (width : Nat) (weight : Nat → Felt) (f g : Felt[X]) : Prop :=
  ∀ j, g.coeff j = width * ∑ m ∈ Finset.range width, f.coeff (j * width + m) * weight m

theorem sum_range_mul (F : Nat → Felt) (count width : Nat) :
    ∑ m ∈ Finset.range (width * count), F m =
      ∑ i ∈ Finset.range count, ∑ j ∈ Finset.range width, F (i * width + j) := by
  induction count with
  | zero => simp
  | succ count ih =>
      rw [Nat.mul_succ, Finset.sum_range_add, ih, Finset.sum_range_succ, Nat.mul_comm width]

/-- The weights of two mixtures multiply, one digit of the place for each. -/
theorem Mixes.trans {a b : Nat} {u v : Nat → Felt} {f g h : Felt[X]} (hfg : Mixes a u f g)
    (hgh : Mixes b v g h) : Mixes (a * b) (fun m => u (m % a) * v (m / a)) f h := by
  intro j
  have hblock : ∀ i, g.coeff (j * b + i) * v i = a * ∑ m ∈ Finset.range a,
      f.coeff (j * (a * b) + (i * a + m)) * (u ((i * a + m) % a) * v ((i * a + m) / a)) := by
    intro i
    rw [hfg (j * b + i), mul_assoc, Finset.sum_mul]
    refine congrArg ((a : Felt) * ·) (Finset.sum_congr rfl fun m hm => ?_)
    have hlt := Finset.mem_range.mp hm
    have hplace : (j * b + i) * a + m = j * (a * b) + (i * a + m) := by ring
    have hlow : (i * a + m) % a = m := by rw [Nat.mul_add_mod', Nat.mod_eq_of_lt hlt]
    have hhigh : (i * a + m) / a = i := by
      rw [Nat.mul_comm, Nat.mul_add_div (by omega), Nat.div_eq_of_lt hlt, Nat.add_zero]
    rw [hplace, hlow, hhigh, mul_assoc]
  rw [hgh j, Finset.sum_congr rfl fun i _ => hblock i, ← Finset.mul_sum, sum_range_mul,
    Nat.cast_mul, ← mul_assoc, mul_comm (b : Felt)]

theorem mixes_foldOnce (challenge : Felt) (f : Felt[X]) :
    Mixes 2 (challenge ^ ·) f (foldOnce challenge f) := by
  intro j
  rw [foldOnce, coeff_C_mul, coeff_add, coeff_C_mul, evenPart, oddPart, coeff_contract (by decide),
    coeff_contract (by decide), coeff_divX, Finset.sum_range_succ, Finset.sum_range_one,
    Nat.cast_two]
  show 2 * (f.coeff (j * 2) + challenge * f.coeff (j * 2 + 1)) =
    2 * (f.coeff (j * 2) * challenge ^ 0 + f.coeff (j * 2 + 1) * challenge ^ 1)
  rw [pow_zero, pow_one, mul_one, mul_comm challenge]

theorem mixes_foldMany (step : Nat) (challenge : Felt) (f : Felt[X]) :
    Mixes (2 ^ step) (challenge ^ ·) f (foldMany step challenge f) := by
  induction step generalizing challenge f with
  | zero =>
      intro j
      simp [foldMany]
  | succ step ih =>
      have hweight : (challenge ^ · : Nat → Felt) =
          fun m => challenge ^ (m % 2) * challenge.square ^ (m / 2) := by
        funext m
        have hsquare : challenge.square = challenge ^ 2 := (pow_two challenge).symm
        rw [hsquare, ← pow_mul, ← pow_add, Nat.mod_add_div]
      rw [hweight, Nat.pow_succ']
      exact (mixes_foldOnce challenge f).trans (ih challenge.square _)

/-! ## Layers of polynomials -/

/-- The values of a polynomial on the layer of length `2 ^ log`. -/
noncomputable def layerOf (d : EvalDomain) (log : Nat) (f : Felt[X]) : List Felt :=
  (List.range (2 ^ log)).map fun i => f.eval (d.point log i)

/-- The values at `count` places from `start` on. -/
noncomputable def segment (d : EvalDomain) (log : Nat) (f : Felt[X]) (start count : Nat) : List Felt :=
  (List.range' start count).map fun i => f.eval (d.point log i)

theorem length_segment (log : Nat) (f : Felt[X]) (start count : Nat) :
    (segment d log f start count).length = count := by
  rw [segment, List.length_map, List.length_range']

@[simp] theorem length_layerOf (log : Nat) (f : Felt[X]) : (layerOf d log f).length = 2 ^ log := by
  rw [layerOf, List.length_map, List.length_range]

theorem layerOf_getElem? (log : Nat) (f : Felt[X]) {i : Nat} (h : i < 2 ^ log) :
    (layerOf d log f)[i]? = some (f.eval (d.point log i)) := by
  rw [layerOf, List.getElem?_map, List.getElem?_range h, Option.map_some]

theorem cosetAt_layerOf {log step c : Nat} (f : Felt[X]) (hc : c < 2 ^ log / 2 ^ step) :
    cosetAt step (layerOf d log f) c = segment d log f (c * 2 ^ step) (2 ^ step) := by
  have hend := coset_end_le hc
  have hrange : ((List.range (2 ^ log)).drop (c * 2 ^ step)).take (2 ^ step) =
      List.range' (c * 2 ^ step) (2 ^ step) := by
    rw [List.range_eq_range', List.drop_range', List.take_range'_of_length_ge]
    · simp
    · omega
  rw [cosetAt, layerOf, ← List.map_drop, ← List.map_take, hrange, segment]

theorem foldPairs_segment (hd : d.Valid) {log : Nat} (hlog : log + 1 ≤ d.logSize) (f : Felt[X])
    (challenge : Felt) (start count : Nat) :
    foldPairs d (2 ^ (log + 1)) challenge start (segment d (log + 1) f (2 * start) (2 * count)) =
      segment d log (foldOnce challenge f) start count := by
  induction count generalizing start with
  | zero => rfl
  | succ count ih =>
      have hhalf : (2 ^ (log + 1) / 2).log2 = log := by
        rw [two_pow_succ_div_two, Nat.log2_two_pow]
      have hpoint : d.inverseElement (bitReverse log start * (d.size / 2 ^ (log + 1))) =
          (d.point (log + 1) (2 * start))⁻¹ := by
        rw [hd.inverseElement_eq, EvalDomain.point, bitReverse_two_mul, ← pow_mul, Nat.mul_comm]
      have hsplit : segment d (log + 1) f (2 * start) (2 * (count + 1)) =
          f.eval (d.point (log + 1) (2 * start)) :: f.eval (d.point (log + 1) (2 * start + 1)) ::
            segment d (log + 1) f (2 * (start + 1)) (2 * count) := rfl
      -- the two values stand at a point and at its negative
      rw [hsplit, foldPairs, ih, hhalf, hpoint, hd.point_two_mul_add_one hlog,
        eval_foldOnce challenge f (hd.point_ne_zero _ _), EvalDomain.Valid.point_two_mul_sq hlog]
      rfl

theorem foldRounds_segment (hd : d.Valid) {rounds log : Nat} (hlog : log ≤ d.logSize)
    (hrounds : rounds ≤ log) (f : Felt[X]) (challenge : Felt) (c : Nat) :
    foldRounds d c rounds (2 ^ log) challenge (segment d log f (c * 2 ^ rounds) (2 ^ rounds)) =
      [(foldMany rounds challenge f).eval (d.point (log - rounds) c)] := by
  induction rounds generalizing log challenge f with
  | zero => rw [Nat.pow_zero, Nat.mul_one, Nat.sub_zero]; rfl
  | succ rounds ih =>
      obtain ⟨log, rfl⟩ : ∃ k, log = k + 1 := ⟨log - 1, by omega⟩
      have hstart : c * 2 ^ (rounds + 1) = 2 * (c * 2 ^ rounds) := by ring
      rw [foldRounds, length_segment, two_pow_succ_div_two, two_pow_succ_div_two, hstart,
        Nat.pow_succ' (n := rounds), foldPairs_segment hd hlog, ih (by omega) (by omega), foldMany,
        Nat.add_sub_add_right]

theorem cosetFits_iff {c size layerLength : Nat} :
    cosetFits d c size layerLength = true ↔ ∃ step log, size = 2 ^ step ∧ layerLength = 2 ^ log ∧
      layerLength ≤ d.size ∧ c < 2 ^ log / 2 ^ step := by
  simp only [cosetFits, Bool.and_eq_true, decide_eq_true_eq, isTwoPower_iff]
  constructor
  · rintro ⟨⟨⟨⟨hsize, hlayer⟩, hdomain⟩, -⟩, hc⟩
    exact ⟨size.log2, layerLength.log2, hsize, hlayer, hdomain, by rwa [← hsize, ← hlayer]⟩
  · rintro ⟨step, log, rfl, rfl, hdomain, hc⟩
    have hpos : 0 < 2 ^ log / 2 ^ step := Nat.zero_lt_of_lt hc
    rw [Nat.log2_two_pow, Nat.log2_two_pow]
    exact ⟨⟨⟨⟨rfl, rfl⟩, hdomain⟩, (Nat.div_pos_iff.mp hpos).2⟩, hc⟩

/-- A coset of a layer no longer than the domain fits in it. -/
theorem cosetFits_two_pow {step log c : Nat} (hlog : log ≤ d.logSize) (hstep : step ≤ log)
    (hc : c < 2 ^ (log - step)) : cosetFits d c (2 ^ step) (2 ^ log) = true := by
  have hsize : 2 ^ log ≤ d.size := Nat.pow_le_pow_right Nat.two_pos hlog
  exact cosetFits_iff.mpr ⟨step, log, rfl, rfl, hsize, by rwa [two_pow_div_two_pow hstep]⟩

/-- The values of a polynomial on a coset fold to the folded polynomial's value at the coset's place. -/
theorem foldCoset_segment (hd : d.Valid) {step log c : Nat} (hlog : log ≤ d.logSize)
    (hstep : step ≤ log) (hc : c < 2 ^ (log - step)) (f : Felt[X]) (challenge : Felt) :
    foldCoset (segment d log f (c * 2 ^ step) (2 ^ step)) challenge c (2 ^ log) d =
      .ok ((foldMany step challenge f).eval (d.point (log - step) c)) := by
  rw [foldCoset, length_segment, if_pos (cosetFits_two_pow hlog hstep hc), Nat.log2_two_pow,
    foldRounds_segment hd hlog hstep, List.headD_cons]

theorem foldCoset_layerOf (hd : d.Valid) {step log c : Nat} (hlog : log ≤ d.logSize)
    (hstep : step ≤ log) (hc : c < 2 ^ (log - step)) (f : Felt[X]) (challenge : Felt) :
    foldCoset (cosetAt step (layerOf d log f) c) challenge c (2 ^ log) d =
      .ok ((foldMany step challenge f).eval (d.point (log - step) c)) := by
  have hcount : c < 2 ^ log / 2 ^ step := by rwa [two_pow_div_two_pow hstep]
  rw [cosetAt_layerOf f hcount, foldCoset_segment hd hlog hstep hc]

end StarkVerifier.Fri
