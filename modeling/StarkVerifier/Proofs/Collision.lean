import StarkVerifier.Hash

/-!
# Collisions

A hash is never assumed to be injective: a statement about what a digest commits to names, as its one
exception, two different messages that were hashed to the same digest.
-/

namespace StarkVerifier

/-- A message of the first list and a different one of the second have the same digest. -/
def Collides (hash : Bytes → Digest) (ms ms' : List Bytes) : Prop :=
  ∃ m ∈ ms, ∃ m' ∈ ms', m ≠ m' ∧ hash m = hash m'

namespace Collides

variable {hash : Bytes → Digest} {ms ms' ns ns' : List Bytes}

theorem symm (h : Collides hash ms ms') : Collides hash ms' ms := by
  obtain ⟨m, hm, m', hm', hne, heq⟩ := h
  exact ⟨m', hm', m, hm, hne.symm, heq.symm⟩

theorem mono (h : Collides hash ms ms') (hms : ms ⊆ ns) (hms' : ms' ⊆ ns') :
    Collides hash ns ns' := by
  obtain ⟨m, hm, m', hm', hne, heq⟩ := h
  exact ⟨m, hms hm, m', hms' hm', hne, heq⟩

theorem append_left (h : Collides hash ms ms') (ns ns' : List Bytes) :
    Collides hash (ms ++ ns) (ms' ++ ns') :=
  h.mono (List.subset_append_left _ _) (List.subset_append_left _ _)

theorem append_right (h : Collides hash ms ms') (ns ns' : List Bytes) :
    Collides hash (ns ++ ms) (ns' ++ ms') :=
  h.mono (List.subset_append_right _ _) (List.subset_append_right _ _)

theorem cons (h : Collides hash ms ms') (m m' : Bytes) : Collides hash (m :: ms) (m' :: ms') :=
  h.mono (List.subset_cons_self _ _) (List.subset_cons_self _ _)

/-- Messages with one digest collide unless they are the same. -/
theorem or_eq {m m' : Bytes} (hm : m ∈ ms) (hm' : m' ∈ ms') (heq : hash m = hash m') :
    Collides hash ms ms' ∨ m = m' := by
  by_cases h : m = m'
  · exact Or.inr h
  · exact Or.inl ⟨m, hm, m', hm', h, heq⟩

end Collides
end StarkVerifier
