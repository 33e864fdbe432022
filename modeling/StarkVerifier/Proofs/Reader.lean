import StarkVerifier.Bytes

/-!
# What a reader takes

A reader takes a written value when, whatever stands behind the bytes of the value, it takes them off the
front and leaves the rest. Written values that are taken one by one are taken one after the other. The
converse is that a reader takes nothing but written values; and where the bytes of a value are known but
not whether they spell one, the reader judges them.
-/

namespace StarkVerifier.Reader

variable {α β : Type}

theorem times_succ (item : Reader α) (n : Nat) :
    Reader.times item (n + 1) = (do return (← item) :: (← Reader.times item n) : Reader (List α)) := rfl

/-- The reader takes these bytes for this value and nothing behind them. -/
def Takes (r : Reader α) (bytes : Bytes) (a : α) : Prop := ∀ rest, r (bytes ++ rest) = some (a, rest)

namespace Takes

theorem pure (a : α) : Takes (Pure.pure a) [] a := fun _ => rfl

theorem bind {r : Reader α} {f : α → Reader β} {bytes others : Bytes} {a : α} {b : β}
    (h : Takes r bytes a) (hf : Takes (f a) others b) : Takes (r >>= f) (bytes ++ others) b := by
  intro rest
  rw [List.append_assoc]
  change (r (bytes ++ (others ++ rest))).bind (fun p => f p.1 p.2) = _
  rw [h]
  exact hf rest

/-- A value after which nothing more is taken. -/
theorem bind_nil {r : Reader α} {f : α → Reader β} {bytes : Bytes} {a : α} {b : β}
    (h : Takes r bytes a) (hf : Takes (f a) [] b) : Takes (r >>= f) bytes b := by
  have hbind := h.bind hf
  rwa [List.append_nil] at hbind

/-- A value that is read last and then put to use. -/
theorem map {r : Reader α} {bytes : Bytes} {a : α} (h : Takes r bytes a) (f : α → β) :
    Takes (do return f (← r)) bytes (f a) :=
  h.bind_nil (.pure (f a))

/-- A value that is read last and then judged. -/
theorem lift {r : Reader α} {f : α → Option β} {bytes : Bytes} {a : α} {b : β} (h : Takes r bytes a)
    (hf : f a = some b) : Takes (do Reader.lift (f (← r))) bytes b := by
  refine h.bind_nil ?_
  intro rest
  rw [hf]
  rfl

theorem take {n : Nat} {bytes : Bytes} (h : bytes.length = n) : Takes (Reader.take n) bytes bytes :=
  fun _ => Bytes.splitAt?_eq_some_iff.mpr ⟨rfl, h⟩

theorem times {item : Reader α} {write : α → Bytes} {as : List α}
    (h : ∀ a ∈ as, Takes item (write a) a) :
    Takes (Reader.times item as.length) (as.flatMap write) as := by
  induction as with
  | nil => exact fun _ => rfl
  | cons a as ih =>
      rw [List.forall_mem_cons] at h
      rw [List.length_cons, List.flatMap_cons, times_succ]
      exact h.1.bind ((ih h.2).map (a :: ·))

end Takes

/-! ## Nothing else is taken -/

theorem bind_eq_some_iff {r : Reader α} {f : α → Reader β} {bytes rest : Bytes} {b : β} :
    (r >>= f) bytes = some (b, rest) ↔
      ∃ a left, r bytes = some (a, left) ∧ f a left = some (b, rest) := by
  change (r bytes).bind (fun p => f p.1 p.2) = _ ↔ _
  rw [Option.bind_eq_some_iff, Prod.exists]

theorem bind_eq_none_of_none {r : Reader α} {f : α → Reader β} {bytes : Bytes} (h : r bytes = none) :
    (r >>= f) bytes = none := by
  change (r bytes).bind (fun p => f p.1 p.2) = none
  rw [h, Option.bind_none]

theorem bind_of_some {r : Reader α} {f : α → Reader β} {bytes left : Bytes} {a : α}
    (h : r bytes = some (a, left)) : (r >>= f) bytes = f a left := by
  change (r bytes).bind (fun p => f p.1 p.2) = _
  rw [h, Option.bind_some]

theorem pure_eq_some_iff {a b : α} {bytes rest : Bytes} :
    (pure a : Reader α) bytes = some (b, rest) ↔ a = b ∧ bytes = rest := by
  change some (a, bytes) = some (b, rest) ↔ _
  rw [Option.some.injEq, Prod.mk.injEq]

theorem lift_eq_some_iff {o : Option α} {a : α} {bytes rest : Bytes} :
    Reader.lift o bytes = some (a, rest) ↔ o = some a ∧ bytes = rest := by
  rw [Reader.lift, Option.map_eq_some_iff]
  constructor
  · rintro ⟨a', rfl, heq⟩
    obtain ⟨rfl, rfl⟩ := Prod.mk.inj heq
    exact ⟨rfl, rfl⟩
  · rintro ⟨rfl, rfl⟩
    exact ⟨a, rfl, rfl⟩

/-- Whatever the reader gives is of the kind, and is written in front of what it leaves. -/
def TakesOnly (r : Reader α) (write : α → Bytes) (kind : α → Prop) : Prop :=
  ∀ bytes a rest, r bytes = some (a, rest) → kind a ∧ bytes = write a ++ rest

theorem TakesOnly.times {item : Reader α} {write : α → Bytes} {kind : α → Prop}
    (h : TakesOnly item write kind) {n : Nat} {bytes rest : Bytes} {as : List α}
    (htimes : Reader.times item n bytes = some (as, rest)) :
    as.length = n ∧ (∀ a ∈ as, kind a) ∧ bytes = as.flatMap write ++ rest := by
  induction n generalizing bytes as with
  | zero =>
      rw [Reader.times, Option.some.injEq, Prod.mk.injEq] at htimes
      obtain ⟨rfl, rfl⟩ := htimes
      simp
  | succ n ih =>
      rw [times_succ] at htimes
      obtain ⟨a, left, ha, hothers⟩ := bind_eq_some_iff.mp htimes
      obtain ⟨others, last, htail, hcons⟩ := bind_eq_some_iff.mp hothers
      obtain ⟨rfl, rfl⟩ := pure_eq_some_iff.mp hcons
      obtain ⟨hkind, rfl⟩ := h _ _ _ ha
      obtain ⟨hlength, hkinds, rfl⟩ := ih htail
      refine ⟨?_, List.forall_mem_cons.mpr ⟨hkind, hkinds⟩, ?_⟩
      · rw [List.length_cons, hlength]
      · rw [List.flatMap_cons, List.append_assoc]

/-! ## Bytes that may spell no value -/

/-- Whatever follows these bytes, the reader takes all of them if they are sound, and fails if not. -/
def Judges (r : Reader α) (bytes : Bytes) (sound : Prop) : Prop :=
  ∀ rest, (sound ∧ ∃ a, r (bytes ++ rest) = some (a, rest)) ∨ (¬sound ∧ r (bytes ++ rest) = none)

namespace Judges

variable {P Q : Prop} {r : Reader α} {f : α → Reader β} {bytes others : Bytes} {a : α}

theorem congr (h : Judges r bytes P) (hiff : P ↔ Q) : Judges r bytes Q := by
  intro rest
  rw [← hiff]
  exact h rest

theorem bind (h : Judges r bytes P) (hf : ∀ a, Judges (f a) others Q) :
    Judges (r >>= f) (bytes ++ others) (P ∧ Q) := by
  intro rest
  rw [List.append_assoc]
  rcases h (others ++ rest) with ⟨hP, a, ha⟩ | ⟨hP, hnone⟩
  · rw [bind_of_some ha]
    rcases hf a rest with ⟨hQ, hb⟩ | ⟨hQ, hnone⟩
    · exact Or.inl ⟨⟨hP, hQ⟩, hb⟩
    · exact Or.inr ⟨fun hboth => hQ hboth.2, hnone⟩
  · exact Or.inr ⟨fun hboth => hP hboth.1, bind_eq_none_of_none hnone⟩

/-- A value that is read for certain in front of others. -/
theorem of_takes (h : Takes r bytes a) (hf : Judges (f a) others Q) :
    Judges (r >>= f) (bytes ++ others) Q := by
  intro rest
  rw [List.append_assoc, bind_of_some (h _)]
  exact hf rest

/-- A value that is read last and then put to use. -/
theorem map (h : Judges r bytes P) (f : α → β) : Judges (do return f (← r)) bytes P := by
  intro rest
  rcases h rest with ⟨hP, a, ha⟩ | ⟨hP, hnone⟩
  · exact Or.inl ⟨hP, f a, bind_of_some ha⟩
  · exact Or.inr ⟨hP, bind_eq_none_of_none hnone⟩

/-- A value that is read for certain and then judged. -/
theorem lift {f : α → Option β} (h : Takes r bytes a) (hf : (∃ b, f a = some b) ↔ P) :
    Judges (do Reader.lift (f (← r))) bytes P := by
  intro rest
  have hread : (do Reader.lift (f (← r))) (bytes ++ rest) = Reader.lift (f a) rest := bind_of_some (h rest)
  rw [hread, ← hf]
  cases hcase : f a with
  | none => exact Or.inr ⟨by simp, rfl⟩
  | some b => exact Or.inl ⟨⟨b, rfl⟩, b, rfl⟩

theorem times {item : Reader α} {write : β → Bytes} {sound : β → Prop} {bs : List β}
    (h : ∀ b ∈ bs, Judges item (write b) (sound b)) :
    Judges (Reader.times item bs.length) (bs.flatMap write) (∀ b ∈ bs, sound b) := by
  induction bs with
  | nil => exact fun rest => Or.inl ⟨by simp, [], rfl⟩
  | cons b bs ih =>
      rw [List.forall_mem_cons] at h ⊢
      rw [List.length_cons, List.flatMap_cons, times_succ]
      exact h.1.bind fun a => (ih h.2).map (a :: ·)

end Judges
end StarkVerifier.Reader
