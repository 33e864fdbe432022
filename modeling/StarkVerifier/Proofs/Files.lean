import Mathlib.Data.List.Basic
import StarkVerifier.Files

/-!
# Files read back

A file that was written is found under the path it was written to. Main statement: `read_of_write`.
-/

namespace StarkVerifier.FileStore

theorem entry?_put_self (s : FileStore) (place : List String) (e : Entry) :
    entry? (s.put place e) place = some e := by
  rw [ entry?, put, List.lookup_cons_self]

theorem entry?_put_of_ne {s : FileStore} {place other : List String} (h : other ≠ place) (e : Entry) :
    entry? (s.put place e) other = s.entry? other := by
  have hfilter (entries : List (List String × Entry)) :
      (entries.filter (·.1 ≠ place)).lookup other = entries.lookup other := by
    induction entries with
    | nil => rfl
    | cons entry entries ih =>
        by_cases hplace : entry.1 = place
        · have hother : (other == entry.1) = false := by
            rw [hplace]
            exact beq_false_of_ne h
          rw [List.filter_cons_of_neg (by simpa using hplace), ih, List.lookup_cons, hother]
        · rw [List.filter_cons_of_pos (by simpa using hplace), List.lookup_cons, List.lookup_cons, ih]
  rw [ entry?, put, List.lookup_cons, beq_false_of_ne h]
  exact hfilter s.entries

/-- Where something stood, something stands. -/
theorem isSome_entry?_put {s : FileStore} {other : List String} (h : (s.entry? other).isSome = true)
    (place : List String) (e : Entry) : ( entry? (s.put place e) other).isSome = true := by
  by_cases hplace : other = place
  · subst hplace
    rw [entry?_put_self]
    rfl
  · rwa [entry?_put_of_ne hplace]

theorem walk?_append (s : FileStore) (place : List String) (names others : List String) :
    s.walk? place (names ++ others) = (s.walk? place names).bind fun q => s.walk? q others := by
  induction names generalizing place with
  | nil => rfl
  | cons name names ih =>
      rw [List.cons_append, walk?, walk?]
      split
      · rfl
      split
      · exact ih place
      split
      · exact ih place.dropLast
      split
      · exact ih (place ++ [name])
      · rfl

/-- A walk goes on where it went if what is put down takes no directory's place. -/
theorem walk?_put {s : FileStore} {place : List String} (hplace : s.entry? place ≠ some .directory)
    (e : Entry) {start finish names : List String} (h : s.walk? start names = some finish) :
    (s.put place e).walk? start names = some finish := by
  induction names generalizing start with
  | nil => exact h
  | cons name names ih =>
      unfold walk? at h ⊢
      by_cases hstart : s.entry? start = some .directory
      · have hne : start ≠ place := by
          rintro rfl
          exact hplace hstart
        rw [entry?_put_of_ne hne, if_neg (not_not_intro hstart)]
        rw [if_neg (not_not_intro hstart)] at h
        split at h
        · next hidle =>
          rw [if_pos hidle]
          exact ih h
        next hidle =>
        rw [if_neg hidle]
        split at h
        · next hup =>
          rw [if_pos hup]
          exact ih h
        next hup =>
        rw [if_neg hup]
        split at h
        · next hnext =>
          rw [if_pos (isSome_entry?_put hnext place e)]
          exact ih h
        · nomatch h
      · rw [if_pos hstart] at h
        nomatch h

theorem read_of_create? {s s' : FileStore} {path : String} {content : Bytes}
    (h : s.create? path content = some s') : s'.read path = .content content := by
  unfold create? at h
  obtain ⟨name, hname, h⟩ := Option.bind_eq_some_iff.mp h
  obtain ⟨directory, hwalk, h⟩ := Option.bind_eq_some_iff.mp h
  dsimp only at h
  split at h
  · nomatch h
  next hfits =>
  obtain rfl : s.put (directory ++ [name]) (.file content) = s' := Option.some.inj h
  simp only [not_or, Bool.not_eq_true, ne_eq, not_not, List.mem_cons, List.not_mem_nil, or_false,
    Bool.not_eq_false'] at hfits
  obtain ⟨hpath, ⟨hempty, hdot, hup⟩, -, hdirectory, hplace⟩ := hfits
  have hsegments : Path.segments path = (Path.segments path).dropLast ++ [name] := by
    have happend := List.dropLast_append_getLast? name hname
    exact happend.symm
  have hne : path ≠ "" := by
    rintro rfl
    have hlast : (Path.segments "").getLast? = some "" := by decide
    exact hempty (Option.some.inj (hname.symm.trans hlast))
  have hdirectory' : directory ≠ directory ++ [name] := by
    intro heq
    exact hplace (heq ▸ hdirectory)
  have hfound : (s.put (directory ++ [name]) (.file content)).walk? (s.origin path)
      (Path.segments path) = some (directory ++ [name]) := by
    rw [hsegments, walk?_append, walk?_put hplace _ hwalk, Option.bind_some]
    unfold walk?
    rw [entry?_put_of_ne hdirectory', if_neg (not_not_intro hdirectory),
      if_neg (not_or.mpr ⟨hempty, hdot⟩), if_neg hup, entry?_put_self]
    exact if_pos rfl
  have horigin : (s.put (directory ++ [name]) (.file content)).origin path = s.origin path := rfl
  unfold read
  rw [if_neg (by rw [hpath]; simpa using hne), horigin, hfound, Option.bind_some, entry?_put_self]

/-- What was written to a path is read from it. -/
theorem read_of_write {s s' : FileStore} {path : String} {content : Bytes}
    (h : s.write path content = (.written, s')) : s'.read path = .content content := by
  unfold write at h
  dsimp only at h
  split at h
  · nomatch h
  split at h
  · nomatch h
  split at h
  · nomatch h
  · next hcreate =>
    obtain rfl := (Prod.mk.inj h).2
    exact read_of_create? hcreate

/-- A store holds all of a file or nothing of it. -/
theorem write_whole (s : FileStore) (path : String) (content : Bytes) :
    (s.write path content).1 ∈ [WriteOutcome.noParent, .notCreated, .written] := by
  unfold write
  dsimp only
  split
  · exact List.mem_cons_self
  split
  · exact List.mem_cons_self
  split
  · exact List.mem_cons_of_mem _ List.mem_cons_self
  · exact List.mem_cons_of_mem _ (List.mem_cons_of_mem _ List.mem_cons_self)

/-! ## Names of files -/

/-- A name that is a path of its own and can be borne by a file. -/
structure IsFileName (name : String) : Prop where
  segments : Path.segments name = [name]
  relative : name.toList.head? ≠ some '/'
  leads : name ∉ ["", ".", ".."]
  short : name.utf8ByteSize ≤ 255
  unbroken : '\x00' ∉ name.toList

instance (name : String) : Decidable (IsFileName name) :=
  decidable_of_iff (Path.segments name = [name] ∧ name.toList.head? ≠ some '/' ∧
      name ∉ ["", ".", ".."] ∧ name.utf8ByteSize ≤ 255 ∧ '\x00' ∉ name.toList)
    ⟨fun ⟨segments, relative, leads, short, unbroken⟩ => { segments, relative, leads, short, unbroken },
      fun h => ⟨h.segments, h.relative, h.leads, h.short, h.unbroken⟩⟩

theorem isPath_of_short {path : String} (hshort : path.utf8ByteSize ≤ 255)
    (hunbroken : '\x00' ∉ path.toList) : isPath path = true := by
  rw [isPath, String.contains_char_eq, decide_eq_true (Nat.le_trans hshort (by decide)),
    decide_eq_false hunbroken]
  rfl

theorem IsFileName.parent_eq {name : String} (h : IsFileName name) : Path.parent name = "" := by
  have hleads := h.leads
  simp only [List.mem_cons, List.not_mem_nil, or_false, not_or] at hleads
  have hidle : Path.isIdle name = false := by
    simp only [Path.isIdle, hleads.1, hleads.2.1, decide_false, Bool.or_false]
  unfold Path.parent
  rw [h.segments]
  simp only [List.reverse_singleton, List.dropWhile_cons_of_neg, hidle, Bool.false_eq_true,
    not_false_eq_true]
  rfl

/-- A file of the current directory can be written unless a directory bears its name. -/
theorem IsFileName.write_eq {name : String} (h : IsFileName name) {s : FileStore}
    (hdirectory : s.entry? s.current = some .directory)
    (hplace : s.entry? (s.current ++ [name]) ≠ some .directory) (content : Bytes) :
    s.write name content = (.written, s.put (s.current ++ [name]) (.file content)) := by
  have hnone : Path.components "" = [] := by decide
  have hroot : isPath "" = true := isPath_of_short (by decide) (by decide)
  have hpath : isPath name = true := isPath_of_short h.short h.unbroken
  have hname : isName name = true := decide_eq_true h.short
  have hcreate : s.create? name content = some (s.put (s.current ++ [name]) (.file content)) := by
    unfold create?
    rw [h.segments, origin, if_neg h.relative]
    simp only [List.getLast?_singleton, List.dropLast_singleton, walk?, bind, Option.bind_some]
    rw [if_neg]
    simp only [hpath, hname, hdirectory, not_or, Bool.not_true, Bool.false_eq_true,
      not_false_eq_true, ne_eq, not_true_eq_false, true_and]
    exact ⟨h.leads, hplace⟩
  unfold write
  dsimp only
  rw [h.parent_eq, hroot, hnone, makeDirectories]
  dsimp only
  rw [hcreate]
  rfl

end StarkVerifier.FileStore
