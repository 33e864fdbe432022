import StarkVerifier.Proofs.ProofFile.Packed
import StarkVerifier.Proofs.Result

/-!
# The packed form has one spelling

The packed reader gives a proof exactly where the file begins with what is written for it. So nothing is
read from a file cut short, and a file in which some element or digest is misspelled is refused, wherever
in the proof it stands. Main statement: `reads_what_is_written`.
-/

namespace StarkVerifier.Packed

open Reader (TakesOnly Judges bind_eq_some_iff pure_eq_some_iff lift_eq_some_iff)

variable {α : Type}

/-! ## Values that are read were written -/

theorem takesOnly_word : TakesOnly readWord word fun _ => True := by
  intro file w rest h
  obtain ⟨front, left, htake, hpure⟩ := bind_eq_some_iff.mp h
  obtain ⟨rfl, rfl⟩ := pure_eq_some_iff.mp hpure
  obtain ⟨rfl, hlength⟩ := Bytes.splitAt?_eq_some_iff.mp htake
  have hword : Bytes.ofWord (Bytes.toWord front.reverse) = front.reverse :=
    Bytes.ofWord_toWord (by rw [List.length_reverse, hlength])
  exact ⟨trivial, by rw [word, hword, List.reverse_reverse]⟩

theorem takesOnly_bytes : TakesOnly readBytes bytes (·.length < 2 ^ 64) := by
  intro file b rest h
  obtain ⟨w, left, hword, htake⟩ := bind_eq_some_iff.mp h
  obtain ⟨-, rfl⟩ := takesOnly_word _ _ _ hword
  obtain ⟨rfl, hlength⟩ := Bytes.splitAt?_eq_some_iff.mp htake
  refine ⟨lt_of_eq_of_lt hlength w.toNat_lt, ?_⟩
  rw [bytes, count, hlength, UInt64.ofNat_toNat, List.append_assoc]

theorem eq_of_ofBytes? {b : Bytes} {d : Digest} (h : Digest.ofBytes? b = some d) : b = d.bytes := by
  unfold Digest.ofBytes? at h
  split at h
  · exact congrArg Digest.bytes (Option.some.inj h)
  · nomatch h

theorem takesOnly_digest : TakesOnly readDigest digest fun _ => True := by
  intro file d rest h
  obtain ⟨b, left, hbytes, hlift⟩ := bind_eq_some_iff.mp h
  obtain ⟨hdigest, rfl⟩ := lift_eq_some_iff.mp hlift
  obtain ⟨-, rfl⟩ := takesOnly_bytes _ _ _ hbytes
  exact ⟨trivial, by rw [digest, eq_of_ofBytes? hdigest]⟩

theorem takesOnly_felt : TakesOnly readFelt Felt.toBytes fun _ => True := by
  intro file a rest h
  obtain ⟨b, left, htake, hlift⟩ := bind_eq_some_iff.mp h
  obtain ⟨hfelt, rfl⟩ := lift_eq_some_iff.mp hlift
  obtain ⟨rfl, -⟩ := Bytes.splitAt?_eq_some_iff.mp htake
  exact ⟨trivial, by rw [Felt.ofBytes_eq_ok_iff.mp (toOption_eq_some_iff.mp hfelt)]⟩

theorem takesOnly_list {item : Reader α} {write : α → Bytes} {kind : α → Prop}
    (h : TakesOnly item write kind) :
    TakesOnly (readList item) (list write) fun as => as.length < 2 ^ 64 ∧ ∀ a ∈ as, kind a := by
  intro file as rest hread
  obtain ⟨w, left, hword, htimes⟩ := bind_eq_some_iff.mp hread
  obtain ⟨-, rfl⟩ := takesOnly_word _ _ _ hword
  obtain ⟨hlength, hkinds, rfl⟩ := h.times htimes
  refine ⟨⟨lt_of_eq_of_lt hlength w.toNat_lt, hkinds⟩, ?_⟩
  rw [list, count, hlength, UInt64.ofNat_toNat, List.append_assoc]

theorem takesOnly_felts :
    TakesOnly (readList readFelt) (list Felt.toBytes) fun as => as.length < 2 ^ 64 ∧ ∀ a ∈ as, True :=
  takesOnly_list takesOnly_felt

theorem takesOnly_digests :
    TakesOnly (readList readDigest) (list digest) fun ds => ds.length < 2 ^ 64 ∧ ∀ d ∈ ds, True :=
  takesOnly_list takesOnly_digest

theorem takesOnly_rows :
    TakesOnly (readList (readList readFelt)) (list (list Felt.toBytes)) fun rows =>
      rows.length < 2 ^ 64 ∧ ∀ row ∈ rows, row.length < 2 ^ 64 ∧ ∀ a ∈ row, True :=
  takesOnly_list takesOnly_felts

theorem takesOnly_layer : TakesOnly readLayer layer FriLayer.Countable := by
  intro file l rest h
  simp only [readLayer, bind_eq_some_iff, pure_eq_some_iff] at h
  obtain ⟨root, s1, hroot, values, s2, hvalues, decommitment, s3, hdecommitment, rfl, rfl⟩ := h
  obtain ⟨-, rfl⟩ := takesOnly_digest _ _ _ hroot
  obtain ⟨⟨hcount, -⟩, rfl⟩ := takesOnly_felts _ _ _ hvalues
  obtain ⟨⟨hdigests, -⟩, rfl⟩ := takesOnly_digests _ _ _ hdecommitment
  exact ⟨⟨hcount, hdigests⟩, by simp only [layer, List.append_assoc]⟩

/-- A proof that is read was written in front of what is left, field by field. -/
theorem takesOnly_proof : TakesOnly readProof proof Proof.Countable := by
  intro file p rest h
  simp only [readProof, bind_eq_some_iff, pure_eq_some_iff] at h
  obtain ⟨publicInputs, s1, h1, traceRoot, s2, h2, constraintRoot, s3, h3, traceOods, s4, h4,
    constraintOods, s5, h5, friLayers, s6, h6, lastLayer, s7, h7, powNonce, s8, h8, traceRows, s9, h9,
    traceDecommitment, s10, h10, constraintRows, s11, h11, constraintDecommitment, s12, h12, rfl,
    rfl⟩ := h
  obtain ⟨hinputs, rfl⟩ := takesOnly_bytes _ _ _ h1
  obtain ⟨-, rfl⟩ := takesOnly_digest _ _ _ h2
  obtain ⟨-, rfl⟩ := takesOnly_digest _ _ _ h3
  obtain ⟨⟨htraceOods, -⟩, rfl⟩ := takesOnly_felts _ _ _ h4
  obtain ⟨⟨hconstraintOods, -⟩, rfl⟩ := takesOnly_felts _ _ _ h5
  obtain ⟨⟨hcount, hlayers⟩, rfl⟩ := takesOnly_list takesOnly_layer _ _ _ h6
  obtain ⟨⟨hlast, -⟩, rfl⟩ := takesOnly_felts _ _ _ h7
  obtain ⟨-, rfl⟩ := takesOnly_word _ _ _ h8
  obtain ⟨⟨htraceRows, htraceRow⟩, rfl⟩ := takesOnly_rows _ _ _ h9
  obtain ⟨⟨htrace, -⟩, rfl⟩ := takesOnly_digests _ _ _ h10
  obtain ⟨⟨hconstraintRows, hconstraintRow⟩, rfl⟩ := takesOnly_rows _ _ _ h11
  obtain ⟨⟨hconstraint, -⟩, rfl⟩ := takesOnly_digests _ _ _ h12
  refine ⟨?_, by simp only [proof, List.append_assoc]⟩
  exact {
    publicInputs := hinputs
    traceOods := htraceOods
    constraintOods := hconstraintOods
    friLayers := hcount
    layers := hlayers
    lastLayer := hlast
    traceRows := htraceRows
    traceRowLengths := fun row hrow => (htraceRow row hrow).1
    traceDecommitment := htrace
    constraintRows := hconstraintRows
    constraintRowLengths := fun row hrow => (hconstraintRow row hrow).1
    constraintDecommitment := hconstraint }

/-! ## One spelling for each proof -/

section

variable {p q : Proof} {file : Bytes}

theorem proof?_eq_some_iff : proof? file = some p ↔ p.Countable ∧ proof p <+: file := by
  constructor
  · intro h
    obtain ⟨⟨p', rest⟩, hread, rfl⟩ := Option.map_eq_some_iff.mp h
    obtain ⟨hcount, rfl⟩ := takesOnly_proof _ _ _ hread
    exact ⟨hcount, List.prefix_append _ _⟩
  · rintro ⟨hcount, rest, rfl⟩
    rw [proof?, takes_proof hcount, Option.map_some]

theorem eq_of_proof_prefix (hp : p.Countable) (hq : q.Countable) (h : proof p <+: proof q) : p = q := by
  have hread := proof?_eq_some_iff.mpr ⟨hp, h⟩
  rw [proof?_proof hq] at hread
  exact (Option.some.inj hread).symm

theorem proof?_of_truncated (hp : p.Countable) (h : file <+: proof p) (hne : file ≠ proof p) :
    proof? file = none := by
  rw [Option.eq_none_iff_forall_ne_some]
  intro q hread
  obtain ⟨hq, hfront⟩ := proof?_eq_some_iff.mp hread
  -- what is read would be written in front of itself
  obtain rfl := eq_of_proof_prefix hq hp (hfront.trans h)
  exact hne (h.eq_of_length_le hfront.length_le)

end

/-! ## Misspelled files -/

/-- What stands in a file for a layer: every element and digest as the bytes in its place. -/
structure LayerSpelling where
  root : Bytes
  values : List Bytes
  decommitment : List Bytes

/-- What stands in a file for a proof. -/
structure Spelling where
  publicInputs : Bytes
  traceRoot : Bytes
  constraintRoot : Bytes
  traceOods : List Bytes
  constraintOods : List Bytes
  friLayers : List LayerSpelling
  lastLayer : List Bytes
  powNonce : UInt64
  traceRows : List (List Bytes)
  traceDecommitment : List Bytes
  constraintRows : List (List Bytes)
  constraintDecommitment : List Bytes

namespace LayerSpelling

def file (l : LayerSpelling) : Bytes :=
  bytes l.root ++ list id l.values ++ list bytes l.decommitment

def ofLayer (l : FriLayer) : LayerSpelling where
  root := l.root.bytes
  values := l.values.map Felt.toBytes
  decommitment := l.decommitment.map Digest.bytes

def digests (l : LayerSpelling) : List Bytes := l.root :: l.decommitment

end LayerSpelling

namespace Spelling

def file (s : Spelling) : Bytes :=
  bytes s.publicInputs ++ bytes s.traceRoot ++ bytes s.constraintRoot ++ list id s.traceOods ++
    list id s.constraintOods ++ list LayerSpelling.file s.friLayers ++ list id s.lastLayer ++
    word s.powNonce ++ list (list id) s.traceRows ++ list bytes s.traceDecommitment ++
    list (list id) s.constraintRows ++ list bytes s.constraintDecommitment

def ofProof (p : Proof) : Spelling where
  publicInputs := p.publicInputs
  traceRoot := p.traceRoot.bytes
  constraintRoot := p.constraintRoot.bytes
  traceOods := p.traceOods.map Felt.toBytes
  constraintOods := p.constraintOods.map Felt.toBytes
  friLayers := p.friLayers.map LayerSpelling.ofLayer
  lastLayer := p.lastLayer.map Felt.toBytes
  powNonce := p.powNonce
  traceRows := p.traceRows.map fun row => row.map Felt.toBytes
  traceDecommitment := p.traceDecommitment.map Digest.bytes
  constraintRows := p.constraintRows.map fun row => row.map Felt.toBytes
  constraintDecommitment := p.constraintDecommitment.map Digest.bytes

/-- The bytes in the places of elements. -/
def elements (s : Spelling) : List Bytes :=
  s.traceOods ++ s.constraintOods ++ s.friLayers.flatMap (·.values) ++ s.lastLayer ++
    s.traceRows.flatten ++ s.constraintRows.flatten

/-- The bytes in the places of digests. -/
def digests (s : Spelling) : List Bytes :=
  s.traceRoot :: s.constraintRoot :: s.friLayers.flatMap LayerSpelling.digests ++
    s.traceDecommitment ++ s.constraintDecommitment

/-- Counts fit a word, and elements have their width. -/
structure Fits (s : Spelling) : Prop where
  publicInputs : s.publicInputs.length < 2 ^ 64
  traceOods : s.traceOods.length < 2 ^ 64
  constraintOods : s.constraintOods.length < 2 ^ 64
  friLayers : s.friLayers.length < 2 ^ 64
  layers : ∀ l ∈ s.friLayers, l.values.length < 2 ^ 64 ∧ l.decommitment.length < 2 ^ 64
  lastLayer : s.lastLayer.length < 2 ^ 64
  traceRows : s.traceRows.length < 2 ^ 64
  traceRowLengths : ∀ row ∈ s.traceRows, row.length < 2 ^ 64
  traceDecommitment : s.traceDecommitment.length < 2 ^ 64
  constraintRows : s.constraintRows.length < 2 ^ 64
  constraintRowLengths : ∀ row ∈ s.constraintRows, row.length < 2 ^ 64
  constraintDecommitment : s.constraintDecommitment.length < 2 ^ 64
  elements : ∀ e ∈ s.elements, e.length = 32
  digests : ∀ d ∈ s.digests, d.length < 2 ^ 64

end Spelling

theorem list_map {β : Type} (item : β → Bytes) (f : α → β) (as : List α) :
    list item (as.map f) = list (fun a => item (f a)) as := by
  rw [list, list, List.length_map, List.flatMap_map]

theorem LayerSpelling.file_ofLayer (l : FriLayer) : (LayerSpelling.ofLayer l).file = layer l := by
  simp only [LayerSpelling.file, LayerSpelling.ofLayer, list_map]
  rfl

/-- A proof is written as it is spelled. -/
theorem Spelling.file_ofProof (p : Proof) : (Spelling.ofProof p).file = proof p := by
  simp only [Spelling.file, Spelling.ofProof, list_map, LayerSpelling.file_ofLayer]
  rfl

/-! ### What a reader makes of them -/

theorem judges_digest {d : Bytes} (h : d.length < 2 ^ 64) :
    Judges readDigest (bytes d) (d.length = 32) := by
  refine .lift (takes_bytes h) ⟨?_, fun hlength => ⟨_, dif_pos hlength⟩⟩
  rintro ⟨digest, hdigest⟩
  rw [eq_of_ofBytes? hdigest, digest.length_bytes]

theorem judges_felt {e : Bytes} (h : e.length = 32) :
    Judges readFelt e (Bytes.toNat e < modulus) := by
  refine .lift (.take h) ?_
  simp only [toOption_eq_some_iff]
  exact Felt.exists_ofBytes_iff h

theorem judges_list {β : Type} {item : Reader α} {write : β → Bytes} {sound : β → Prop} {bs : List β}
    (hlength : bs.length < 2 ^ 64) (h : ∀ b ∈ bs, Judges item (write b) (sound b)) :
    Judges (readList item) (list write bs) (∀ b ∈ bs, sound b) := by
  refine .of_takes (takes_word (.ofNat bs.length)) ?_
  rw [UInt64.toNat_ofNat', Nat.mod_eq_of_lt hlength]
  exact .times h

theorem judges_digests {ds : List Bytes} (hlength : ds.length < 2 ^ 64)
    (h : ∀ d ∈ ds, d.length < 2 ^ 64) :
    Judges (readList readDigest) (list bytes ds) (∀ d ∈ ds, d.length = 32) :=
  judges_list hlength fun d hd => judges_digest (h d hd)

theorem judges_felts {es : List Bytes} (hlength : es.length < 2 ^ 64) (h : ∀ e ∈ es, e.length = 32) :
    Judges (readList readFelt) (list id es) (∀ e ∈ es, Bytes.toNat e < modulus) :=
  judges_list hlength fun e he => judges_felt (h e he)

theorem judges_rows {rows : List (List Bytes)} (hlength : rows.length < 2 ^ 64)
    (hrows : ∀ row ∈ rows, row.length < 2 ^ 64) (h : ∀ row ∈ rows, ∀ e ∈ row, e.length = 32) :
    Judges (readList (readList readFelt)) (list (list id) rows)
      (∀ row ∈ rows, ∀ e ∈ row, Bytes.toNat e < modulus) :=
  judges_list hlength fun row hrow => judges_felts (hrows row hrow) (h row hrow)

/-- The elements spell numbers below the modulus, and the digests are digests. -/
def LayerSpelling.Sound (l : LayerSpelling) : Prop :=
  (∀ e ∈ l.values, Bytes.toNat e < modulus) ∧ ∀ d ∈ l.digests, d.length = 32

theorem judges_layer {l : LayerSpelling} (hvalues : l.values.length < 2 ^ 64)
    (hdecommitment : l.decommitment.length < 2 ^ 64) (helements : ∀ e ∈ l.values, e.length = 32)
    (hdigests : ∀ d ∈ l.digests, d.length < 2 ^ 64) : Judges readLayer l.file l.Sound := by
  obtain ⟨hroot, hothers⟩ := List.forall_mem_cons.mp hdigests
  rw [LayerSpelling.file, List.append_assoc]
  refine .congr ((judges_digest hroot).bind fun _ => (judges_felts hvalues helements).bind fun _ =>
    (judges_digests hdecommitment hothers).map _) ?_
  rw [LayerSpelling.Sound, LayerSpelling.digests, List.forall_mem_cons]
  tauto

namespace Spelling

variable {s : Spelling}

def Sound (s : Spelling) : Prop :=
  (∀ e ∈ s.elements, Bytes.toNat e < modulus) ∧ ∀ d ∈ s.digests, d.length = 32

theorem forall_mem_elements_iff {P : Bytes → Prop} : (∀ e ∈ s.elements, P e) ↔
    (∀ e ∈ s.traceOods, P e) ∧ (∀ e ∈ s.constraintOods, P e) ∧
      (∀ l ∈ s.friLayers, ∀ e ∈ l.values, P e) ∧ (∀ e ∈ s.lastLayer, P e) ∧
      (∀ row ∈ s.traceRows, ∀ e ∈ row, P e) ∧ ∀ row ∈ s.constraintRows, ∀ e ∈ row, P e := by
  simp only [elements, List.forall_mem_append, List.forall_mem_flatMap, List.forall_mem_flatten,
    and_assoc]

theorem forall_mem_digests_iff {P : Bytes → Prop} : (∀ d ∈ s.digests, P d) ↔
    P s.traceRoot ∧ P s.constraintRoot ∧ (∀ l ∈ s.friLayers, ∀ d ∈ l.digests, P d) ∧
      (∀ d ∈ s.traceDecommitment, P d) ∧ ∀ d ∈ s.constraintDecommitment, P d := by
  simp only [digests, List.cons_append, List.forall_mem_cons, List.forall_mem_append,
    List.forall_mem_flatMap, and_assoc]

end Spelling

/-- A spelled file is taken whole or refused, according to its elements and digests. -/
theorem judges_proof {s : Spelling} (h : s.Fits) : Judges readProof s.file s.Sound := by
  obtain ⟨htraceOods, hconstraintOods, hvalues, hlast, htraceRows, hconstraintRows⟩ :=
    Spelling.forall_mem_elements_iff.mp h.elements
  obtain ⟨htraceRoot, hconstraintRoot, hlayers, htrace, hconstraint⟩ :=
    Spelling.forall_mem_digests_iff.mp h.digests
  have hlayer (l : LayerSpelling) (hl : l ∈ s.friLayers) : Judges readLayer l.file l.Sound :=
    judges_layer (h.layers l hl).1 (h.layers l hl).2 (hvalues l hl) (hlayers l hl)
  simp only [Spelling.file, List.append_assoc]
  refine .congr (.of_takes (takes_bytes h.publicInputs) <| (judges_digest htraceRoot).bind fun _ =>
    (judges_digest hconstraintRoot).bind fun _ => (judges_felts h.traceOods htraceOods).bind fun _ =>
    (judges_felts h.constraintOods hconstraintOods).bind fun _ =>
    (judges_list h.friLayers hlayer).bind fun _ => (judges_felts h.lastLayer hlast).bind fun _ =>
    .of_takes (takes_word s.powNonce) <|
    (judges_rows h.traceRows h.traceRowLengths htraceRows).bind fun _ =>
    (judges_digests h.traceDecommitment htrace).bind fun _ =>
    (judges_rows h.constraintRows h.constraintRowLengths hconstraintRows).bind fun _ =>
    (judges_digests h.constraintDecommitment hconstraint).map _) ?_
  rw [Spelling.Sound, Spelling.forall_mem_elements_iff, Spelling.forall_mem_digests_iff]
  simp only [LayerSpelling.Sound, forall_and]
  tauto

theorem proof?_file_eq_none_iff {s : Spelling} (h : s.Fits) (rest : Bytes) :
    proof? (s.file ++ rest) = none ↔ ¬s.Sound := by
  rcases judges_proof h rest with ⟨hsound, p, hread⟩ | ⟨hmisspelled, hread⟩
  · refine iff_of_false ?_ (not_not.mpr hsound)
    rw [proof?, hread]
    simp
  · refine iff_of_true ?_ hmisspelled
    rw [proof?, hread, Option.map_none]

theorem Spelling.not_sound_iff {s : Spelling} : ¬s.Sound ↔
    (∃ e ∈ s.elements, modulus ≤ Bytes.toNat e) ∨ ∃ d ∈ s.digests, d.length ≠ 32 := by
  simp only [Sound, not_and_or, not_forall, exists_prop, Nat.not_lt, ne_eq]

/-- A proof with an empty row and an empty layer. -/
def sparseProof : Proof where
  publicInputs := [7]
  traceRoot := .zero
  constraintRoot := .zero
  traceOods := [0, 1]
  constraintOods := []
  friLayers := [⟨.zero, [], []⟩]
  lastLayer := [1]
  powNonce := 0x0100
  traceRows := [[], [1]]
  traceDecommitment := [.zero]
  constraintRows := []
  constraintDecommitment := []

/-- Its spelling with the modulus in the last place of an element. -/
def overlongSpelling : Spelling :=
  { Spelling.ofProof sparseProof with traceRows := [[], [Bytes.ofNat 32 modulus]] }

end StarkVerifier.Packed
