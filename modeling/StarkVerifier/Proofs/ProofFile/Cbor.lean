import StarkVerifier.ProofFile.Cbor
import StarkVerifier.Proofs.Cbor.Head
import StarkVerifier.Proofs.ProofFile.Packed

/-!
# CBOR proofs read back

Each reader takes what the writer of its kind of value has written. A record is read field by field into a
draft; when every field of it takes its value, the whole map is taken. Main statement: `takes_proof`.
-/

namespace StarkVerifier.Cbor

open Reader (Takes)

variable {α σ : Type}

/-! ## Values -/

theorem takes_bytesBody {b : Bytes} {n : Nat} (h : b.length = n) :
    Takes (readBytesBody (some n)) b b := by
  have hbody : Takes (readBody bytesPart (some n)) b [b] := by
    intro rest
    have hsplit : Bytes.splitAt? n (b ++ rest) = some (b, rest) :=
      Bytes.splitAt?_eq_some_iff.mpr ⟨rfl, h⟩
    simp only [readBody, hsplit, Option.map_some]
  have hmap := hbody.map List.flatten
  rwa [List.flatten_singleton] at hmap

theorem takes_bytes {b : Bytes} (h : b.length < 2 ^ 64) : Takes readBytes (bytes b) b :=
  (takes_untagged .bytes h).bind (takes_bytesBody rfl)

theorem takes_digest (d : Digest) : Takes readDigest (digest d) d := by
  have hbody : Takes (readBytesBody (some d.bytes.length)) d.bytes d.bytes := takes_bytesBody rfl
  exact (takes_untagged .bytes d.length_bytes_lt).bind (hbody.lift d.ofBytes?_bytes)

theorem takes_readByte (b : UInt8) : Takes readByte (natural b.toNat) b := by
  have hlt : b.toNat < 2 ^ 8 := b.toNat_lt
  refine (takes_unsigned (by omega)).bind_nil ?_
  rw [if_pos hlt, UInt8.ofNat_toNat]
  exact .pure b

theorem takes_nonce (w : UInt64) : Takes readNonce (natural w.toNat) w := by
  refine (takes_unsigned w.toNat_lt).bind_nil ?_
  rw [if_pos w.toNat_lt, UInt64.ofNat_toNat]
  exact .pure w

/-- An element is an array of exactly its bytes. -/
theorem takes_felt (a : Felt) : Takes readFelt (felt a) a := by
  have hbytes : Takes (readFirstBytes 32 (some a.toBytes.length))
      (a.toBytes.flatMap fun b => natural b.toNat) a.toBytes := by
    rw [readFirstBytes, if_pos (by rw [a.length_toBytes]; rfl), ← a.length_toBytes]
    exact .times fun b _ => takes_readByte b
  have hlength : a.toBytes.length < 2 ^ 64 := by
    rw [a.length_toBytes]
    decide
  exact (takes_untagged .array hlength).bind
    (hbytes.lift (f := fun bytes => (Felt.ofBytes bytes).toOption) a.toOption_ofBytes)

theorem takes_list {item : Reader α} {write : α → Bytes} {as : List α} (hlength : as.length < 2 ^ 64)
    (h : ∀ a ∈ as, Takes item (write a) a) : Takes (readList item) (list write as) as := by
  have hitems : Takes (readItems item (some as.length)) (as.flatMap write) as := .times h
  exact (takes_untagged .array hlength).bind hitems

theorem takes_felts {as : List Felt} (h : as.length < 2 ^ 64) :
    Takes (readList readFelt) (list felt as) as :=
  takes_list h fun a _ => takes_felt a

theorem takes_digests {ds : List Digest} (h : ds.length < 2 ^ 64) :
    Takes (readList readDigest) (list digest ds) ds :=
  takes_list h fun d _ => takes_digest d

theorem takes_rows {rows : List (List Felt)} (h : rows.length < 2 ^ 64)
    (hrows : ∀ row ∈ rows, row.length < 2 ^ 64) :
    Takes (readList (readList readFelt)) (list (list felt) rows) rows :=
  takes_list h fun row hrow => takes_felts (hrows row hrow)

/-! ## Records -/

/-- A name that is short enough, is text and is found among the names of a record. -/
def IsName (names : List String) (name : String) : Prop :=
  (Utf8.encode name.toList).length ≤ maxNameLength ∧
    (Utf8.decode? (Utf8.encode name.toList)).isSome = true ∧
    (names.find? fun n => Utf8.encode n.toList = Utf8.encode name.toList) = some name

instance (names : List String) (name : String) : Decidable (IsName names name) :=
  inferInstanceAs (Decidable (_ ∧ _ ∧ _))

theorem takes_name {names : List String} {name : String} (h : IsName names name) :
    Takes readName (text name) (Utf8.encode name.toList) := by
  obtain ⟨hlength, htext, -⟩ := h
  have hcount : (Utf8.encode name.toList).length < 2 ^ 64 := Nat.lt_of_le_of_lt hlength (by decide)
  have htake : Takes (Reader.take (Utf8.encode name.toList).length) (Utf8.encode name.toList)
      (Utf8.encode name.toList) := .take rfl
  refine (takes_untagged .text hcount).bind (htake.bind_nil ?_)
  rw [if_pos ⟨hlength, htext⟩]
  exact .pure _

/-- The values of the fields, taken one after the other, turn the first draft into the second. -/
inductive Fills (field : String → σ → Reader σ) : σ → List (String × Bytes) → σ → Prop
  | nil (d : σ) : Fills field d [] d
  | cons {name : String} {value : Bytes} {fields : List (String × Bytes)} {d d' d'' : σ}
      (hvalue : Takes (field name d) value d') (hfields : Fills field d' fields d'') :
      Fills field d ((name, value) :: fields) d''

theorem takes_fieldsWithin {level fuel : Nat} {field : String → σ → Reader σ} {names : List String}
    {fields : List (String × Bytes)} {d d' : σ} (h : Fills field d fields d')
    (hnames : ∀ f ∈ fields, IsName names f.1) (hfuel : fields.length ≤ fuel) :
    Takes (readFieldsWithin level field names fuel (some fields.length) d)
      (fields.flatMap fun f => text f.1 ++ f.2) d' := by
  induction h generalizing fuel with
  | nil d =>
      intro rest
      rw [List.length_nil, readFieldsWithin]
      rfl
  | @cons name value fields d d' d'' hvalue hfields ih =>
      rw [List.forall_mem_cons] at hnames
      obtain ⟨hname, hnames⟩ := hnames
      rw [List.length_cons] at hfuel
      obtain ⟨fuel, rfl⟩ := Nat.exists_eq_add_of_lt hfuel
      intro rest
      -- the head of the name is looked at for a break, then the name is read
      have hhead := (takes_head .text (Nat.lt_of_le_of_lt hname.1 (by decide)))
        (Utf8.encode name.toList ++ (value ++ ((fields.flatMap fun f => text f.1 ++ f.2) ++ rest)))
      have hread := takes_name hname (value ++ ((fields.flatMap fun f => text f.1 ++ f.2) ++ rest))
      have hvalue := hvalue ((fields.flatMap fun f => text f.1 ++ f.2) ++ rest)
      have hrest := ih hnames (Nat.le_add_right _ fuel) rest
      have hbytes : (((name, value) :: fields).flatMap fun f => text f.1 ++ f.2) ++ rest =
          text name ++ (value ++ ((fields.flatMap fun f => text f.1 ++ f.2) ++ rest)) := by
        simp only [List.flatMap_cons, List.append_assoc]
      rw [text, List.append_assoc] at hread hbytes
      rw [hbytes, List.length_cons, readFieldsWithin]
      · simp only [hhead, hread, hname.2.2, hvalue, bind, Option.bind_some, reduceCtorEq, false_and,
          if_false, Option.map_some, Nat.add_sub_cancel]
        exact hrest
      · exact nofun

/-- A map of all the fields of a record, in order. -/
theorem takes_fields {level : Nat} {field : String → σ → Reader σ} {names : List String}
    {fields : List (String × Bytes)} {d d' : σ} (hfields : fields.map Prod.fst = names)
    (hnames : ∀ name ∈ names, IsName names name) (hcount : names.length < 2 ^ 64)
    (h : Fills field d fields d') : Takes (readFields level field names d) (map fields) d' := by
  have hfuel : fields.length ≤ (fields.flatMap fun f => text f.1 ++ f.2).length := by
    clear h hfields
    induction fields with
    | nil => exact Nat.le_refl _
    | cons f fields ih =>
        have hhead := List.length_pos_iff.mpr (head_ne_nil .text (Utf8.encode f.1.toList).length)
        rw [List.flatMap_cons, List.length_append, List.length_cons, text, List.length_append,
          List.length_append]
        omega
  have hall : ∀ f ∈ fields, IsName names f.1 := by
    intro f hf
    apply hnames
    rw [← hfields]
    exact List.mem_map_of_mem hf
  rw [← hfields, List.length_map] at hcount
  refine (takes_untagged .map hcount).bind ?_
  intro rest
  exact takes_fieldsWithin h hall (by rw [List.length_append]; omega) rest

theorem takes_fresh {value : Reader α} {bytes : Bytes} {a : α} (h : Takes value bytes a) :
    Takes (fresh none value) bytes (some a) :=
  h.map some

theorem layer_names : ∀ name ∈ FriLayer.fieldNames, IsName FriLayer.fieldNames name := by
  decide +kernel

theorem takes_layer {l : FriLayer} (h : l.Countable) : Takes readLayer (layer l) l := by
  have hfills : Fills LayerDraft.field {} [
      ("root", digest l.root),
      ("values", list felt l.values),
      ("decommitment", list digest l.decommitment)]
      ⟨some l.root, some l.values, some l.decommitment⟩ := by
    refine .cons ((takes_fresh (takes_digest l.root)).map _) ?_
    refine .cons ((takes_fresh (takes_felts h.values)).map _) ?_
    refine .cons ((takes_fresh (takes_digests h.decommitment)).map _) ?_
    exact .nil _
  have hmap : Takes (readFields 3 LayerDraft.field FriLayer.fieldNames {}) (layer l)
      ⟨some l.root, some l.values, some l.decommitment⟩ :=
    takes_fields rfl layer_names (by simp [FriLayer.fieldNames]) hfills
  exact hmap.lift rfl

theorem proof_names : ∀ name ∈ Proof.fieldNames, IsName Proof.fieldNames name := by
  decide +kernel

/-- What is written for a proof is read back, whatever follows it. -/
theorem takes_proof {p : Proof} (h : p.Countable) : Takes readProof (proof p) p := by
  have hlayers : Takes (readList readLayer) (list layer p.friLayers) p.friLayers :=
    takes_list h.friLayers fun l hl => takes_layer (h.layers l hl)
  have hfills : Fills ProofDraft.field {} [
      ("public_inputs", bytes p.publicInputs),
      ("trace_root", digest p.traceRoot),
      ("constraint_root", digest p.constraintRoot),
      ("trace_oods_values", list felt p.traceOods),
      ("constraint_oods_values", list felt p.constraintOods),
      ("fri_layers", list layer p.friLayers),
      ("last_layer_coefficients", list felt p.lastLayer),
      ("pow_nonce", natural p.powNonce.toNat),
      ("trace_values", list (list felt) p.traceRows),
      ("trace_decommitment", list digest p.traceDecommitment),
      ("constraint_values", list (list felt) p.constraintRows),
      ("constraint_decommitment", list digest p.constraintDecommitment)]
      ⟨some p.publicInputs, some p.traceRoot, some p.constraintRoot, some p.traceOods,
        some p.constraintOods, some p.friLayers, some p.lastLayer, some p.powNonce, some p.traceRows,
        some p.traceDecommitment, some p.constraintRows, some p.constraintDecommitment⟩ := by
    refine .cons ((takes_fresh (takes_bytes h.publicInputs)).map _) ?_
    refine .cons ((takes_fresh (takes_digest p.traceRoot)).map _) ?_
    refine .cons ((takes_fresh (takes_digest p.constraintRoot)).map _) ?_
    refine .cons ((takes_fresh (takes_felts h.traceOods)).map _) ?_
    refine .cons ((takes_fresh (takes_felts h.constraintOods)).map _) ?_
    refine .cons ((takes_fresh hlayers).map _) ?_
    refine .cons ((takes_fresh (takes_felts h.lastLayer)).map _) ?_
    refine .cons ((takes_fresh (takes_nonce p.powNonce)).map _) ?_
    refine .cons ((takes_fresh (takes_rows h.traceRows h.traceRowLengths)).map _) ?_
    refine .cons ((takes_fresh (takes_digests h.traceDecommitment)).map _) ?_
    refine .cons ((takes_fresh (takes_rows h.constraintRows h.constraintRowLengths)).map _) ?_
    refine .cons ((takes_fresh (takes_digests h.constraintDecommitment)).map _) ?_
    exact .nil _
  have hmap : Takes (readFields 1 ProofDraft.field Proof.fieldNames {}) (proof p) _ :=
    takes_fields rfl proof_names (by simp [Proof.fieldNames]) hfills
  exact hmap.lift rfl

theorem proof?_proof {p : Proof} (h : p.Countable) : proof? (proof p) = some p := by
  have hread := takes_proof h []
  rw [List.append_nil] at hread
  rw [proof?, hread, Option.map_some]

end StarkVerifier.Cbor
