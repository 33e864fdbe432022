import StarkVerifier.ProofFile.Json
import StarkVerifier.Proofs.Json.Parser

/-!
# Records read back from their values

Each kind of value is read back from what stands for it, and a record from the object of its fields.
Nothing is lost on the way through text, since all of it is known to the reader. Main statement:
`Proof.ofJson?_toJson`.
-/

namespace StarkVerifier

namespace Json

variable {α β γ : Type}

theorem bind_eq_some {x : Option α} {f : α → Option β} {a : α} {b : β} (hx : x = some a)
    (hf : f a = some b) : (x >>= f) = some b :=
  Option.bind_eq_some_iff.mpr ⟨a, hx, hf⟩

theorem mapM_map {write : α → β} {read : β → Option γ} {value : α → γ} {as : List α}
    (h : ∀ a ∈ as, read (write a) = some (value a)) :
    (as.map write).mapM read = some (as.map value) := by
  induction as with
  | nil => rfl
  | cons a as ih =>
      rw [List.forall_mem_cons] at h
      rw [List.map_cons, List.mapM_cons, h.1, ih h.2]
      rfl

theorem list?_ofList {write : α → Json} {read : Json → Option α} {as : List α}
    (h : ∀ a ∈ as, read (write a) = some a) : (ofList write as).list? read = some as := by
  have hmap : (as.map write).mapM read = some (as.map id) := mapM_map h
  rwa [List.map_id] at hmap

theorem natural?_natural {bound n : Nat} (h : n < bound) : (natural n).natural? bound = some n :=
  if_pos h

/-- A name that no other field bears leads to its field. -/
theorem field?_of_mem {fields : List (String × Json)} (hnames : (fields.map Prod.fst).Nodup)
    {f : String × Json} (hf : f ∈ fields) :
    field? (fields.map fun f => (some f.1, f.2)) f.1 = some (some f.2) := by
  have hfilter : (fields.map fun f => (some f.1, f.2)).filter (·.1 = some f.1) = [(some f.1, f.2)] := by
    induction fields with
    | nil => nomatch hf
    | cons g fields ih =>
        rw [List.map_cons, List.nodup_cons] at hnames
        obtain ⟨hg, hnames⟩ := hnames
        rw [List.map_cons, List.filter_cons]
        rcases List.mem_cons.mp hf with rfl | hf
        · have hnone : (fields.map fun g => (some g.1, g.2)).filter (·.1 = some f.1) = [] := by
            rw [List.filter_eq_nil_iff]
            intro g' hg' heq
            obtain ⟨other, hother, rfl⟩ := List.mem_map.mp hg'
            have hname : other.1 = f.1 := Option.some.inj (of_decide_eq_true heq)
            exact hg (hname ▸ List.mem_map_of_mem hother)
          rw [if_pos (decide_eq_true rfl), hnone]
        · have hne : g.1 ≠ f.1 := by
            intro hname
            exact hg (hname ▸ List.mem_map_of_mem hf)
          rw [if_neg (by simpa using hne), ih hnames hf]
  rw [field?, hfilter]

theorem record?_ofFields {names : List String} (hnames : names.Nodup)
    {fields : List (String × Json)} (hfields : fields.map Prod.fst = names) :
    (ofFields fields).record? names = some (fields.map Prod.snd) := by
  subst hfields
  have hall : (fields.map fun f => (some f.1, f.2)).all (·.1.isSome) = true := by
    rw [List.all_map, List.all_eq_true]
    exact fun _ _ => rfl
  have hfound : (fields.map Prod.fst).mapM (field? (fields.map fun f => (some f.1, f.2))) =
      some (fields.map fun f => some f.2) :=
    mapM_map fun f hf => field?_of_mem hnames hf
  have hvalues : (fields.map fun f => some f.2).mapM id = some (fields.map Prod.snd) :=
    mapM_map fun _ _ => rfl
  rw [ofFields, record?, if_pos hall, hfound]
  exact hvalues

theorem isKnown_ofFields {fields : List (String × Json)} (h : ∀ f ∈ fields, f.2.IsKnown) :
    (ofFields fields).IsKnown := by
  refine .object ?_ ?_
  · intro f hf
    obtain ⟨g, -, rfl⟩ := List.mem_map.mp hf
    rfl
  · intro f hf
    obtain ⟨g, hg, rfl⟩ := List.mem_map.mp hf
    exact h g hg

theorem isKnown_ofList {write : α → Json} (h : ∀ a, (write a).IsKnown) (as : List α) :
    (ofList write as).IsKnown := by
  refine .array ?_
  intro item hitem
  obtain ⟨a, -, rfl⟩ := List.mem_map.mp hitem
  exact h a

end Json

open Json (bind_eq_some list?_ofList isKnown_ofList)

/-! ## Values -/

theorem Felt.ofJson?_ofString (text : String) : ofJson? (.ofString text) = (ofHex text).toOption := rfl

theorem Felt.ofJson?_toJson (a : Felt) : Felt.ofJson? a.toJson = some a := by
  rw [toJson, ofJson?_ofString, ofHex_toHex, Except.toOption]

theorem Digest.ofJson?_ofString (text : String) : ofJson? (.ofString text) = ofHex? text := rfl

theorem Digest.ofJson?_toJson (d : Digest) : Digest.ofJson? d.toJson = some d := by
  rw [toJson, ofJson?_ofString, ofHex?_toHex]

theorem Bytes.ofJson?_ofString (text : String) : ofJson? (.ofString text) = Hex.decode? text.toList :=
  rfl

theorem Bytes.ofJson?_toJson (b : Bytes) : Bytes.ofJson? b.toJson = some b := by
  rw [toJson, ofJson?_ofString, String.toList_ofList, Hex.decode?_encode]

theorem Felt.isKnown_toJson (a : Felt) : a.toJson.IsKnown := .text _

theorem Digest.isKnown_toJson (d : Digest) : d.toJson.IsKnown := .text _

/-! ## Records -/

theorem FriLayer.ofJson?_toJson (l : FriLayer) : FriLayer.ofJson? l.toJson = some l := by
  have hvalues : (Json.ofList Felt.toJson l.values).list? Felt.ofJson? = some l.values :=
    list?_ofList fun a _ => a.ofJson?_toJson
  have hdecommitment : (Json.ofList Digest.toJson l.decommitment).list? Digest.ofJson? =
      some l.decommitment :=
    list?_ofList fun d _ => d.ofJson?_toJson
  have hrecord : l.toJson.record? fieldNames = some [l.root.toJson, .ofList Felt.toJson l.values,
      .ofList Digest.toJson l.decommitment] := by
    have hnames : fieldNames.Nodup := by decide +kernel
    rw [toJson, Json.record?_ofFields hnames rfl]
    rfl
  refine bind_eq_some hrecord ?_
  exact bind_eq_some l.root.ofJson?_toJson <| bind_eq_some hvalues <| bind_eq_some hdecommitment rfl

theorem FriLayer.isKnown_toJson (l : FriLayer) : l.toJson.IsKnown := by
  unfold toJson
  apply Json.isKnown_ofFields
  simp only [List.forall_mem_cons]
  refine ⟨l.root.isKnown_toJson, isKnown_ofList Felt.isKnown_toJson _,
    isKnown_ofList Digest.isKnown_toJson _, ?_⟩
  exact List.forall_mem_nil _

namespace Proof

/-- A proof is read back from the value that stands for it, lists of any length included. -/
theorem ofJson?_toJson (p : Proof) : Proof.ofJson? p.toJson = some p := by
  have hfelts (as : List Felt) : (Json.ofList Felt.toJson as).list? Felt.ofJson? = some as :=
    list?_ofList fun a _ => a.ofJson?_toJson
  have hdigests (ds : List Digest) : (Json.ofList Digest.toJson ds).list? Digest.ofJson? = some ds :=
    list?_ofList fun d _ => d.ofJson?_toJson
  have hrows (rows : List (List Felt)) :
      (Json.ofList (Json.ofList Felt.toJson) rows).list? (Json.list? Felt.ofJson?) = some rows :=
    list?_ofList fun row _ => hfelts row
  have hlayers : (Json.ofList FriLayer.toJson p.friLayers).list? FriLayer.ofJson? =
      some p.friLayers :=
    list?_ofList fun l _ => l.ofJson?_toJson
  have hnonce : (Json.natural p.powNonce.toNat).word? = some p.powNonce.toNat :=
    Json.natural?_natural p.powNonce.toNat_lt
  have hrecord : p.toJson.record? fieldNames = some [p.publicInputs.toJson, p.traceRoot.toJson,
      p.constraintRoot.toJson, .ofList Felt.toJson p.traceOods, .ofList Felt.toJson p.constraintOods,
      .ofList FriLayer.toJson p.friLayers, .ofList Felt.toJson p.lastLayer,
      .natural p.powNonce.toNat, .ofList (.ofList Felt.toJson) p.traceRows,
      .ofList Digest.toJson p.traceDecommitment, .ofList (.ofList Felt.toJson) p.constraintRows,
      .ofList Digest.toJson p.constraintDecommitment] := by
    have hnames : fieldNames.Nodup := by decide +kernel
    rw [toJson, Json.record?_ofFields hnames rfl]
    rfl
  refine bind_eq_some hrecord ?_
  refine bind_eq_some p.publicInputs.ofJson?_toJson <| bind_eq_some p.traceRoot.ofJson?_toJson <|
    bind_eq_some p.constraintRoot.ofJson?_toJson <| bind_eq_some (hfelts _) <|
    bind_eq_some (hfelts _) <| bind_eq_some hlayers <| bind_eq_some (hfelts _) <|
    bind_eq_some hnonce <| bind_eq_some (hrows _) <| bind_eq_some (hdigests _) <|
    bind_eq_some (hrows _) <| bind_eq_some (hdigests _) ?_
  rw [UInt64.ofNat_toNat]
  rfl

theorem isKnown_toJson (p : Proof) : p.toJson.IsKnown := by
  have hfelts (as : List Felt) : (Json.ofList Felt.toJson as).IsKnown :=
    isKnown_ofList Felt.isKnown_toJson as
  have hdigests (ds : List Digest) : (Json.ofList Digest.toJson ds).IsKnown :=
    isKnown_ofList Digest.isKnown_toJson ds
  unfold toJson
  apply Json.isKnown_ofFields
  simp only [List.forall_mem_cons]
  refine ⟨.text _, p.traceRoot.isKnown_toJson, p.constraintRoot.isKnown_toJson, hfelts _, hfelts _,
    isKnown_ofList FriLayer.isKnown_toJson _, hfelts _, .natural _, isKnown_ofList hfelts _, hdigests _,
    isKnown_ofList hfelts _, hdigests _, ?_⟩
  exact List.forall_mem_nil _

/-- A proof is read back from its text. -/
theorem ofJson?_print (p : Proof) :
    (Json.parse? (Utf8.encode (Json.print 0 p.toJson)) >>= Proof.ofJson?) = some p :=
  bind_eq_some (Json.parse?_print p.isKnown_toJson 0) p.ofJson?_toJson

end Proof
end StarkVerifier
