import StarkVerifier.ProofFile.Packed
import StarkVerifier.Proofs.Field.Encoding
import StarkVerifier.Proofs.Reader

/-!
# The packed form read back

Each reader takes what the writer of its kind of value has written. Main statement: `takes_proof`.
-/

namespace StarkVerifier

/-! ## Lists that a word counts -/

structure FriLayer.Countable (l : FriLayer) : Prop where
  values : l.values.length < 2 ^ 64
  decommitment : l.decommitment.length < 2 ^ 64

/-- No list in the proof is longer than a word of 64 bits can say, as no list in memory is. -/
structure Proof.Countable (p : Proof) : Prop where
  publicInputs : p.publicInputs.length < 2 ^ 64
  traceOods : p.traceOods.length < 2 ^ 64
  constraintOods : p.constraintOods.length < 2 ^ 64
  friLayers : p.friLayers.length < 2 ^ 64
  layers : ∀ l ∈ p.friLayers, l.Countable
  lastLayer : p.lastLayer.length < 2 ^ 64
  traceRows : p.traceRows.length < 2 ^ 64
  traceRowLengths : ∀ row ∈ p.traceRows, row.length < 2 ^ 64
  traceDecommitment : p.traceDecommitment.length < 2 ^ 64
  constraintRows : p.constraintRows.length < 2 ^ 64
  constraintRowLengths : ∀ row ∈ p.constraintRows, row.length < 2 ^ 64
  constraintDecommitment : p.constraintDecommitment.length < 2 ^ 64

/-! ## Values of a known length -/

theorem Digest.ofBytes?_bytes (d : Digest) : Digest.ofBytes? d.bytes = some d :=
  dif_pos d.length_bytes

theorem Digest.length_bytes_lt (d : Digest) : d.bytes.length < 2 ^ 64 := by
  rw [d.length_bytes]
  decide

theorem Felt.toOption_ofBytes (a : Felt) : (Felt.ofBytes a.toBytes).toOption = some a := by
  rw [Felt.ofBytes_toBytes]
  rfl

namespace Packed

/-! ## Values -/

open Reader (Takes)

variable {α : Type}

theorem takes_word (w : UInt64) : Takes readWord (word w) w := by
  have h : Takes (Reader.take 8) (word w) (word w) := .take (by simp [word, Bytes.length_ofWord])
  have hmap := h.map fun bytes => Bytes.toWord bytes.reverse
  rwa [word, List.reverse_reverse, Bytes.toWord_ofWord] at hmap

theorem takes_bytes {b : Bytes} (h : b.length < 2 ^ 64) : Takes readBytes (bytes b) b :=
  (takes_word (.ofNat b.length)).bind (.take (by rw [UInt64.toNat_ofNat', Nat.mod_eq_of_lt h]))

theorem takes_digest (d : Digest) : Takes readDigest (digest d) d :=
  (takes_bytes d.length_bytes_lt).lift d.ofBytes?_bytes

theorem takes_felt (a : Felt) : Takes readFelt a.toBytes a :=
  (Takes.take a.length_toBytes).lift a.toOption_ofBytes

theorem takes_list {item : Reader α} {write : α → Bytes} {as : List α} (hlength : as.length < 2 ^ 64)
    (h : ∀ a ∈ as, Takes item (write a) a) : Takes (readList item) (list write as) as := by
  refine (takes_word (.ofNat as.length)).bind ?_
  rw [UInt64.toNat_ofNat', Nat.mod_eq_of_lt hlength]
  exact .times h

theorem takes_felts {as : List Felt} (h : as.length < 2 ^ 64) :
    Takes (readList readFelt) (list Felt.toBytes as) as :=
  takes_list h fun a _ => takes_felt a

theorem takes_digests {ds : List Digest} (h : ds.length < 2 ^ 64) :
    Takes (readList readDigest) (list digest ds) ds :=
  takes_list h fun d _ => takes_digest d

theorem takes_rows {rows : List (List Felt)} (h : rows.length < 2 ^ 64)
    (hrows : ∀ row ∈ rows, row.length < 2 ^ 64) :
    Takes (readList (readList readFelt)) (list (list Felt.toBytes) rows) rows :=
  takes_list h fun row hrow => takes_felts (hrows row hrow)

theorem takes_layer {l : FriLayer} (h : l.Countable) : Takes readLayer (layer l) l := by
  rw [layer, List.append_assoc]
  exact (takes_digest l.root).bind ((takes_felts h.values).bind ((takes_digests h.decommitment).map _))

/-- What is written for a proof is read back, whatever follows it. -/
theorem takes_proof {p : Proof} (h : p.Countable) : Takes readProof (proof p) p := by
  simp only [proof, List.append_assoc]
  exact (takes_bytes h.publicInputs).bind <| (takes_digest p.traceRoot).bind <|
    (takes_digest p.constraintRoot).bind <| (takes_felts h.traceOods).bind <|
    (takes_felts h.constraintOods).bind <|
    (takes_list h.friLayers fun l hl => takes_layer (h.layers l hl)).bind <|
    (takes_felts h.lastLayer).bind <| (takes_word p.powNonce).bind <|
    (takes_rows h.traceRows h.traceRowLengths).bind <|
    (takes_digests h.traceDecommitment).bind <|
    (takes_rows h.constraintRows h.constraintRowLengths).bind <|
    (takes_digests h.constraintDecommitment).map _

theorem proof?_proof {p : Proof} (h : p.Countable) : proof? (proof p) = some p := by
  have hread := takes_proof h []
  rw [List.append_nil] at hread
  rw [proof?, hread, Option.map_some]

end Packed
end StarkVerifier
