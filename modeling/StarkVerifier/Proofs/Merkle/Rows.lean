import StarkVerifier.Proofs.Field.Encoding
import StarkVerifier.Proofs.Merkle.Binding
import StarkVerifier.Proofs.TwoPower

/-!
# Openings of rows

The leaves are rows of field elements. A row of one element is its own digest, a longer one is hashed,
so an opening hashes the rows as well as the nodes above them.
-/

namespace StarkVerifier

open MerkleLeaf

namespace Merkle

/-- What is hashed for a row. -/
def rowMessages : List Felt → List Bytes
  | [_] => []
  | row => [row.flatMap Felt.toBytes]

theorem digest_singleton (a : Felt) : (digest [a]).bytes = a.toBytes := rfl

theorem rowMessages_eq {row : List Felt} (h : row.length ≠ 1) :
    rowMessages row = [row.flatMap Felt.toBytes] := by
  rcases row with _ | ⟨a, _ | ⟨b, row⟩⟩
  · rfl
  · exact absurd rfl h
  · rfl

theorem digest_eq {row : List Felt} (h : row.length ≠ 1) :
    digest row = maskedKeccak (row.flatMap Felt.toBytes) := by
  rcases row with _ | ⟨a, _ | ⟨b, row⟩⟩
  · rfl
  · exact absurd rfl h
  · rfl

/-- Rows of one length are told apart by their digests. -/
theorem row_eq_of_digest_eq {row row' : List Felt} (hlength : row.length = row'.length)
    (h : digest row = digest row') :
    Collides maskedKeccak (rowMessages row) (rowMessages row') ∨ row = row' := by
  by_cases hone : row.length = 1
  · obtain ⟨a, rfl⟩ := List.length_eq_one_iff.mp hone
    obtain ⟨a', rfl⟩ := List.length_eq_one_iff.mp (hlength.symm.trans hone)
    have hbytes := congrArg Digest.bytes h
    rw [digest_singleton, digest_singleton] at hbytes
    exact Or.inr (by rw [Felt.toBytes_injective hbytes])
  · have hone' : row'.length ≠ 1 := hlength ▸ hone
    rw [digest_eq hone, digest_eq hone'] at h
    rw [rowMessages_eq hone, rowMessages_eq hone']
    exact (Collides.or_eq List.mem_cons_self List.mem_cons_self h).imp_right
      fun hbytes => Felt.flatMap_toBytes_injective hbytes

/-- Lists of rows of one width are told apart by the digests of their rows. -/
theorem rows_eq_of_digests_eq {width : Nat} {rows rows' : List (List Felt)}
    (hwidth : ∀ row ∈ rows, row.length = width) (hwidth' : ∀ row ∈ rows', row.length = width)
    (h : rows.map digest = rows'.map digest) :
    Collides maskedKeccak (rows.flatMap rowMessages) (rows'.flatMap rowMessages) ∨ rows = rows' := by
  induction rows generalizing rows' with
  | nil => exact Or.inr (by simpa using h.symm)
  | cons row rows ih =>
      cases rows' with
      | nil => simp at h
      | cons row' rows' =>
          simp only [List.map_cons, List.cons.injEq] at h
          rw [List.forall_mem_cons] at hwidth hwidth'
          rcases row_eq_of_digest_eq (hwidth.1.trans hwidth'.1.symm) h.1 with hcollides | rfl
          · exact Or.inl (hcollides.append_left _ _)
          rcases ih hwidth.2 hwidth'.2 h.2 with hcollides | rfl
          · exact Or.inl (hcollides.append_right _ _)
          · exact Or.inr rfl

/-- What an opening hashes: the rows, then the nodes on the way to the top. -/
def openingMessages (depth : Nat) (indices : List Nat) (rows : List (List Felt))
    (decommitment : List Digest) : List Bytes :=
  rows.flatMap rowMessages ++ foldMessages depth (indices.zip (rows.map digest)) decommitment

/-- Two openings of one root at the same places open the same rows with the same digests. -/
theorem verify_inj {root : Digest} {depth width : Nat} {indices : List Nat}
    {rows rows' : List (List Felt)} {decommitment decommitment' : List Digest}
    (hwidth : ∀ row ∈ rows, row.length = width) (hwidth' : ∀ row ∈ rows', row.length = width)
    (h : verify root depth indices rows decommitment = .ok true)
    (h' : verify root depth indices rows' decommitment' = .ok true) :
    Collides maskedKeccak (openingMessages depth indices rows decommitment)
        (openingMessages depth indices rows' decommitment') ∨
      rows = rows' ∧ decommitment = decommitment' := by
  obtain ⟨-, hlength, -, -, -, htop⟩ := verify_eq_true_iff.mp h
  obtain ⟨-, hlength', -, -, -, htop'⟩ := verify_eq_true_iff.mp h'
  have hle : indices.length ≤ (rows.map digest).length := by rw [List.length_map, hlength]
  have hle' : indices.length ≤ (rows'.map digest).length := by rw [List.length_map, hlength']
  have hplaces : (indices.zip (rows.map digest)).map (·.1) =
      (indices.zip (rows'.map digest)).map (·.1) := by
    rw [List.map_fst_zip hle, List.map_fst_zip hle']
  -- from the root down to the digests of the rows, then to the rows
  rcases foldLevels_inj htop htop' hplaces with hcollides | ⟨hnodes, rfl⟩
  · exact Or.inl (hcollides.append_right _ _)
  have hdigests : rows.map digest = rows'.map digest := by
    have hge : (rows.map digest).length ≤ indices.length := by rw [List.length_map, hlength]
    have hge' : (rows'.map digest).length ≤ indices.length := by rw [List.length_map, hlength']
    rw [← List.map_snd_zip hge, hnodes, List.map_snd_zip hge']
  rcases rows_eq_of_digests_eq hwidth hwidth' hdigests with hcollides | rfl
  · exact Or.inl (hcollides.append_left _ _)
  · exact Or.inr ⟨rfl, rfl⟩

end Merkle

namespace MerkleTree

/-- What is hashed when the tree of a table is built. -/
def messages (rows : List (List Felt)) : List Bytes :=
  rows.flatMap Merkle.rowMessages ++ nodeMessages rows.length.log2 (rows.map digest)

/-- An opening of the root of a table's tree opens rows of the table. -/
theorem rows_of_verify {width depth : Nat} {table rows : List (List Felt)} {t : MerkleTree}
    {indices : List Nat} {decommitment : List Digest} (ht : ofLeaves table = .ok t)
    (hlength : table.length = 2 ^ depth) (htable : ∀ row ∈ table, row.length = width)
    (hrows : ∀ row ∈ rows, row.length = width)
    (h : Merkle.verify t.root depth indices rows decommitment = .ok true) :
    Collides maskedKeccak (messages table)
        (Merkle.openingMessages depth indices rows decommitment) ∨
      ∀ r ∈ indices.zip rows, table[r.1]? = some r.2 := by
  obtain ⟨-, -, -, -, -, htop⟩ := Merkle.verify_eq_true_iff.mp h
  have hroot : (parents^[depth] (table.map digest))[0]? = some t.root := by
    rw [← depth_of_ofLeaves ht hlength, root_of_ofLeaves ht, List.getElem?_cons_zero]
  have hnodes := nodes_of_foldLevels hroot htop
  rw [messages, hlength, Nat.log2_two_pow]
  rcases hnodes with hcollides | hnodes
  · exact Or.inl (hcollides.append_right _ _)
  apply or_iff_not_imp_left.mpr
  intro hfree r hr
  have hdigest : (table.map digest)[r.1]? = some (digest r.2) := by
    apply hnodes (r.1, digest r.2)
    rw [List.zip_map_right]
    exact List.mem_map_of_mem (f := Prod.map id digest) hr
  rw [List.getElem?_map] at hdigest
  obtain ⟨row, hrow, hsame⟩ := Option.map_eq_some_iff.mp hdigest
  have hmem := List.mem_of_getElem? hrow
  have hmem' := (List.of_mem_zip hr).2
  rcases Merkle.row_eq_of_digest_eq ((htable row hmem).trans (hrows r.2 hmem').symm) hsame with
    hcollides | heq
  · refine absurd (hcollides.mono ?_ ?_) hfree
    · exact fun m hm => List.mem_append_left _ (List.mem_flatMap_of_mem hmem hm)
    · exact fun m hm => List.mem_append_left _ (List.mem_flatMap_of_mem hmem' hm)
  · rw [hrow, heq]

end MerkleTree
end StarkVerifier
