import StarkVerifier.Proofs.Fibonacci.Composition
import StarkVerifier.Proofs.Collision
import StarkVerifier.Proofs.Transcript.Writes

/-!
# The transcript binds what it absorbs

Equal digests after some write can only come from equal writes, back to the seed: each digest is the
hash of the digest before it and of what is written, and what is written can be read back from its
bytes. Main statement: `transcript_binds`.
-/

namespace StarkVerifier

/-! ## Reading back what was written -/

namespace Absorbed

/-- Which kind of data a write takes in. -/
def tag : Absorbed → Nat
  | root _ => 0
  | elements _ => 1
  | nonce _ => 2

theorem eq_of_bytes_eq {a b : Absorbed} (htag : a.tag = b.tag) (h : a.bytes = b.bytes) : a = b := by
  cases a with
  | root d =>
      cases b with
      | root e =>
          cases d
          cases e
          simpa [bytes] using h
      | elements bs => simp [tag] at htag
      | nonce v => simp [tag] at htag
  | elements as =>
      cases b with
      | root e => simp [tag] at htag
      | elements bs => exact congrArg elements (Felt.flatMap_toBytes_injective h)
      | nonce v => simp [tag] at htag
  | nonce w =>
      cases b with
      | root e => simp [tag] at htag
      | elements bs => simp [tag] at htag
      | nonce v => exact congrArg nonce (Bytes.ofWord_injective h)

end Absorbed

namespace Write

theorem eq_of_message_eq {v w : Write} (h : v.message = w.message) :
    v.before.digest = w.before.digest ∧ v.data.bytes = w.data.bytes := by
  have hlength : v.before.digest.bytes.length = w.before.digest.bytes.length := by
    rw [v.before.digest.length_bytes, w.before.digest.length_bytes]
  obtain ⟨hdigest, hbytes⟩ := List.append_inj h hlength
  refine ⟨?_, hbytes⟩
  cases hv : v.before.digest
  cases hw : w.before.digest
  simpa [hv, hw] using hdigest

end Write

namespace Proof

theorem tag_absorbed (proof : Proof) :
    proof.absorbed.map Absorbed.tag =
      [0, 0, 1, 1] ++ List.replicate proof.friLayers.length 0 ++ [1, 2] := by
  simp [absorbed, Absorbed.tag, Function.comp_def]

/-- The fields that the transcript takes in agree. -/
structure SameAbsorbed (proof proof' : Proof) : Prop where
  publicInputs : proof.publicInputs = proof'.publicInputs
  traceRoot : proof.traceRoot = proof'.traceRoot
  constraintRoot : proof.constraintRoot = proof'.constraintRoot
  traceOods : proof.traceOods = proof'.traceOods
  constraintOods : proof.constraintOods = proof'.constraintOods
  friRoots : proof.friLayers.map (·.root) = proof'.friLayers.map (·.root)
  lastLayer : proof.lastLayer = proof'.lastLayer
  powNonce : proof.powNonce = proof'.powNonce

theorem sameAbsorbed_of_absorbed_eq {proof proof' : Proof}
    (hinputs : proof.publicInputs = proof'.publicInputs) (h : proof.absorbed = proof'.absorbed) :
    SameAbsorbed proof proof' := by
  have hlength : proof.friLayers.length = proof'.friLayers.length := by
    simpa [absorbed] using congrArg List.length h
  simp only [absorbed, List.cons_append, List.nil_append, List.cons.injEq, Absorbed.root.injEq,
    Absorbed.elements.injEq] at h
  obtain ⟨htrace, hconstraint, htraceOods, hconstraintOods, hrest⟩ := h
  obtain ⟨hroots, hlast⟩ := List.append_inj hrest (by simp [hlength])
  simp only [List.cons.injEq, Absorbed.elements.injEq, Absorbed.nonce.injEq, and_true] at hlast
  refine ⟨hinputs, htrace, hconstraint, htraceOods, hconstraintOods, ?_, hlast.1, hlast.2⟩
  have hinj : Function.Injective Absorbed.root := fun _ _ h => Absorbed.root.inj h
  apply List.map_injective_iff.mpr hinj
  simpa [Function.comp_def] using hroots

/-- The writes between the values at the out-of-domain point and the last layer are of 32 bytes when
one composition value is claimed. -/
theorem length_bytes_absorbed {proof : Proof} (hone : proof.constraintOods.length = 1) {j : Nat}
    {a : Absorbed} (hj : 3 ≤ j) (hj' : j < 4 + proof.friLayers.length)
    (ha : proof.absorbed[j]? = some a) : a.bytes.length = 32 := by
  obtain ⟨i, rfl⟩ := Nat.exists_eq_add_of_le' hj
  simp only [absorbed, List.cons_append, List.nil_append, List.getElem?_cons_succ] at ha
  cases i with
  | zero =>
      rw [List.getElem?_cons_zero, Option.some.injEq] at ha
      rw [← ha, Absorbed.bytes, Felt.length_flatMap_toBytes, hone]
  | succ i =>
      rw [List.getElem?_cons_succ, List.getElem?_append_left (by rw [List.length_map]; omega),
        List.getElem?_map] at ha
      obtain ⟨layer, -, rfl⟩ := Option.map_eq_some_iff.mp ha
      exact layer.root.length_bytes

end Proof

/-! ## Unwinding the chain -/

theorem Write.collides_or_message_eq {ws ws' : List Write} {k k' : Nat} {w w' : Write}
    (hw : ws[k]? = some w) (hw' : ws'[k']? = some w') (heq : w.after.digest = w'.after.digest) :
    Collides keccak (ws.map (·.message)) (ws'.map (·.message)) ∨ w.message = w'.message := by
  have hhash : keccak w.message = keccak w'.message := heq
  exact Collides.or_eq (List.mem_map_of_mem (List.mem_of_getElem? hw))
    (List.mem_map_of_mem (List.mem_of_getElem? hw')) hhash

/-- From a common digest the two chains are followed back to the start of the shorter one: `s` writes
more stand before in the second. -/
theorem messages_eq_of_digest_eq {d d' : Digest} {ws ws' : List Write} (h : Chained d ws)
    (h' : Chained d' ws') (s : Nat) {k : Nat} {w w' : Write} (hw : ws[k]? = some w)
    (hw' : ws'[k + s]? = some w') (heq : w.after.digest = w'.after.digest) :
    Collides keccak (ws.map (·.message)) (ws'.map (·.message)) ∨
      ∀ j ≤ k, ∀ v v', ws[j]? = some v → ws'[j + s]? = some v' → v.message = v'.message := by
  rcases Write.collides_or_message_eq hw hw' heq with hcollides | hmessage
  · exact Or.inl hcollides
  -- each message holds the digest after the write before it
  induction k generalizing w w' with
  | zero =>
      right
      intro j hj v v' hv hv'
      obtain rfl : j = 0 := by omega
      rw [hw, Option.some.injEq] at hv
      rw [hw', Option.some.injEq] at hv'
      rw [← hv, ← hv', hmessage]
  | succ k ih =>
      have hlt := (List.getElem?_eq_some_iff.mp hw).1
      have hlt' := (List.getElem?_eq_some_iff.mp hw').1
      obtain ⟨v, hv⟩ : ∃ v, ws[k]? = some v := ⟨_, List.getElem?_eq_getElem (by omega)⟩
      obtain ⟨v', hv'⟩ : ∃ v', ws'[k + s]? = some v' := ⟨_, List.getElem?_eq_getElem (by omega)⟩
      rw [show k + 1 + s = k + s + 1 by omega] at hw'
      have hbefore := (Write.eq_of_message_eq hmessage).1
      rw [h.before_succ hv hw, h'.before_succ hv' hw'] at hbefore
      rcases Write.collides_or_message_eq hv hv' hbefore with hcollides | hmessage'
      · exact Or.inl hcollides
      apply (ih hv hv' hbefore hmessage').imp_right
      intro hearlier j hj u u' hu hu'
      rcases Nat.lt_or_ge k j with hgt | hle
      · obtain rfl : j = k + 1 := by omega
        rw [hw, Option.some.injEq] at hu
        rw [show k + 1 + s = k + s + 1 by omega, hw', Option.some.injEq] at hu'
        rw [← hu, ← hu', hmessage]
      · exact hearlier j hle u u' hu hu'

/-! ## Runs of the Fibonacci program -/

namespace Verifier

/-- The byte strings that the coin of a run takes in: the seed, and the digest before each write
together with what is written. -/
def hashedByCoin (cs : ConstraintSystem) (proof : Proof) : List Bytes :=
  proof.publicInputs :: (writes cs proof).map (·.message)

theorem absorbed_getElem? {cs : ConstraintSystem} {proof : Proof} {j : Nat} {v : Write}
    (hv : (writes cs proof)[j]? = some v) : proof.absorbed[j]? = some v.data := by
  obtain ⟨rest, hrest⟩ := data_writes cs proof
  have hlt := (List.getElem?_eq_some_iff.mp hv).1
  rw [← hrest, List.getElem?_append_left (by rwa [List.length_map]), List.getElem?_map, hv,
    Option.map_some]

/-- Proofs with equally many layers write data of the same kinds. -/
theorem tag_data_eq {cs : ConstraintSystem} {proof proof' : Proof} {j : Nat} {v v' : Write}
    (hlength : proof.friLayers.length = proof'.friLayers.length)
    (hv : (writes cs proof)[j]? = some v) (hv' : (writes cs proof')[j]? = some v') :
    v.data.tag = v'.data.tag := by
  have htag : (proof.absorbed.map Absorbed.tag)[j]? = (proof'.absorbed.map Absorbed.tag)[j]? := by
    rw [Proof.tag_absorbed, Proof.tag_absorbed, hlength]
  rw [List.getElem?_map, List.getElem?_map, absorbed_getElem? hv, absorbed_getElem? hv'] at htag
  simpa using htag

theorem setUp_of_writes {cs : ConstraintSystem} {proof : Proof} {j : Nat} {v : Write}
    (hv : (writes cs proof)[j]? = some v) : ∃ p coin d, setUp cs proof = .ok (p, coin, d) := by
  unfold writes at hv
  cases h : setUp cs proof with
  | error e => simp [h] at hv
  | ok started => exact ⟨started.1, started.2.1, started.2.2, rfl⟩

end Verifier

namespace Fibonacci

open Verifier

theorem start_eq_ok_iff {config : FibonacciConfig} {inputs : Bytes} {p : Parameters} {coin : Coin} :
    start config inputs = .ok (p, coin) ↔
      ∃ claim n, FibonacciClaim.ofPublicInputs inputs = .ok claim ∧ claim.traceLength = .ok n ∧
        p = parameters config n ∧ coin = .ofSeed inputs := by
  simp only [start, bind_eq_ok_iff, pure_eq_ok_iff, Prod.mk.injEq]
  constructor
  · rintro ⟨claim, hclaim, n, hn, rfl, rfl⟩
    exact ⟨claim, n, hclaim, hn, rfl, rfl⟩
  · rintro ⟨claim, n, hclaim, hn, rfl, rfl⟩
    exact ⟨claim, hclaim, n, hn, rfl, rfl⟩

/-- What is known of a run of the program once its shapes are checked. -/
theorem of_setUp {config : FibonacciConfig} {proof : Proof} {p : Parameters} {coin : Coin}
    {d : EvalDomain} (h : setUp (program config) proof = .ok (p, coin, d)) :
    coin = .ofSeed proof.publicInputs ∧ proof.traceOods.length = 4 ∧
      proof.constraintOods.length = 1 ∧ proof.friLayers.length = p.friLayout.length := by
  obtain ⟨-, hstart, -, hshapes, -⟩ := setUp_eq_ok_iff.mp h
  obtain ⟨claim, n, -, -, rfl, hcoin⟩ := start_eq_ok_iff.mp hstart
  obtain ⟨htrace, hconstraint, hlayers, -⟩ := checkShapes_eq_ok_iff.mp hshapes
  exact ⟨hcoin, htrace, hconstraint, hlayers⟩

variable {config : FibonacciConfig} {proof proof' : Proof}

/-- Equal digests after writes of equal number: the seeds agree, and so does every write so far. -/
theorem writes_bind {k : Nat} {w w' : Write} (hw : (writes (program config) proof)[k]? = some w)
    (hw' : (writes (program config) proof')[k]? = some w')
    (heq : w.after.digest = w'.after.digest) :
    Collides keccak (hashedByCoin (program config) proof) (hashedByCoin (program config) proof') ∨
      proof.publicInputs = proof'.publicInputs ∧
        ∀ j ≤ k, ∀ v v', (writes (program config) proof)[j]? = some v →
          (writes (program config) proof')[j]? = some v' → v.data = v'.data := by
  obtain ⟨p, coin, d, hsetUp⟩ := setUp_of_writes hw
  obtain ⟨p', coin', d', hsetUp'⟩ := setUp_of_writes hw'
  have hchain := chained_writes hsetUp
  have hchain' := chained_writes hsetUp'
  rcases messages_eq_of_digest_eq hchain hchain' 0 hw hw' heq with hcollides | hmessages
  · exact Or.inl (hcollides.cons _ _)
  obtain ⟨v, hv⟩ : ∃ v, (writes (program config) proof)[0]? = some v :=
    ⟨_, List.getElem?_eq_getElem (Nat.zero_lt_of_lt (List.getElem?_eq_some_iff.mp hw).1)⟩
  obtain ⟨v', hv'⟩ : ∃ v, (writes (program config) proof')[0]? = some v :=
    ⟨_, List.getElem?_eq_getElem (Nat.zero_lt_of_lt (List.getElem?_eq_some_iff.mp hw').1)⟩
  obtain ⟨hcoin, -, -, hlayers⟩ := of_setUp hsetUp
  obtain ⟨hcoin', -, -, hlayers'⟩ := of_setUp hsetUp'
  have hseed : keccak proof.publicInputs = keccak proof'.publicInputs := by
    have hbefore := (Write.eq_of_message_eq (hmessages 0 (Nat.zero_le k) v v' hv hv')).1
    rw [hchain.before_zero hv, hchain'.before_zero hv', hcoin, hcoin'] at hbefore
    exact hbefore
  rcases Collides.or_eq List.mem_cons_self List.mem_cons_self hseed with hcollides | hinputs
  · exact Or.inl hcollides
  refine Or.inr ⟨hinputs, fun j hj u u' hu hu' => ?_⟩
  -- the parameters, and with them the number of layers, come from the public inputs
  have hlength : proof.friLayers.length = proof'.friLayers.length := by
    obtain ⟨-, hstart, -⟩ := setUp_eq_ok_iff.mp hsetUp
    obtain ⟨-, hstart', -⟩ := setUp_eq_ok_iff.mp hsetUp'
    rw [hinputs, hstart', Except.ok.injEq, Prod.mk.injEq] at hstart
    rw [hlayers, hlayers', hstart.1]
  exact Absorbed.eq_of_bytes_eq (tag_data_eq hlength hu hu')
    (Write.eq_of_message_eq (hmessages j hj u u' hu hu')).2

/-- With more layers in the second proof the third write of the first, four elements, meets a write of
32 bytes. -/
theorem collides_of_more_layers {c c' : Coin} (h : queryCoin (program config) proof = .ok c)
    (h' : queryCoin (program config) proof' = .ok c') (heq : c.digest = c'.digest)
    (hlt : proof.friLayers.length < proof'.friLayers.length) :
    Collides keccak (hashedByCoin (program config) proof)
      (hashedByCoin (program config) proof') := by
  obtain ⟨front, w, hwrites, hafter, hlength⟩ := writes_of_queryCoin h
  obtain ⟨front', w', hwrites', hafter', hlength'⟩ := writes_of_queryCoin h'
  obtain ⟨p, coin, d, hsetUp, -, -⟩ := queryCoin_eq_ok_iff.mp h
  obtain ⟨p', coin', d', hsetUp', -, -⟩ := queryCoin_eq_ok_iff.mp h'
  obtain ⟨-, hoods, -, -⟩ := of_setUp hsetUp
  obtain ⟨-, -, hoods', -⟩ := of_setUp hsetUp'
  have hshift : 5 + proof.friLayers.length + (proof'.friLayers.length - proof.friLayers.length) =
      5 + proof'.friLayers.length := by omega
  have hw : (writes (program config) proof)[5 + proof.friLayers.length]? = some w := by
    rw [hwrites, ← hlength, List.getElem?_concat_length]
  have hw' : (writes (program config) proof')[5 + proof.friLayers.length +
      (proof'.friLayers.length - proof.friLayers.length)]? = some w' := by
    rw [hshift, hwrites', ← hlength', List.getElem?_concat_length]
  rw [← hafter, ← hafter'] at heq
  rcases messages_eq_of_digest_eq (chained_writes hsetUp) (chained_writes hsetUp') _ hw hw' heq with
    hcollides | hmessages
  · exact hcollides.cons _ _
  have hbound := (List.getElem?_eq_some_iff.mp hw).1
  have hbound' := (List.getElem?_eq_some_iff.mp hw').1
  obtain ⟨v, hv⟩ : ∃ v, (writes (program config) proof)[2]? = some v :=
    ⟨_, List.getElem?_eq_getElem (by omega)⟩
  obtain ⟨v', hv'⟩ : ∃ v', (writes (program config) proof')[2 + (proof'.friLayers.length -
      proof.friLayers.length)]? = some v' := ⟨_, List.getElem?_eq_getElem (by omega)⟩
  -- the two messages would be equal, but their lengths differ
  have hmessage := congrArg List.length (hmessages 2 (by omega) v v' hv hv')
  have hfour : v.data.bytes.length = 128 := by
    have hdata := absorbed_getElem? hv
    simp only [Proof.absorbed, List.cons_append, List.getElem?_cons_succ, List.getElem?_cons_zero,
      Option.some.injEq] at hdata
    rw [← hdata, Absorbed.bytes, Felt.length_flatMap_toBytes, hoods]
  have hone := Proof.length_bytes_absorbed hoods' (by omega) (by omega) (absorbed_getElem? hv')
  rw [Write.length_message, Write.length_message, hfour, hone] at hmessage
  omega

theorem sameAbsorbed_of_same_layers {c c' : Coin} (h : queryCoin (program config) proof = .ok c)
    (h' : queryCoin (program config) proof' = .ok c') (heq : c.digest = c'.digest)
    (hlayers : proof.friLayers.length = proof'.friLayers.length) :
    Collides keccak (hashedByCoin (program config) proof) (hashedByCoin (program config) proof') ∨
      proof.SameAbsorbed proof' := by
  obtain ⟨front, w, hwrites, rfl, hlength⟩ := writes_of_queryCoin h
  obtain ⟨front', w', hwrites', rfl, hlength'⟩ := writes_of_queryCoin h'
  have hw : (writes (program config) proof)[front.length]? = some w := by
    rw [hwrites, List.getElem?_concat_length]
  have hw' : (writes (program config) proof')[front.length]? = some w' := by
    rw [hwrites', hlength, hlayers, ← hlength', List.getElem?_concat_length]
  refine (writes_bind hw hw' heq).imp_right fun ⟨hinputs, hdata⟩ => ?_
  apply Proof.sameAbsorbed_of_absorbed_eq hinputs
  rw [← data_writes_of_queryCoin h, ← data_writes_of_queryCoin h', hwrites, hwrites']
  refine List.ext_getElem? fun j => ?_
  rw [List.getElem?_map, List.getElem?_map, ← hwrites, ← hwrites']
  rcases Nat.lt_or_ge front.length j with hgt | hle
  · have hend : (writes (program config) proof)[j]? = none := by
      rw [List.getElem?_eq_none_iff, hwrites, List.length_append, List.length_singleton]
      omega
    have hend' : (writes (program config) proof')[j]? = none := by
      rw [List.getElem?_eq_none_iff, hwrites', List.length_append, List.length_singleton]
      omega
    rw [hend, hend']
  · obtain ⟨v, hv⟩ : ∃ v, (writes (program config) proof)[j]? = some v :=
      ⟨_, List.getElem?_eq_getElem (lt_of_le_of_lt hle (List.getElem?_eq_some_iff.mp hw).1)⟩
    obtain ⟨v', hv'⟩ : ∃ v', (writes (program config) proof')[j]? = some v' :=
      ⟨_, List.getElem?_eq_getElem (lt_of_le_of_lt hle (List.getElem?_eq_some_iff.mp hw').1)⟩
    rw [hv, hv', Option.map_some, Option.map_some, hdata j hle v v' hv hv']

/-- The digest after a write binds the seed and every write so far, and the digest that the queries are
drawn from binds every absorbed field, whatever the numbers of layers. The one exception is a pair of
different byte strings, one taken in by each coin, with the same hash. -/
theorem transcript_binds (config : FibonacciConfig) (proof proof' : Proof) :
    (∀ (k : Nat) (w w' : Write), (writes (program config) proof)[k]? = some w →
      (writes (program config) proof')[k]? = some w' → w.after.digest = w'.after.digest →
        Collides keccak (hashedByCoin (program config) proof)
            (hashedByCoin (program config) proof') ∨
          proof.publicInputs = proof'.publicInputs ∧
            ((writes (program config) proof).take (k + 1)).map (·.data) =
              ((writes (program config) proof').take (k + 1)).map (·.data)) ∧
      ∀ c c', queryCoin (program config) proof = .ok c →
        queryCoin (program config) proof' = .ok c' → c.digest = c'.digest →
          Collides keccak (hashedByCoin (program config) proof)
              (hashedByCoin (program config) proof') ∨
            proof.SameAbsorbed proof' := by
  constructor
  · intro k w w' hw hw' heq
    refine (writes_bind hw hw' heq).imp_right fun ⟨hinputs, hdata⟩ => ⟨hinputs, ?_⟩
    refine List.ext_getElem? fun j => ?_
    rw [List.getElem?_map, List.getElem?_map, List.getElem?_take, List.getElem?_take]
    split
    · next hj =>
        have hlt := (List.getElem?_eq_some_iff.mp hw).1
        have hlt' := (List.getElem?_eq_some_iff.mp hw').1
        obtain ⟨v, hv⟩ : ∃ v, (writes (program config) proof)[j]? = some v :=
          ⟨_, List.getElem?_eq_getElem (by omega)⟩
        obtain ⟨v', hv'⟩ : ∃ v', (writes (program config) proof')[j]? = some v' :=
          ⟨_, List.getElem?_eq_getElem (by omega)⟩
        rw [hv, hv', Option.map_some, Option.map_some, hdata j (by omega) v v' hv hv']
    · rfl
  · intro c c' h h' heq
    rcases Nat.lt_trichotomy proof.friLayers.length proof'.friLayers.length with hlt | hsame | hgt
    · exact Or.inl (collides_of_more_layers h h' heq hlt)
    · exact sameAbsorbed_of_same_layers h h' heq hsame
    · exact Or.inl (collides_of_more_layers h' h heq.symm hgt).symm

/-! ### Proofs that differ in their opened rows -/

/-- The transcript does not take the opened rows in. -/
theorem writes_traceRows (cs : ConstraintSystem) (proof : Proof) (rows : List (List Felt)) :
    writes cs { proof with traceRows := rows } = writes cs proof := rfl

theorem queryCoin_traceRows (cs : ConstraintSystem) (proof : Proof) (rows : List (List Felt)) :
    queryCoin cs { proof with traceRows := rows } = queryCoin cs proof := rfl

/-- One layer, and a last layer of one coefficient. -/
def shortConfig : FibonacciConfig := ⟨2, 0, 1, some [1]⟩

/-- The second term of the sequence 1, 1, 2. -/
def shortClaim : FibonacciClaim := ⟨1, 1⟩

/-- Passes the out-of-domain check, and opens no row. -/
def shortProof : Proof where
  publicInputs := shortClaim.toPublicInputs
  traceRoot := .zero
  constraintRoot := .zero
  traceOods := [1, 0, 0, 1]
  constraintOods := [0]
  friLayers := [⟨.zero, [], []⟩]
  lastLayer := [0]
  powNonce := 0
  traceRows := []
  traceDecommitment := []
  constraintRows := []
  constraintDecommitment := []

theorem exists_queryCoin_shortProof : ∃ c, queryCoin (program shortConfig) shortProof = .ok c := by
  have hlength : shortClaim.traceLength = .ok 2 := by decide +kernel
  have hvalid : (parameters shortConfig 2).Valid := Parameters.validate_eq_ok_iff.mp rfl
  have hsetUp := @setUp_toPublicInputs shortConfig shortProof shortClaim 2 rfl hlength hvalid rfl
  refine ⟨_, queryCoin_eq_ok_iff.mpr ⟨_, _, _, hsetUp, checkOods_vanishing hsetUp
    (FibonacciClaim.ofPublicInputs_toPublicInputs shortClaim) rfl rfl rfl ?_, rfl⟩⟩
  rw [point_oods]
  decide +kernel

/-- Both runs make all seven writes and draw their queries from one coin, and one of them opens a row. -/
theorem transcript_binds_opened_row :
    ∃ w c, (writes (program shortConfig) shortProof)[6]? = some w ∧
      (writes (program shortConfig) { shortProof with traceRows := [[1]] })[6]? = some w ∧
      queryCoin (program shortConfig) shortProof = .ok c ∧
      queryCoin (program shortConfig) { shortProof with traceRows := [[1]] } = .ok c ∧
      (Collides keccak (hashedByCoin (program shortConfig) shortProof)
          (hashedByCoin (program shortConfig) { shortProof with traceRows := [[1]] }) ∨
        ((writes (program shortConfig) shortProof).take 7).map (·.data) =
          ((writes (program shortConfig) { shortProof with traceRows := [[1]] }).take 7).map (·.data) ∧
        shortProof.SameAbsorbed { shortProof with traceRows := [[1]] }) := by
  obtain ⟨c, hc⟩ := exists_queryCoin_shortProof
  obtain ⟨front, w, hwrites, hafter, hlength⟩ := writes_of_queryCoin hc
  have hw : (writes (program shortConfig) shortProof)[6]? = some w := by
    rw [hwrites, show 6 = front.length from hlength.symm, List.getElem?_concat_length]
  have hw' := (congrArg (·[6]?) (writes_traceRows (program shortConfig) shortProof [[1]])).trans hw
  have hc' := (queryCoin_traceRows (program shortConfig) shortProof [[1]]).trans hc
  obtain ⟨hbound, hdraw⟩ :=
    transcript_binds shortConfig shortProof { shortProof with traceRows := [[1]] }
  refine ⟨w, c, hw, hw', hc, hc', ?_⟩
  rcases hbound 6 w w hw hw' rfl with hcollides | ⟨-, hdata⟩
  · exact Or.inl hcollides
  · exact (hdraw c c hc hc' rfl).imp_right fun hsame => ⟨hdata, hsame⟩

end Fibonacci
end StarkVerifier
