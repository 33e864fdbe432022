import StarkVerifier.Fibonacci
import StarkVerifier.Proofs.Coin.Reads
import StarkVerifier.Proofs.Field.Encoding
import StarkVerifier.Proofs.Verifier.Phases

/-!
# The writes of a run

Everything that a run writes to its coin, in order, each write with the coin it is made on. Reads leave
the digest alone, so the digests form one chain of hashes from the seed on. Main statement: `noted_eq`, that
a run which notes its writes as it makes them notes these.
-/

namespace StarkVerifier

open Stop

/-- What a run takes in by one write. -/
inductive Absorbed where
  | root (d : Digest)
  | elements (as : List Felt)
  | nonce (w : UInt64)
deriving DecidableEq

namespace Absorbed

def bytes : Absorbed → Bytes
  | root d => d.bytes
  | elements as => as.flatMap Felt.toBytes
  | nonce w => Bytes.ofWord w

end Absorbed

/-- A write: the coin before it, and what is written. -/
structure Write where
  before : Coin
  data : Absorbed

namespace Write

def after (w : Write) : Coin := w.before.write w.data.bytes

/-- The byte string that the write hashes. -/
def message (w : Write) : Bytes := w.before.digest.bytes ++ w.data.bytes

theorem length_message (w : Write) : w.message.length = 32 + w.data.bytes.length := by
  rw [message, List.length_append, w.before.digest.length_bytes]

end Write

namespace Transcript

def oodsWrites (p : Parameters) (coin : Coin) (proof : Proof) : List Write :=
  let constraints := constraintCoefficients p coin proof.traceRoot
  let point := oodsPoint constraints.2 proof.constraintRoot
  [⟨coin, .root proof.traceRoot⟩, ⟨constraints.2, .root proof.constraintRoot⟩,
    ⟨point.2, .elements proof.traceOods⟩,
    ⟨point.2.writeFelts proof.traceOods, .elements proof.constraintOods⟩]

def foldWrites (coin : Coin) : List Digest → List Write
  | [] => []
  | root :: roots => ⟨coin, .root root⟩ :: foldWrites (coin.writeDigest root).readFelt.2 roots

def friWrites (coin : Coin) (proof : Proof) : List Write :=
  let folds := foldChallenges coin (proof.friLayers.map (·.root))
  foldWrites coin (proof.friLayers.map (·.root)) ++
    [⟨folds.2, .elements proof.lastLayer⟩,
      ⟨folds.2.writeFelts proof.lastLayer, .nonce proof.powNonce⟩]

end Transcript

/-- Everything a proof writes to the coin when its run does not end early. -/
def Proof.absorbed (proof : Proof) : List Absorbed :=
  [.root proof.traceRoot, .root proof.constraintRoot, .elements proof.traceOods,
    .elements proof.constraintOods] ++ proof.friLayers.map (fun layer => .root layer.root) ++
    [.elements proof.lastLayer, .nonce proof.powNonce]

namespace Verifier

/-- The writes that a run makes before it ends: none before the shapes are checked, and only the first
four if the out-of-domain check fails. -/
def writes (cs : ConstraintSystem) (proof : Proof) : List Write :=
  match setUp cs proof with
  | .error _ => []
  | .ok (p, coin, _) =>
    Transcript.oodsWrites p coin proof ++
      match checkOods cs proof p coin with
      | .error _ => []
      | .ok () => Transcript.friWrites (Transcript.oods p coin proof).coin proof

/-- The coin that the queries are drawn from, if the run gets there. -/
def queryCoin (cs : ConstraintSystem) (proof : Proof) : Except Stop Coin := do
  let (p, coin, _) ← setUp cs proof
  checkOods cs proof p coin
  return (friChallenges p coin proof).coin

end Verifier

/-! ## What is written -/

namespace Transcript

theorem data_foldWrites (coin : Coin) (roots : List Digest) :
    (foldWrites coin roots).map (·.data) = roots.map .root := by
  induction roots generalizing coin with
  | nil => rfl
  | cons root roots ih => rw [foldWrites, List.map_cons, ih, List.map_cons]

theorem data_allWrites (p : Parameters) (coin coin' : Coin) (proof : Proof) :
    (oodsWrites p coin proof ++ friWrites coin' proof).map (·.data) = proof.absorbed := by
  simp only [oodsWrites, friWrites, List.map_append, data_foldWrites, Proof.absorbed, List.map_map,
    List.map_cons, List.map_nil, List.append_assoc]
  rfl

theorem length_foldWrites (coin : Coin) (roots : List Digest) :
    (foldWrites coin roots).length = roots.length := by
  simpa using congrArg List.length (data_foldWrites coin roots)

/-- The last write is the nonce, and the queries are drawn from the coin it leaves. -/
theorem friWrites_eq (p : Parameters) (coin : Coin) (proof : Proof) :
    ∃ front w, friWrites coin proof = front ++ [w] ∧ w.after = (fri p coin proof).coin ∧
      front.length = proof.friLayers.length + 1 := by
  have hlength := length_foldWrites coin (proof.friLayers.map (·.root))
  rw [List.length_map] at hlength
  let folds := foldChallenges coin (proof.friLayers.map (·.root))
  refine ⟨foldWrites coin (proof.friLayers.map (·.root)) ++ [⟨folds.2, .elements proof.lastLayer⟩],
    ⟨folds.2.writeFelts proof.lastLayer, .nonce proof.powNonce⟩, ?_, rfl, ?_⟩
  · rw [friWrites, List.append_assoc, List.singleton_append]
  · rw [List.length_append, hlength, List.length_singleton]

end Transcript

namespace Verifier

/-- The writes of a run are those of its proof, up to where it ends. -/
theorem data_writes (cs : ConstraintSystem) (proof : Proof) :
    (writes cs proof).map (·.data) <+: proof.absorbed := by
  unfold writes
  cases setUp cs proof with
  | error e => exact List.nil_prefix
  | ok started =>
      obtain ⟨p, coin, d⟩ := started
      rw [← Transcript.data_allWrites p coin (Transcript.oods p coin proof).coin proof]
      refine List.IsPrefix.map _ ((List.prefix_append_right_inj _).mpr ?_)
      cases checkOods cs proof p coin with
      | error e => exact List.nil_prefix
      | ok u => exact List.prefix_refl _

theorem queryCoin_eq_ok_iff {cs : ConstraintSystem} {proof : Proof} {c : Coin} :
    queryCoin cs proof = .ok c ↔
      ∃ p coin d, setUp cs proof = .ok (p, coin, d) ∧ checkOods cs proof p coin = .ok () ∧
        (friChallenges p coin proof).coin = c := by
  simp only [queryCoin, bind_eq_ok_iff, exists_unit_iff, pure_eq_ok_iff, Prod.exists]

/-- A run that comes to its queries has made every write, the nonce last. -/
theorem writes_of_queryCoin {cs : ConstraintSystem} {proof : Proof} {c : Coin}
    (h : queryCoin cs proof = .ok c) :
    ∃ front w, writes cs proof = front ++ [w] ∧ w.after = c ∧
      front.length = 5 + proof.friLayers.length := by
  obtain ⟨p, coin, d, hsetUp, hoods, rfl⟩ := queryCoin_eq_ok_iff.mp h
  obtain ⟨front, w, heq, hafter, hlength⟩ :=
    Transcript.friWrites_eq p (Transcript.oods p coin proof).coin proof
  refine ⟨Transcript.oodsWrites p coin proof ++ front, w, ?_, hafter, ?_⟩
  · simp only [writes, hsetUp, hoods, heq, List.append_assoc]
  · rw [List.length_append, hlength, Transcript.oodsWrites]
    simp only [List.length_cons, List.length_nil]
    omega

theorem data_writes_of_queryCoin {cs : ConstraintSystem} {proof : Proof} {c : Coin}
    (h : queryCoin cs proof = .ok c) : (writes cs proof).map (·.data) = proof.absorbed := by
  obtain ⟨p, coin, d, hsetUp, hoods, -⟩ := queryCoin_eq_ok_iff.mp h
  simp only [writes, hsetUp, hoods, Transcript.data_allWrites]

end Verifier

/-! ## The chain of digests -/

/-- Each write is made on a coin with the digest that the write before it left. -/
def Chained (d : Digest) : List Write → Prop
  | [] => True
  | w :: ws => w.before.digest = d ∧ Chained w.after.digest ws

namespace Chained

variable {d : Digest} {ws : List Write}

theorem before_zero {w : Write} (h : Chained d ws) (hw : ws[0]? = some w) :
    w.before.digest = d := by
  cases ws with
  | nil => simp at hw
  | cons v ws =>
      rw [List.getElem?_cons_zero, Option.some.injEq] at hw
      exact hw ▸ h.1

theorem before_succ {k : Nat} {v w : Write} (h : Chained d ws) (hv : ws[k]? = some v)
    (hw : ws[k + 1]? = some w) : w.before.digest = v.after.digest := by
  induction ws generalizing d k with
  | nil => simp at hv
  | cons u ws ih =>
      rw [List.getElem?_cons_succ] at hw
      cases k with
      | zero =>
          rw [List.getElem?_cons_zero, Option.some.injEq] at hv
          exact hv ▸ before_zero h.2 hw
      | succ k => exact ih h.2 (by rwa [List.getElem?_cons_succ] at hv) hw

end Chained

namespace Transcript

theorem chained_foldWrites {coin : Coin} {roots : List Digest} {ws : List Write}
    (h : Chained (foldChallenges coin roots).2.digest ws) :
    Chained coin.digest (foldWrites coin roots ++ ws) := by
  induction roots generalizing coin with
  | nil => exact h
  | cons root roots ih =>
      have hread := Coin.digest_readFelt (coin.writeDigest root)
      refine ⟨rfl, ?_⟩
      have htail := @ih (coin.writeDigest root).readFelt.2 h
      rwa [hread] at htail

theorem chained_friWrites (coin : Coin) (proof : Proof) :
    Chained coin.digest (friWrites coin proof) :=
  chained_foldWrites ⟨rfl, rfl, trivial⟩

theorem chained_oodsWrites {p : Parameters} {coin : Coin} {proof : Proof} {ws : List Write}
    (h : Chained (oods p coin proof).coin.digest ws) :
    Chained coin.digest (oodsWrites p coin proof ++ ws) := by
  have hlast : (oods p coin proof).coin.digest = _ := Coin.digest_readFelts p.oodsCoefficientCount _
  rw [hlast] at h
  exact ⟨rfl, Coin.digest_readFelts _ _, Coin.digest_readFelt _, rfl, h⟩

end Transcript

namespace Verifier

theorem chained_writes {cs : ConstraintSystem} {proof : Proof} {p : Parameters} {coin : Coin}
    {d : EvalDomain} (h : setUp cs proof = .ok (p, coin, d)) :
    Chained coin.digest (writes cs proof) := by
  rw [writes, h]
  apply Transcript.chained_oodsWrites
  cases checkOods cs proof p coin with
  | error e => trivial
  | ok u => exact Transcript.chained_friWrites _ proof

end Verifier
/-! ## A run with its writes noted -/

/-- A coin, and all that was written to it since its seed. -/
structure Ledger where
  coin : Coin
  writes : List Write

namespace Ledger

def absorb (l : Ledger) (data : Absorbed) : Ledger :=
  ⟨l.coin.write data.bytes, l.writes ++ [⟨l.coin, data⟩]⟩

def readFelt (l : Ledger) : Felt × Ledger := (l.coin.readFelt.1, { l with coin := l.coin.readFelt.2 })

def readFelts (n : Nat) (l : Ledger) : List Felt × Ledger :=
  ((l.coin.readFelts n).1, { l with coin := (l.coin.readFelts n).2 })

def oods (l : Ledger) (p : Parameters) (proof : Proof) : OodsChallenges × Ledger :=
  let l := l.absorb (.root proof.traceRoot)
  let (constraintCoefficients, l) := l.readFelts (2 * p.constraints)
  let l := l.absorb (.root proof.constraintRoot)
  let (point, l) := l.readFelt
  let l := l.absorb (.elements proof.traceOods)
  let l := l.absorb (.elements proof.constraintOods)
  let (oodsCoefficients, l) := l.readFelts p.oodsCoefficientCount
  (⟨constraintCoefficients, point, oodsCoefficients, l.coin⟩, l)

/-- Absorbs the roots of the layers, and reads a challenge after each. -/
def foldChallenges (l : Ledger) : List Digest → List Felt × Ledger
  | [] => ([], l)
  | root :: roots =>
    let (challenge, l) := (l.absorb (.root root)).readFelt
    let (challenges, l) := foldChallenges l roots
    (challenge :: challenges, l)

def fri (l : Ledger) (p : Parameters) (proof : Proof) : FriChallenges × Ledger :=
  let (challenges, l) := l.foldChallenges (proof.friLayers.map (·.root))
  let l := l.absorb (.elements proof.lastLayer)
  let work := ProofOfWork.ofDigest l.coin.digest p.powBits
  let l := l.absorb (.nonce proof.powNonce)
  (⟨challenges, work, l.coin⟩, l)

theorem oods_eq (l : Ledger) (p : Parameters) (proof : Proof) :
    l.oods p proof = (Transcript.oods p l.coin proof,
      ⟨(Transcript.oods p l.coin proof).coin, l.writes ++ Transcript.oodsWrites p l.coin proof⟩) := by
  simp only [oods, absorb, readFelts, readFelt, List.append_assoc]
  rfl

theorem foldChallenges_eq (l : Ledger) (roots : List Digest) :
    l.foldChallenges roots = ((Transcript.foldChallenges l.coin roots).1,
      ⟨(Transcript.foldChallenges l.coin roots).2, l.writes ++ Transcript.foldWrites l.coin roots⟩) := by
  induction roots generalizing l with
  | nil => simp [foldChallenges, Transcript.foldChallenges, Transcript.foldWrites]
  | cons root roots ih =>
      have hcoin : (l.absorb (.root root)).coin = l.coin.writeDigest root := rfl
      simp only [foldChallenges, ih, readFelt, hcoin, Transcript.foldChallenges, Transcript.foldWrites]
      simp [absorb]

theorem fri_eq (l : Ledger) (p : Parameters) (proof : Proof) :
    l.fri p proof = (Transcript.fri p l.coin proof,
      ⟨(Transcript.fri p l.coin proof).coin, l.writes ++ Transcript.friWrites l.coin proof⟩) := by
  simp only [fri, foldChallenges_eq, absorb, Transcript.friWrites, List.append_assoc]
  rfl

end Ledger

namespace Verifier

/-- A run that notes every write on its coin. It ends where a check fails, with what it has written by
then. -/
def noted (cs : ConstraintSystem) (proof : Proof) : List Write × Except Stop Unit :=
  match setUp cs proof with
  | .error stop => ([], .error stop)
  | .ok (p, coin, d) =>
    let (drawn, l) := Ledger.oods ⟨coin, []⟩ p proof
    let oods : Oods := ⟨drawn.point, proof.traceOods, proof.constraintOods⟩
    let holds : Except Stop Unit := do
      let combined ← orFault id (cs.combine proof.publicInputs p oods drawn.constraintCoefficients)
      require .constraintMismatch (combined = Felt.evalPoly proof.constraintOods drawn.point)
    match holds with
    | .error stop => (l.writes, .error stop)
    | .ok () =>
      let (fri, l) := l.fri p proof
      (l.writes, do
        let (queries, _) ← orFault .coin (l.coin.readQueries p.queries d.logSize)
        require .proofOfWork (fri.work.check proof.powNonce)
        checkRowOpenings proof p d queries
        let first ← orFault id (cs.evaluateAtQueries p queries proof.traceRows proof.constraintRows oods
          drawn.oodsCoefficients)
        orFault id (expectLength "first FRI layer values" queries.length first.length)
        let layers := proof.friLayers.zip (p.friLayout.zip fri.foldChallenges)
        let (folded, lastLength) ← checkLayers d layers 0 d.size (queries.zip first)
        checkLastLayer d proof.lastLayer lastLength folded)

/-- The writes are those of the run, each at its place, and noting them changes nothing. -/
theorem noted_eq (cs : ConstraintSystem) (proof : Proof) :
    noted cs proof = (writes cs proof, run cs proof) := by
  rw [noted, writes, run_eq]
  cases hsetUp : setUp cs proof with
  | error stop => rfl
  | ok started =>
      obtain ⟨p, coin, d⟩ := started
      have hholds : checkOods cs proof p coin = (do
          let drawn := Transcript.oods p coin proof
          let combined ← orFault id (cs.combine proof.publicInputs p
            ⟨drawn.point, proof.traceOods, proof.constraintOods⟩ drawn.constraintCoefficients)
          require .constraintMismatch (combined = Felt.evalPoly proof.constraintOods drawn.point)) := rfl
      simp only [Ledger.oods_eq, Ledger.fri_eq, List.nil_append, ← hholds, ok_bind]
      cases hoods : checkOods cs proof p coin with
      | error stop =>
          simp only [List.append_nil]
          rfl
      | ok _ =>
          simp only [ok_bind, drawQueries, bind_assoc]
          rfl

end Verifier
end StarkVerifier
