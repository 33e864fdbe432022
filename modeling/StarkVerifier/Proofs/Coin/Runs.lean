import Mathlib.Data.List.DropRight
import Mathlib.Data.List.Sort
import StarkVerifier.Proofs.Coin.Blocks

/-!
# Runs of the coin

A run is any sequence of writes and reads from a seed on. Its digest is a fold over the writes alone,
and from one write to the next the reads share out one tape of blocks: they take it in order, without a
gap and without taking a block twice, and each answers from the blocks it takes.

Main statement: `transcript_law`.
-/

namespace StarkVerifier.Coin

/-! ## Calls -/

inductive Call where
  | write (data : Bytes)
  | writeDigest (d : Digest)
  | writeFelts (as : List Felt)
  | readDigest
  | readFelt
  | readFelts (count : Nat)
  | readQuery (bits : Nat)
  | readQueries (count bits : Nat)
deriving DecidableEq

/-- What a call writes, if it is a write. -/
def Call.written? : Call → Option Bytes
  | write data => some data
  | writeDigest d => some d.bytes
  | writeFelts as => some (as.flatMap Felt.toBytes)
  | readDigest | readFelt | readFelts _ | readQuery _ | readQueries _ _ => none

inductive Reply where
  | done
  | digest (d : Digest)
  | felt (x : Felt)
  | felts (xs : List Felt)
  | query (i : Nat)
  | queries (is : List Nat)
  | refused (e : CoinError)
deriving DecidableEq

def perform (coin : Coin) : Call → Reply × Coin
  | .write data => (.done, coin.write data)
  | .writeDigest d => (.done, coin.writeDigest d)
  | .writeFelts as => (.done, coin.writeFelts as)
  | .readDigest => (.digest coin.readDigest.1, coin.readDigest.2)
  | .readFelt => (.felt coin.readFelt.1, coin.readFelt.2)
  | .readFelts count => (.felts (readFelts count coin).1, (readFelts count coin).2)
  | .readQuery bits => (.query (coin.readQuery bits).1, (coin.readQuery bits).2)
  | .readQueries count bits =>
    match coin.readQueries count bits with
    | .ok (indices, after) => (.queries indices, after)
    | .error e => (.refused e, coin)

/-- The coin that a run leaves. -/
def after (coin : Coin) (calls : List Call) : Coin :=
  calls.foldl (fun coin call => (coin.perform call).2) coin

def replies (coin : Coin) : List Call → List Reply
  | [] => []
  | call :: calls => (coin.perform call).1 :: replies (coin.perform call).2 calls

theorem after_concat (coin : Coin) (calls : List Call) (call : Call) :
    coin.after (calls ++ [call]) = ((coin.after calls).perform call).2 :=
  List.foldl_concat _ _ _ _

theorem replies_concat (coin : Coin) (calls : List Call) (call : Call) :
    coin.replies (calls ++ [call]) = coin.replies calls ++ [((coin.after calls).perform call).1] := by
  induction calls generalizing coin with
  | nil => rfl
  | cons first calls ih => exact congrArg (_ :: ·) (ih _)

/-! ## What a call answers -/

/-- The reply to a call that has taken some blocks. -/
inductive Answers : Call → List Digest → Reply → Prop where
  | write (data : Bytes) : Answers (.write data) [] .done
  | writeDigest (d : Digest) : Answers (.writeDigest d) [] .done
  | writeFelts (as : List Felt) : Answers (.writeFelts as) [] .done
  | readDigest (b : Digest) : Answers .readDigest [b] (.digest b)
  | readFelt {x : Felt} {blocks : List Digest} (h : Draws x blocks) : Answers .readFelt blocks (.felt x)
  | readFelts {draws : List (Felt × List Digest)} (h : ∀ draw ∈ draws, Draws draw.1 draw.2) :
    Answers (.readFelts draws.length) (draws.flatMap Prod.snd) (.felts (draws.map Prod.fst))
  | readQuery (bits : Nat) (b : Digest) : Answers (.readQuery bits) [b] (.query (lowWord b % 2 ^ bits))
  | readQueries {count bits : Nat} {blocks : List Digest} {indices : List Nat}
    (hbits : bits ≤ 64) (hcount : count ≤ 2 ^ bits)
    (hascending : indices.Pairwise (· < ·))
    (hmem : ∀ i, i ∈ indices ↔ i ∈ blocks.map (lowWord · % 2 ^ bits))
    (henough : indices.length = count)
    (hfew : ∀ front, front <+: blocks → front ≠ blocks →
      (front.map (lowWord · % 2 ^ bits)).toFinset.card < count) :
    Answers (.readQueries count bits) blocks (.queries indices)
  | tooWide {count bits : Nat} (h : 64 < bits) :
    Answers (.readQueries count bits) [] (.refused (.queryWidth bits))
  | tooMany {count bits : Nat} (hbits : bits ≤ 64) (h : 2 ^ bits < count) :
    Answers (.readQueries count bits) [] (.refused (.tooManyQueries count bits))

/-- Where a draw ends can be told from its blocks, so what it draws can be as well. -/
theorem Draws.append_inj {x y : Felt} {blocks others rest left : List Digest} (hx : Draws x blocks)
    (hy : Draws y others) (h : blocks ++ rest = others ++ left) : x = y ∧ rest = left := by
  obtain ⟨refused, last, rfl, hrefused, hlast⟩ := hx
  obtain ⟨refused', last', rfl, hrefused', hlast'⟩ := hy
  induction refused generalizing refused' with
  | nil =>
      cases refused' with
      | nil =>
          obtain ⟨rfl, rfl⟩ := List.cons.inj h
          exact ⟨Felt.toNat_injective (hlast.trans hlast'.symm), rfl⟩
      | cons b refused' =>
          obtain ⟨rfl, -⟩ := List.cons.inj h
          have hb := hrefused' last List.mem_cons_self
          exact absurd (hlast ▸ x.toNat_lt) (Nat.not_lt.mpr hb)
  | cons b refused ih =>
      cases refused' with
      | nil =>
          obtain ⟨rfl, -⟩ := List.cons.inj h
          have hb := hrefused b List.mem_cons_self
          exact absurd (hlast' ▸ y.toNat_lt) (Nat.not_lt.mpr hb)
      | cons b' refused' =>
          obtain ⟨rfl, htail⟩ := List.cons.inj h
          exact ih (List.forall_mem_cons.mp hrefused).2 refused' htail (List.forall_mem_cons.mp hrefused').2

theorem fst_eq_of_draws {draws others : List (Felt × List Digest)}
    (h : ∀ draw ∈ draws, Draws draw.1 draw.2) (h' : ∀ draw ∈ others, Draws draw.1 draw.2)
    (hlength : draws.length = others.length)
    (hblocks : draws.flatMap Prod.snd = others.flatMap Prod.snd) :
    draws.map Prod.fst = others.map Prod.fst := by
  induction draws generalizing others with
  | nil =>
      rw [List.eq_nil_of_length_eq_zero hlength.symm]
  | cons draw draws ih =>
      cases others with
      | nil => simp at hlength
      | cons other others =>
          obtain ⟨hdraw, hdraws⟩ := List.forall_mem_cons.mp h
          obtain ⟨hother, hothers⟩ := List.forall_mem_cons.mp h'
          rw [List.flatMap_cons, List.flatMap_cons] at hblocks
          obtain ⟨hfirst, hrest⟩ := hdraw.append_inj hother hblocks
          rw [List.map_cons, List.map_cons, hfirst, ih hdraws hothers (Nat.succ.inj hlength) hrest]

/-- A reply is determined by the blocks that were taken for it. -/
theorem Answers.unique {call : Call} {blocks : List Digest} {reply other : Reply}
    (h : Answers call blocks reply) (h' : Answers call blocks other) : other = reply := by
  cases h with
  | write | writeDigest | writeFelts | readDigest | readQuery =>
      cases h'
      rfl
  | readFelt h =>
      cases h' with
      | readFelt h' =>
          have hblocks : blocks ++ ([] : List Digest) = blocks ++ [] := rfl
          rw [(h'.append_inj h hblocks).1]
  | @readFelts draws h =>
      generalize hlength : draws.length = count at h'
      generalize hblocks : draws.flatMap Prod.snd = blocks at h'
      cases h' with
      | readFelts h' => rw [fst_eq_of_draws h' h hlength.symm hblocks.symm]
  | readQueries hbits hcount hascending hmem henough hfew =>
      cases h' with
      | readQueries _ _ hascending' hmem' _ _ =>
          congr 1
          exact hascending'.eq_of_mem_iff hascending fun i => (hmem' i).trans (hmem i).symm
      | tooWide hwide => exact absurd hbits (Nat.not_le.mpr hwide)
      | tooMany _ hmany => exact absurd hcount (Nat.not_le.mpr hmany)
  | tooWide hwide =>
      cases h' with
      | readQueries hbits => exact absurd hbits (Nat.not_le.mpr hwide)
      | tooWide => rfl
      | tooMany hbits => exact absurd hbits (Nat.not_le.mpr hwide)
  | tooMany hbits hmany =>
      cases h' with
      | readQueries _ hcount => exact absurd hcount (Nat.not_le.mpr hmany)
      | tooWide hwide => exact absurd hbits (Nat.not_le.mpr hwide)
      | tooMany => rfl

/-! ## One call -/

theorem perform_write {call : Call} {data : Bytes} (coin : Coin) (h : call.written? = some data) :
    coin.perform call = (.done, coin.write data) ∧ Answers call [] .done := by
  cases call with
  | write data' => exact ⟨by rw [← Option.some.inj h]; rfl, .write data'⟩
  | writeDigest d => exact ⟨by rw [← Option.some.inj h]; rfl, .writeDigest d⟩
  | writeFelts as => exact ⟨by rw [← Option.some.inj h]; rfl, .writeFelts as⟩
  | readDigest | readFelt | readFelts count | readQuery bits | readQueries count bits => cases h

theorem answers_readQueries (count bits : Nat) (coin : Coin) :
    ∃ n, (coin.perform (.readQueries count bits)).2 = coin.skip n ∧
      (n < 2 ^ 64 → Answers (.readQueries count bits) (coin.ahead n)
        (coin.perform (.readQueries count bits)).1) := by
  by_cases hbits : 64 < bits
  · have hread : coin.readQueries count bits = .error (.queryWidth bits) := if_pos hbits
    refine ⟨0, ?_⟩
    rw [perform, hread]
    exact ⟨rfl, fun _ => .tooWide hbits⟩
  have hbits' : bits ≤ 64 := Nat.le_of_not_lt hbits
  by_cases hmany : 2 ^ bits < count
  · have hread : coin.readQueries count bits = .error (.tooManyQueries count bits) :=
      (if_neg hbits).trans (if_pos hmany)
    refine ⟨0, ?_⟩
    rw [perform, hread]
    exact ⟨rfl, fun _ => .tooMany hbits' hmany⟩
  have hcount : count ≤ 2 ^ bits := Nat.le_of_not_lt hmany
  obtain ⟨n, hread, hfew, henough⟩ := coin.readQueries_eq_skip hbits' hcount
  refine ⟨n, ?_⟩
  rw [perform, hread]
  refine ⟨rfl, fun hn => .readQueries hbits' hcount (pairwise_pick List.Pairwise.nil) ?_ (henough hn) ?_⟩
  · intro i
    simp [mem_pick, query_eq]
  · intro front hfront hne
    obtain ⟨hahead, hle⟩ := eq_ahead_of_prefix hfront
    have hlt : front.length < n := by
      refine Nat.lt_of_le_of_ne hle fun heq => hne ?_
      rw [hahead, heq]
    have hcard := hfew front.length hlt
    rwa [← hahead, length_pick, funext (query_eq bits)] at hcard

/-- A read moves on along the tape and answers from what it takes, unless it takes too much to end. -/
theorem perform_read {call : Call} (coin : Coin) (h : call.written? = none) :
    ∃ n, (coin.perform call).2 = coin.skip n ∧
      (n < 2 ^ 64 → Answers call (coin.ahead n) (coin.perform call).1) := by
  cases call with
  | write data | writeDigest d | writeFelts as => cases h
  | readDigest => exact ⟨1, rfl, fun _ => .readDigest coin.block⟩
  | readFelt =>
      obtain ⟨x, n, hread, hdraws⟩ := coin.readFelt_eq_skip
      refine ⟨n, ?_⟩
      rw [perform, hread]
      exact ⟨rfl, fun hn => .readFelt (hdraws hn)⟩
  | readFelts count =>
      obtain ⟨draws, n, hread, rfl, hdraws⟩ := readFelts_eq_skip count coin
      refine ⟨n, ?_⟩
      rw [perform, hread]
      refine ⟨rfl, fun hn => ?_⟩
      obtain ⟨hblocks, heach⟩ := hdraws hn
      rw [← hblocks]
      exact .readFelts heach
  | readQuery bits =>
      refine ⟨1, rfl, fun _ => ?_⟩
      show Answers _ [coin.block] (.query (query bits coin.block))
      rw [query_eq]
      exact .readQuery bits coin.block
  | readQueries count bits => exact answers_readQueries count bits coin

theorem perform_of_refused {coin : Coin} {count bits : Nat} {e : CoinError}
    (h : (coin.perform (.readQueries count bits)).1 = .refused e) :
    (coin.perform (.readQueries count bits)).2 = coin := by
  cases hread : coin.readQueries count bits with
  | error e' => simp only [perform, hread]
  | ok drawn =>
      simp only [perform, hread] at h
      cases h

/-! ## The digest of a run -/

def absorb (d : Digest) (data : Bytes) : Digest := keccak (d.bytes ++ data)

theorem digest_after (coin : Coin) (calls : List Call) :
    (coin.after calls).digest = (calls.filterMap Call.written?).foldl absorb coin.digest := by
  induction calls generalizing coin with
  | nil => rfl
  | cons call calls ih =>
      rw [after, List.foldl_cons, ← after, ih]
      cases hwritten : call.written? with
      | none =>
          obtain ⟨n, hskip, -⟩ := coin.perform_read hwritten
          rw [hskip, List.filterMap_cons_none hwritten, skip]
      | some data =>
          rw [(coin.perform_write hwritten).1, List.filterMap_cons_some hwritten, List.foldl_cons]
          rfl

/-- Reads can be left out of a run without any effect on its digest. -/
theorem digest_after_filter (coin : Coin) (calls : List Call) :
    (coin.after (calls.filter (·.written?.isSome))).digest = (coin.after calls).digest := by
  have hwrites : (calls.filter (·.written?.isSome)).filterMap Call.written? =
      calls.filterMap Call.written? := by
    rw [List.filterMap_filter]
    refine List.filterMap_congr fun call _ => ?_
    cases call.written? <;> rfl
  rw [digest_after, digest_after, hwrites]

/-! ## The blocks of a run -/

/-- A call of a run with the blocks it took and its reply. -/
structure Step where
  call : Call
  taken : List Digest
  reply : Reply

/-- The steps of a run from its last write on. -/
def sinceWrite (steps : List Step) : List Step := steps.rtakeWhile (·.call.written?.isNone)

/-- The blocks are the first of the tape behind the digest, as many as the counter says. -/
def HasTaken (coin : Coin) (blocks : List Digest) : Prop :=
  coin.counter = blocks.length ∧ blocks = (List.range coin.counter).map (blockAt coin.digest)

theorem hasTaken_nil (d : Digest) : HasTaken ⟨d, 0⟩ [] := ⟨rfl, rfl⟩

theorem HasTaken.skip {coin : Coin} {blocks : List Digest} (h : coin.HasTaken blocks) (n : Nat) :
    (coin.skip n).HasTaken (blocks ++ coin.ahead n) := by
  obtain ⟨hcounter, hblocks⟩ := h
  constructor
  · rw [List.length_append, ← hcounter, length_ahead, Coin.skip]
  · have htape (m : Nat) : (List.range m).map (blockAt coin.digest) = (⟨coin.digest, 0⟩ : Coin).ahead m := by
      rw [ahead, List.range_eq_range']
    have hskip : (⟨coin.digest, 0⟩ : Coin).skip coin.counter = coin := by
      rw [Coin.skip, Nat.zero_add]
    rw [Coin.skip, htape, ahead_add, hskip, ← htape, ← hblocks]

/-- One more call takes what follows on the tape, or begins a new one. -/
theorem exists_step {coin : Coin} {steps : List Step} (call : Call)
    (h : coin.HasTaken ((sinceWrite steps).flatMap (·.taken)))
    (hshort : (coin.perform call).2.counter < 2 ^ 64) :
    ∃ taken, Answers call taken (coin.perform call).1 ∧ (coin.perform call).2.HasTaken
      ((sinceWrite (steps ++ [⟨call, taken, (coin.perform call).1⟩])).flatMap (·.taken)) := by
  cases hwritten : call.written? with
  | some data =>
      obtain ⟨hperform, hanswer⟩ := coin.perform_write hwritten
      refine ⟨[], ?_, ?_⟩
      · rw [hperform]
        exact hanswer
      · rw [sinceWrite, List.rtakeWhile_concat_neg _ _ _ (by simp [hwritten]), hperform]
        exact hasTaken_nil _
  | none =>
      obtain ⟨n, hskip, hanswer⟩ := coin.perform_read hwritten
      rw [hskip] at hshort
      refine ⟨coin.ahead n, hanswer (Nat.lt_of_le_of_lt (Nat.le_add_left n coin.counter) hshort), ?_⟩
      rw [sinceWrite, List.rtakeWhile_concat_pos _ _ _ (by simp [hwritten]), ← sinceWrite,
        List.flatMap_append, List.flatMap_singleton, hskip]
      exact h.skip n

/-- The tape is shared out among the calls of a run. -/
theorem exists_steps (seed : Bytes) (calls : List Call)
    (hshort : ∀ front, front <+: calls → ((ofSeed seed).after front).counter < 2 ^ 64) :
    ∃ steps : List Step, steps.map (·.call) = calls ∧ steps.map (·.reply) = (ofSeed seed).replies calls ∧
      (∀ s ∈ steps, Answers s.call s.taken s.reply) ∧
      ∀ front, front <+: steps → ((ofSeed seed).after (front.map (·.call))).HasTaken
        ((sinceWrite front).flatMap (·.taken)) := by
  induction calls using List.reverseRecOn with
  | nil =>
      refine ⟨[], rfl, rfl, fun s hs => absurd hs List.not_mem_nil, ?_⟩
      intro front hfront
      rw [List.prefix_nil.mp hfront]
      exact hasTaken_nil _
  | append_singleton calls call ih =>
      obtain ⟨steps, hcalls, hreplies, hanswers, htaken⟩ :=
        ih fun front hfront => hshort front (hfront.trans (List.prefix_append _ _))
      have hcoin := htaken steps (List.prefix_refl _)
      rw [hcalls] at hcoin
      have hlast := hshort (calls ++ [call]) (List.prefix_refl _)
      rw [after_concat] at hlast
      obtain ⟨taken, hanswer, htape⟩ := exists_step call hcoin hlast
      refine ⟨steps ++ [⟨call, taken, (((ofSeed seed).after calls).perform call).1⟩], ?_, ?_, ?_, ?_⟩
      · rw [List.map_append, hcalls, List.map_singleton]
      · rw [List.map_append, hreplies, List.map_singleton, replies_concat]
      · intro s hs
        rcases List.mem_append.mp hs with hs | hs
        · exact hanswers s hs
        · rw [List.mem_singleton.mp hs]
          exact hanswer
      · intro front hfront
        rcases List.prefix_concat_iff.mp hfront with rfl | hfront
        · rw [List.map_append, hcalls, List.map_singleton, after_concat]
          exact htape
        · exact htaken front hfront

/-- The digest of a run is that of its writes. Between two writes each block of the tape is taken by one
call, in order; the counter says how many have been taken, and the blocks that a call takes determine its
reply. A refused call for queries changes nothing. -/
theorem transcript_law (seed : Bytes) (calls : List Call)
    (hshort : ∀ front, front <+: calls → ((ofSeed seed).after front).counter < 2 ^ 64) :
    ((ofSeed seed).after calls).digest = (calls.filterMap Call.written?).foldl absorb (keccak seed) ∧
    ((ofSeed seed).after (calls.filter (·.written?.isSome))).digest =
      ((ofSeed seed).after calls).digest ∧
    (∃ steps : List Step, steps.map (·.call) = calls ∧
      steps.map (·.reply) = (ofSeed seed).replies calls ∧
      (∀ s ∈ steps, ∀ reply, Answers s.call s.taken reply ↔ reply = s.reply) ∧
      ∀ front, front <+: steps → ((ofSeed seed).after (front.map (·.call))).HasTaken
        ((sinceWrite front).flatMap (·.taken))) ∧
    ∀ front count bits e, front ++ [.readQueries count bits] <+: calls →
      (((ofSeed seed).after front).perform (.readQueries count bits)).1 = .refused e →
      (ofSeed seed).after (front ++ [.readQueries count bits]) = (ofSeed seed).after front := by
  refine ⟨digest_after _ calls, digest_after_filter _ calls, ?_, ?_⟩
  · obtain ⟨steps, hcalls, hreplies, hanswers, htaken⟩ := exists_steps seed calls hshort
    refine ⟨steps, hcalls, hreplies, fun s hs reply => ⟨(hanswers s hs).unique, ?_⟩, htaken⟩
    intro h
    rw [h]
    exact hanswers s hs
  · intro front count bits e _ hrefused
    rw [after_concat]
    exact perform_of_refused hrefused

/-- Draws that refuse blocks and turn up one index several times, and two refused calls. -/
def repeatingCalls : List Call :=
  [.readFelt, .readQueries 1 65, .writeDigest (keccak []), .readQueries 3 2, .readQueries 5 2, .readDigest]

theorem transcript_law_of_repeats :
    (∀ front, front <+: repeatingCalls → ((ofSeed [7]).after front).counter < 2 ^ 64) ∧
    ((ofSeed [7]).after repeatingCalls).digest = absorb (keccak [7]) (keccak []).bytes ∧
    ∃ steps : List Step, steps.map (·.call) = repeatingCalls ∧
      steps.map (·.reply) = (ofSeed [7]).replies repeatingCalls ∧
      (∀ s ∈ steps, Answers s.call s.taken s.reply) ∧ ((sinceWrite steps).flatMap (·.taken)).length = 5 := by
  have hcounters : (repeatingCalls.inits.map fun front => ((ofSeed [7]).after front).counter) =
      [0, 2, 2, 0, 4, 4, 5] := by decide +kernel
  have hshort (front : List Call) (h : front <+: repeatingCalls) :
      ((ofSeed [7]).after front).counter < 2 ^ 64 := by
    have hmem := List.mem_map_of_mem (f := fun front => ((ofSeed [7]).after front).counter)
      ((List.mem_inits _ _).mpr h)
    rw [hcounters] at hmem
    have hall : ∀ c ∈ [0, 2, 2, 0, 4, 4, 5], c < 2 ^ 64 := by decide
    exact hall _ hmem
  obtain ⟨hdigest, -, ⟨steps, hcalls, hreplies, hanswers, htaken⟩, -⟩ :=
    transcript_law [7] repeatingCalls hshort
  refine ⟨hshort, hdigest, steps, hcalls, hreplies, fun s hs => (hanswers s hs _).mpr rfl, ?_⟩
  have hlast := congrArg List.getLast? hcounters
  rw [List.getLast?_map] at hlast
  have hcounter : ((ofSeed [7]).after repeatingCalls).counter = 5 := Option.some.inj hlast
  rw [← (htaken steps (List.prefix_refl _)).1, hcalls, hcounter]

end StarkVerifier.Coin
