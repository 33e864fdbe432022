import StarkVerifier.CommandLine
import StarkVerifier.Proofs.Files
import StarkVerifier.Proofs.ProofFile.Cbor
import StarkVerifier.Proofs.ProofFile.Json
import StarkVerifier.Proofs.ProofFile.Packed

/-!
# Proof files and their conversions

A proof file reads back as the proof it was written for, in each of the formats, so a chain of conversions
ends with a file of the proof it began with. Main statement: `ProofFile.conversions_round_trip`.
-/

namespace StarkVerifier

/-- A run of the program on the files of a store. -/
abbrev Session := StateM FileStore

/-- What is written in a format is read in it. -/
theorem ProofFormat.decode?_encode {p : Proof} (h : p.Countable) (format : ProofFormat) :
    format.decode? (format.encode p) = some p := by
  cases format with
  | json => exact p.ofJson?_print
  | cbor => exact Cbor.proof?_proof h
  | packed => exact Packed.proof?_proof h

theorem Session.bind_run {α β : Type} {x : Session α} {s s' : FileStore} {a : α} (h : x s = (a, s'))
    (f : α → Session β) : (x >>= f) s = f a s' := by
  change (match x s with | (a, s') => f a s') = f a s'
  rw [h]

namespace ProofFile

variable {p : Proof} {path : String} {format : ProofFormat} {s s' : FileStore}

/-! ## One file -/

theorem readAs_of_content {bytes : Bytes} (hread : s.read path = .content bytes)
    (hdecode : format.decode? bytes = some p) : (readAs format path : Session _) s = (.ok p, s) := by
  have hfile : (FileSystem.read path : Session _) s = (.content bytes, s) := congrArg (·, s) hread
  unfold readAs readWith
  rw [Session.bind_run hfile]
  simp only [hdecode, Option.elim_some]
  rfl

theorem read_eq_readAs (hformat : ProofFormat.ofPath? path = some format) :
    (read path : Session _) = readAs format path := by
  unfold read
  rw [hformat]

theorem writeAs_of_written (hwrite : s.write path (format.encode p) = (.written, s')) :
    (writeAs format path p : Session _) s = (.ok (), s') := by
  have hfile : (FileSystem.write path (format.encode p) : Session _) s = (.written, s') := hwrite
  unfold writeAs
  rw [Session.bind_run hfile]
  rfl

/-- A file that a store does not write is an error. -/
theorem writeAs_of_ne_written {outcome : WriteOutcome} (hne : outcome ≠ .written)
    (hwrite : s.write path (format.encode p) = (outcome, s')) :
    ∃ e, (writeAs format path p : Session _) s = (.error e, s') := by
  have hfile : (FileSystem.write path (format.encode p) : Session _) s = (outcome, s') := hwrite
  unfold writeAs
  rw [Session.bind_run hfile]
  cases outcome with
  | noParent => exact ⟨_, rfl⟩
  | notCreated => exact ⟨_, rfl⟩
  | unfinished => exact ⟨_, rfl⟩
  | cutOff =>
      have hwhole := s.write_whole path (format.encode p)
      rw [hwrite] at hwhole
      simp at hwhole
  | written => exact absurd rfl hne

theorem written_of_writeAs (hwrite : (writeAs format path p : Session _) s = (.ok (), s')) :
    s.write path (format.encode p) = (.written, s') := by
  rcases hfile : s.write path (format.encode p) with ⟨outcome, s''⟩
  by_cases houtcome : outcome = .written
  · subst houtcome
    have hok := writeAs_of_written hfile
    rw [hwrite] at hok
    rw [(Prod.mk.inj hok).2]
  · obtain ⟨e, herror⟩ := writeAs_of_ne_written houtcome hfile
    rw [hwrite] at herror
    nomatch (Prod.mk.inj herror).1

theorem readAs_of_writeAs (h : p.Countable)
    (hwrite : (writeAs format path p : Session _) s = (.ok (), s')) :
    (readAs format path : Session _) s' = (.ok p, s') :=
  readAs_of_content (FileStore.read_of_write (written_of_writeAs hwrite)) (format.decode?_encode h)

theorem write_eq_writeAs (hformat : ProofFormat.ofPath? path = some format) :
    (write path p : Session _) = writeAs format path p := by
  rw [write, hformat, Option.getD_some]

theorem write_of_written (hformat : ProofFormat.ofPath? path = some format)
    (hwrite : s.write path (format.encode p) = (.written, s')) :
    (write path p : Session _) s = (.ok (), s') := by
  rw [write_eq_writeAs hformat]
  exact writeAs_of_written hwrite

theorem read_of_write (h : p.Countable) (hformat : (ProofFormat.ofPath? path).isSome = true)
    (hwrite : (write path p : Session _) s = (.ok (), s')) :
    (read path : Session _) s' = (.ok p, s') := by
  obtain ⟨format, hformat⟩ := Option.isSome_iff_exists.mp hformat
  rw [write_eq_writeAs hformat] at hwrite
  rw [read_eq_readAs hformat]
  exact readAs_of_writeAs h hwrite

/-! ## Conversions -/

open CommandLine (perform judge)

variable {input output : String}

theorem convert_of_write (hread : (read input : Session _) s = (.ok p, s))
    (hwrite : (write output p : Session _) s = (.ok (), s')) :
    (perform (.convert input output) : Session _) s =
      (CommandLine.success s!"Converted {input} → {output}\n", s') := by
  change (CommandLine.convert input output : Session _) s = _
  unfold CommandLine.convert
  rw [Session.bind_run hread]
  change (write output p >>= _ : Session _) s = _
  rw [Session.bind_run hwrite]
  rfl

theorem convert_of_error {e : FileError} (hread : (read input : Session _) s = (.ok p, s))
    (hwrite : (write output p : Session _) s = (.error e, s')) :
    (perform (.convert input output) : Session _) s =
      (CommandLine.failed s!"writing proof {output}" (some e.message), s') := by
  change (CommandLine.convert input output : Session _) s = _
  unfold CommandLine.convert
  rw [Session.bind_run hread]
  change (write output p >>= _ : Session _) s = _
  rw [Session.bind_run hwrite]
  rfl

/-- A conversion that succeeds has written the proof that it has read. -/
theorem write_of_convert {o : Outcome} (hexit : o.exitCode = 0)
    (hread : (read input : Session _) s = (.ok p, s))
    (hrun : (perform (.convert input output) : Session _) s = (o, s')) :
    (write output p : Session _) s = (.ok (), s') := by
  rcases hwrite : (write output p : Session _) s with ⟨result, s''⟩
  cases result with
  | error e =>
      rw [convert_of_error hread hwrite] at hrun
      rw [← (Prod.mk.inj hrun).1] at hexit
      nomatch hexit
  | ok u =>
      rw [convert_of_write hread hwrite] at hrun
      rw [(Prod.mk.inj hrun).2]

/-- A conversion of a proof that can be read succeeds exactly if its file can be written. -/
theorem convert_exitCode_eq_zero_iff (hread : (read input : Session _) s = (.ok p, s))
    (hformat : ProofFormat.ofPath? output = some format) :
    ((perform (.convert input output) : Session _) s).1.exitCode = 0 ↔
      (s.write output (format.encode p)).1 = .written := by
  rcases hfile : s.write output (format.encode p) with ⟨outcome, s'⟩
  by_cases houtcome : outcome = .written
  · subst houtcome
    rw [convert_of_write hread (write_of_written hformat hfile)]
    exact ⟨fun _ => rfl, fun _ => rfl⟩
  · obtain ⟨e, hwrite⟩ := writeAs_of_ne_written houtcome hfile
    rw [← write_eq_writeAs hformat] at hwrite
    rw [convert_of_error hread hwrite]
    exact iff_of_false (fun hexit => by nomatch hexit) houtcome

/-- From a store and a file in it, conversions that succeed, each of the file before, lead to a store and
its last file; the names of the files say their formats. -/
inductive Converts : FileStore → String → FileStore → String → Prop
  | nil (s : FileStore) (file : String) : Converts s file s file
  | cons {s s' s'' : FileStore} {input output last : String} {o : Outcome}
      (hformat : (ProofFormat.ofPath? output).isSome = true)
      (hrun : (perform (.convert input output) : Session _) s = (o, s')) (hexit : o.exitCode = 0)
      (hrest : Converts s' output s'' last) : Converts s input s'' last

theorem Converts.read_last {first last : String} (hchain : Converts s first s' last) (h : p.Countable)
    (hread : (read first : Session _) s = (.ok p, s)) : (read last : Session _) s' = (.ok p, s') := by
  induction hchain with
  | nil => exact hread
  | cons hformat hrun hexit _ ih => exact ih (read_of_write h hformat (write_of_convert hexit hread hrun))

/-! ## Verdicts -/

/-- The config that a verdict goes by. -/
def configOf (s : FileStore) : Option String → Except FileError FibonacciConfig
  | none => .ok {}
  | some file => ((readConfig file : Session _) s).1

theorem readConfig_run (file : String) (s : FileStore) :
    (readConfig file : Session _) s = (configOf s (some file), s) := by
  have hfile : (FileSystem.read file : Session _) s = (s.read file, s) := rfl
  have hstore : ((readConfig file : Session _) s).2 = s := by
    unfold readConfig readWith
    rw [Session.bind_run hfile]
    cases s.read file with
    | missing => rfl
    | unreadable => rfl
    | content bytes => rfl
  exact congrArg (Prod.mk _) hstore

theorem verify_of_config {c : FibonacciConfig} {config : Option String}
    (hread : (read path : Session _) s = (.ok p, s)) (hconfig : configOf s config = .ok c) :
    (perform (.verify path config) : Session _) s = (judge path p c, s) := by
  change (CommandLine.withProof path config (judge path) : Session _) s = _
  unfold CommandLine.withProof
  cases config with
  | none =>
      obtain rfl : {} = c := Except.ok.inj hconfig
      simp only [pure_bind]
      rw [Session.bind_run hread]
      rfl
  | some file =>
      have hrun := readConfig_run file s
      rw [hconfig] at hrun
      change (readConfig file >>= _ : Session _) s = _
      rw [Session.bind_run hrun]
      simp only [pure_bind, Except.mapError]
      rw [Session.bind_run hread]
      rfl

theorem verify_of_config_error {e : FileError} {file : String}
    (hconfig : configOf s (some file) = .error e) (path : String) :
    (perform (.verify path (some file)) : Session _) s =
      (CommandLine.failed s!"loading Fibonacci config {file}" (some e.message), s) := by
  change (CommandLine.withProof path (some file) (judge path) : Session _) s = _
  unfold CommandLine.withProof
  have hrun := readConfig_run file s
  rw [hconfig] at hrun
  change (readConfig file >>= _ : Session _) s = _
  rw [Session.bind_run hrun]
  rfl

/-- The verdict does not depend on what the file is called. -/
theorem judge_exitCode (path other : String) (p : Proof) (c : FibonacciConfig) :
    (judge path p c).exitCode = (judge other p c).exitCode := by
  unfold judge
  cases Verifier.execute (Fibonacci.program c) p with
  | overflowed => rfl
  | answered answer =>
      cases answer with
      | error e => rfl
      | ok verdict =>
          cases verdict with
          | accepted => rfl
          | rejected reason => rfl

theorem verify_exitCode_eq {config : Option String} {other : String}
    (hread : (read path : Session _) s = (.ok p, s))
    (hother : (read other : Session _) s' = (.ok p, s'))
    (hconfig : configOf s' config = configOf s config) :
    ((perform (.verify other config) : Session _) s').1.exitCode =
      ((perform (.verify path config) : Session _) s).1.exitCode := by
  cases hc : configOf s config with
  | error e =>
      cases config with
      | none => nomatch hc
      | some file => rw [verify_of_config_error hc, verify_of_config_error (hconfig.trans hc)]
  | ok c =>
      rw [verify_of_config hread hc, verify_of_config hother (hconfig.trans hc)]
      exact judge_exitCode other path p c

/-- Whatever lists a proof holds, empty ones and rows of unlike lengths included, what is written for it
in a format is read in that format as the proof, from bytes and from files. A conversion of a file of it
fails only if the new file cannot be written, and after any number of conversions the last file is read as
the proof and gets the verdict that the first one gets under the same config. -/
theorem conversions_round_trip {p : Proof} (h : p.Countable) :
    (∀ format : ProofFormat, format.decode? (format.encode p) = some p) ∧
    (∀ (format : ProofFormat) (path : String) (s s' : FileStore),
      (writeAs format path p : Session _) s = (.ok (), s') →
        (readAs format path : Session _) s' = (.ok p, s')) ∧
    (∀ (input output : String) (format : ProofFormat) (s : FileStore),
      (read input : Session _) s = (.ok p, s) → ProofFormat.ofPath? output = some format →
        (((perform (.convert input output) : Session _) s).1.exitCode = 0 ↔
          (s.write output (format.encode p)).1 = .written)) ∧
    ∀ (first last : String) (s s' : FileStore), Converts s first s' last →
      (read first : Session _) s = (.ok p, s) →
        (read last : Session _) s' = (.ok p, s') ∧
        ∀ config, configOf s' config = configOf s config →
          ((perform (.verify last config) : Session _) s').1.exitCode =
            ((perform (.verify first config) : Session _) s).1.exitCode ∧
          ∀ c, configOf s config = .ok c →
            (perform (.verify first config) : Session _) s = (judge first p c, s) ∧
            (perform (.verify last config) : Session _) s' = (judge last p c, s') := by
  refine ⟨fun format => format.decode?_encode h, ?_, ?_, ?_⟩
  · intro format path s s' hwrite
    exact readAs_of_writeAs h hwrite
  · intro input output format s hread hformat
    exact convert_exitCode_eq_zero_iff hread hformat
  · intro first last s s' hchain hread
    have hlast := hchain.read_last h hread
    refine ⟨hlast, ?_⟩
    intro config hconfig
    refine ⟨verify_exitCode_eq hread hlast hconfig, ?_⟩
    intro c hc
    exact ⟨verify_of_config hread hc, verify_of_config hlast (hconfig.trans hc)⟩

/-- A proof with empty lists, rows of unlike lengths and the highest nonce. -/
def raggedProof : Proof where
  publicInputs := [1, 2, 255]
  traceRoot := .zero
  constraintRoot := .zero
  traceOods := [0, 1]
  constraintOods := []
  friLayers := [⟨.zero, [], [.zero]⟩]
  lastLayer := [1]
  powNonce := 0xffffffffffffffff
  traceRows := [[0, 1], [], [1]]
  traceDecommitment := []
  constraintRows := []
  constraintDecommitment := [.zero]

theorem raggedProof_countable : raggedProof.Countable := by
  have hlayer : FriLayer.Countable ⟨.zero, [], [.zero]⟩ := ⟨by simp, by simp⟩
  constructor <;> simp [raggedProof, hlayer]

/-- From JSON by way of CBOR to the packed form. -/
theorem conversions_round_trip_ragged : ∃ s s' : FileStore,
    Converts s "a.json" s' "c.bin" ∧ (read "a.json" : Session _) s = (.ok raggedProof, s) ∧
      (read "c.bin" : Session _) s' = (.ok raggedProof, s') ∧
      ((perform (.verify "c.bin" none) : Session _) s').1.exitCode =
        ((perform (.verify "a.json" none) : Session _) s).1.exitCode := by
  have h := raggedProof_countable
  obtain ⟨-, hfiles, -, hchain⟩ := conversions_round_trip h
  have ha : ProofFormat.ofPath? "a.json" = some .json := by decide +kernel
  have hb : ProofFormat.ofPath? "b.cbor" = some .cbor := by decide +kernel
  have hc : ProofFormat.ofPath? "c.bin" = some .packed := by decide +kernel
  have hnameA : FileStore.IsFileName "a.json" := by decide +kernel
  have hnameB : FileStore.IsFileName "b.cbor" := by decide +kernel
  have hnameC : FileStore.IsFileName "c.bin" := by decide +kernel
  -- the store after each of the three files is written
  obtain ⟨s, hs⟩ : ∃ s, s = (FileStore.empty []).put ["a.json"]
    (.file (ProofFormat.json.encode raggedProof)) := ⟨_, rfl⟩
  obtain ⟨s', hs'⟩ : ∃ s', s' = s.put ["b.cbor"] (.file (ProofFormat.cbor.encode raggedProof)) :=
    ⟨_, rfl⟩
  obtain ⟨s'', hs''⟩ : ∃ s'', s'' = s'.put ["c.bin"] (.file (ProofFormat.packed.encode raggedProof)) :=
    ⟨_, rfl⟩
  have hwriteA : (FileStore.empty []).write "a.json" (ProofFormat.json.encode raggedProof) =
      (.written, s) := by
    subst hs
    refine hnameA.write_eq rfl ?_ _
    intro hplace
    nomatch hplace
  have hwriteB : s.write "b.cbor" (ProofFormat.cbor.encode raggedProof) = (.written, s') := by
    subst hs hs'
    refine hnameB.write_eq rfl ?_ _
    intro hplace
    nomatch hplace
  have hwriteC : s'.write "c.bin" (ProofFormat.packed.encode raggedProof) = (.written, s'') := by
    subst hs hs' hs''
    refine hnameC.write_eq rfl ?_ _
    intro hplace
    nomatch hplace
  have hreadA : (read "a.json" : Session _) s = (.ok raggedProof, s) := by
    rw [read_eq_readAs ha]
    exact hfiles .json "a.json" _ s (writeAs_of_written hwriteA)
  have hreadB : (read "b.cbor" : Session _) s' = (.ok raggedProof, s') := by
    rw [read_eq_readAs hb]
    exact hfiles .cbor "b.cbor" s s' (writeAs_of_written hwriteB)
  have hsteps : Converts s "a.json" s'' "c.bin" :=
    .cons (hb ▸ rfl) (convert_of_write hreadA (write_of_written hb hwriteB)) rfl <|
      .cons (hc ▸ rfl) (convert_of_write hreadB (write_of_written hc hwriteC)) rfl (.nil s'' "c.bin")
  obtain ⟨hlast, hverdict⟩ := hchain "a.json" "c.bin" s s'' hsteps hreadA
  exact ⟨s, s'', hsteps, hreadA, hlast, (hverdict none rfl).1⟩

end ProofFile
end StarkVerifier
