import StarkVerifier.ProofFile.Basic
import StarkVerifier.Verifier.Basic
/-! The command line: checks proofs, shows what they hold, and converts their files. -/

namespace StarkVerifier

inductive Command where
  | version
  | help
  | verify (proof : String) (config : Option String)
  | inspect (proof : String) (config : Option String)
  | convert (input output : String)
deriving DecidableEq

/-- What a program leaves behind. -/
structure Outcome where
  exitCode : UInt8
  output : String
  errors : String
deriving DecidableEq

namespace CommandLine

/-! ## Arguments -/

/-- Anything that starts with a dash, a lone dash apart, is no value of its own. -/
def isFlag (argument : String) : Bool :=
  match argument.toList with
  | '-' :: _ :: _ => true
  | _ => false

/-- What the arguments of a subcommand ask for. -/
inductive Request where
  | help
  | options (given : List (String × String))
deriving DecidableEq

/-- Options with their values, each at most once and as `accepts` allows; a value follows its option or
an equals sign. Arguments are taken in order: a request for help is granted unless a fault precedes it. -/
def request? (accepts : String → String → Bool) (given : List (String × String)) :
    List String → Option Request
  | [] => some (.options given)
  | ["--"] => some (.options given)
  | argument :: rest =>
    let add (name : List Char) (value : String) : Option (List (String × String)) :=
      let name := String.ofList name
      if accepts name value ∧ (given.lookup name).isNone then some ((name, value) :: given) else none
    match argument.toList with
    | '-' :: 'h' :: _ => some .help
    | '-' :: '-' :: option =>
      if option = "help".toList then some .help
      else match option.span (· ≠ '=') with
        | (name, '=' :: value) => do request? accepts (← add name (String.ofList value)) rest
        | (name, _) =>
          match rest with
          | value :: rest =>
            if isFlag value then none else do request? accepts (← add name value) rest
          | [] => none
    | _ => none

/-- Options of the commands that run a program on a proof; there is one program. -/
def acceptsForProof : String → String → Bool
  | "proof", file | "config", file => file ≠ ""
  | "program", name => name = "fibonacci"
  | _, _ => false

def acceptsForFiles : String → String → Bool
  | "input", file | "output", file => file ≠ ""
  | _, _ => false

/-- The command of a subcommand's arguments; `command?` finds what it needs among the options. -/
def subcommand? (accepts : String → String → Bool)
    (command? : List (String × String) → Option Command) (arguments : List String) :
    Option Command := do
  match ← request? accepts [] arguments with
  | .help => return .help
  | .options given => command? given

def command? : List String → Option Command
  | [] => none
  | "--version" :: _ => some .version
  | "--help" :: _ => some .help
  | "verify" :: rest =>
    subcommand? acceptsForProof (fun given => do
      return .verify (← given.lookup "proof") (given.lookup "config")) rest
  | "inspect" :: rest =>
    subcommand? acceptsForProof (fun given => do
      return .inspect (← given.lookup "proof") (given.lookup "config")) rest
  | "convert" :: rest =>
    subcommand? acceptsForFiles (fun given => do
      return .convert (← given.lookup "input") (← given.lookup "output")) rest
  | argument :: _ =>
    match argument.toList with
    | '-' :: 'V' :: _ => some .version
    | '-' :: 'h' :: _ => some .help
    | _ => none

/-! ## Outcomes -/

def success (output : String) : Outcome := ⟨0, output, ""⟩

/-- What failed on the first line, and why on the others. -/
def failed (message : String) (cause : Option String) : Outcome where
  exitCode := 1
  output := ""
  errors := s!"Error: {message}\n" ++ (cause.elim "" fun c => s!"\nCaused by:\n    {c}\n")

def usage : String :=
  "usage: stv verify|inspect --proof PATH [--program fibonacci] [--config PATH]\n" ++
  "       stv convert --input PATH --output PATH\n"

def wrongUsage : Outcome := ⟨2, "", usage⟩

/-- The program does not live to say more. The code is what a shell makes of it. -/
def aborted : Outcome := ⟨134, "", "capacity overflow\n"⟩

/-- What is known of a proof, with the parameters its claim asks for or the reason there are none. -/
def report (path : String) (p : Proof) (config : FibonacciConfig) : Json :=
  let outcome := match Fibonacci.start config p.publicInputs with
    | .ok (parameters, _) => ("params", parameters.toJson)
    | .error e => ("params_error", .ofString e.message)
  .ofFields (("path", .ofString path) :: p.summary.toFields ++ [outcome])

def judge (path : String) (p : Proof) (config : FibonacciConfig) : Outcome :=
  match Verifier.execute (Fibonacci.program config) p with
  | .overflowed => aborted
  | .answered (.ok .accepted) => success s!"OK: {path} accepted\n"
  | .answered (.ok (.rejected reason)) => failed s!"{path} rejected: {reason.message}" none
  | .answered (.error e) => failed s!"malformed proof {path}" (some e.message)

variable {m : Type → Type} [Monad m] [FileSystem m]

/-- The config is read before the proof. -/
def withProof (path : String) (config : Option String) (answer : Proof → FibonacciConfig → Outcome) :
    m Outcome := do
  let config ← match config with
    | none => pure (.ok {})
    | some file => do
      let read ← ProofFile.readConfig file
      pure (read.mapError fun e => failed s!"loading Fibonacci config {file}" (some e.message))
  match config with
  | .error outcome => return outcome
  | .ok config =>
    match ← ProofFile.read path with
    | .error e => return failed s!"reading proof {path}" (some e.message)
    | .ok p => return answer p config

def convert (input output : String) : m Outcome := do
  match ← ProofFile.read input with
  | .error e => return failed s!"reading proof {input}" (some e.message)
  | .ok p =>
    match ← ProofFile.write output p with
    | .error e => return failed s!"writing proof {output}" (some e.message)
    | .ok () => return success s!"Converted {input} → {output}\n"

def perform : Command → m Outcome
  | .version => return success "stv 0.1.0\n"
  | .help => return success usage
  | .verify path config => withProof path config (judge path)
  | .inspect path config => withProof path config fun p config =>
    success (String.ofList (Json.print 0 (report path p config)) ++ "\n")
  | .convert input output => convert input output

def run (arguments : List String) : m Outcome :=
  match command? arguments with
  | some command => perform command
  | none => return wrongUsage

end CommandLine
end StarkVerifier
