import StarkVerifier.Files
import StarkVerifier.ProofFile.Cbor
import StarkVerifier.ProofFile.Json
import StarkVerifier.ProofFile.Packed
/-! Proof files of three formats, told apart by the extension of their names. -/

namespace StarkVerifier

inductive ProofFormat where
  | json
  | cbor
  | packed
deriving DecidableEq

namespace ProofFormat

def ofPath? (path : String) : Option ProofFormat :=
  match Path.extension? path with
  | some "json" => some json
  | some "cbor" => some cbor
  | some "bin" | some "bincode" => some packed
  | _ => none

/-- How messages call the format. -/
def name : ProofFormat → String
  | json => "JSON"
  | cbor => "CBOR"
  | packed => "bincode"

def encode (p : Proof) : ProofFormat → Bytes
  | json => Utf8.encode (Json.print 0 p.toJson)
  | cbor => Cbor.proof p
  | packed => Packed.proof p

def decode? (file : Bytes) : ProofFormat → Option Proof
  | json => Json.parse? file >>= Proof.ofJson?
  | cbor => Cbor.proof? file
  | packed => Packed.proof? file

end ProofFormat

inductive FileError where
  | noExtension
  | unsupportedExtension (extension : String)
  | notOpened (path : String)
  | malformedProof (format : ProofFormat)
  | malformedConfig (path : String)
  | noParent (path : String)
  | notCreated (path : String)
  | notSerialized (format : ProofFormat)
deriving DecidableEq

namespace FileError

def message : FileError → String
  | noExtension => "path has no extension (expected .json, .cbor or .bin)"
  | unsupportedExtension extension =>
    s!"unsupported proof extension: {extension} (supported: .json, .cbor, .bin)"
  | notOpened path => s!"open {path}"
  | malformedProof format => s!"deserialize {format.name} proof"
  | malformedConfig path => s!"deserialize JSON {path}"
  | noParent path => s!"creating parent directory {path}"
  | notCreated path => s!"create {path}"
  | notSerialized format => s!"serialize {format.name} proof"

end FileError

namespace ProofFile

variable {m : Type → Type} [Monad m] [FileSystem m]

/-- The content of a file, if `decode?` understands it. -/
def readWith (decode? : Bytes → Option α) (malformed : FileError) (path : String) :
    m (Except FileError α) := do
  match ← FileSystem.read path with
  | .missing => return .error (.notOpened path)
  | .unreadable => return .error malformed
  | .content bytes => return (decode? bytes).elim (.error malformed) .ok

def readAs (format : ProofFormat) (path : String) : m (Except FileError Proof) :=
  readWith format.decode? (.malformedProof format) path

/-- Judges the extension before it looks for the file. -/
def read (path : String) : m (Except FileError Proof) :=
  match ProofFormat.ofPath? path with
  | some format => readAs format path
  | none =>
    match Path.extension? path with
    | some extension => return .error (.unsupportedExtension extension)
    | none => return .error .noExtension

/-- A file that is cut off as it is closed passes for written. -/
def writeAs (format : ProofFormat) (path : String) (p : Proof) : m (Except FileError Unit) := do
  match ← FileSystem.write path (format.encode p) with
  | .noParent => return .error (.noParent path)
  | .notCreated => return .error (.notCreated path)
  | .unfinished => return .error (.notSerialized format)
  | .cutOff | .written => return .ok ()

/-- JSON unless the extension says otherwise. -/
def write (path : String) (p : Proof) : m (Except FileError Unit) :=
  writeAs ((ProofFormat.ofPath? path).getD .json) path p

def readConfig (path : String) : m (Except FileError FibonacciConfig) :=
  readWith (fun bytes => Json.parse? bytes >>= FibonacciConfig.ofJson?) (.malformedConfig path) path

end ProofFile
end StarkVerifier
