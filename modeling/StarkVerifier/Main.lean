import StarkVerifier.CommandLine
/-! The program: runs the command line on the files of the machine. -/

namespace StarkVerifier

def readFile (path : String) : IO ReadOutcome := do
  match ← (IO.FS.Handle.mk path .read).toBaseIO with
  | .error _ => return .missing
  | .ok handle =>
    match ← handle.readBinToEnd.toBaseIO with
    | .error _ => return .unreadable
    | .ok content => return .content content.toList

def makeParent (path : String) : IO Unit := do
  if Path.parent path ≠ "" then IO.FS.createDirAll (Path.parent path)

def writeFile (path : String) (content : Bytes) : IO WriteOutcome := do
  match ← (makeParent path).toBaseIO with
  | .error _ => return .noParent
  | .ok () =>
    match ← (IO.FS.Handle.mk path .write).toBaseIO with
    | .error _ => return .notCreated
    | .ok handle =>
      match ← (handle.write ⟨content.toArray⟩).toBaseIO with
      | .error _ => return .unfinished
      | .ok () =>
        match ← handle.flush.toBaseIO with
        | .error _ => return .cutOff
        | .ok () => return .written

instance : FileSystem IO := ⟨readFile, writeFile⟩

end StarkVerifier

def main (arguments : List String) : IO UInt32 := do
  let outcome : StarkVerifier.Outcome ← StarkVerifier.CommandLine.run arguments
  IO.print outcome.output
  IO.eprint outcome.errors
  return outcome.exitCode.toUInt32
