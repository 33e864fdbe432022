import StarkVerifier.Bytes
/-! The part of a file system that the program uses: paths, files, and a store of files in memory. -/

namespace StarkVerifier

inductive ReadOutcome where
  | missing
  /-- It can be opened but not read, such as a directory. -/
  | unreadable
  | content (bytes : Bytes)
deriving DecidableEq

inductive WriteOutcome where
  | noParent
  | notCreated
  /-- Created, but not all could be written to it. -/
  | unfinished
  /-- Created, but the end was lost as the file was closed, where no one is told. -/
  | cutOff
  | written
deriving DecidableEq

class FileSystem (m : Type → Type) where
  read : String → m ReadOutcome
  /-- Makes the directories on the way, and replaces a file that is there. -/
  write : String → Bytes → m WriteOutcome

/-! ## Paths -/

namespace Path

/-- Names between the slashes, the empty ones too. -/
def segments (path : String) : List String :=
  (path.toList.splitOnP (· = '/')).map String.ofList

/-- A segment that leads nowhere. -/
def isIdle (segment : String) : Bool := segment = "" || segment = "."

/-- Names that lead somewhere. -/
def components (path : String) : List String := (segments path).filter (!isIdle ·)

/-- The path without its last component and the idle segments around it; empty if nothing stands
before them. -/
def parent (path : String) : String :=
  let backwards := (segments path).reverse
  "/".intercalate (((backwards.dropWhile isIdle).drop 1).dropWhile isIdle).reverse

/-- The last component, unless it leads upwards. -/
def fileName? (path : String) : Option String :=
  match (components path).getLast? with
  | some ".." => none
  | name => name

/-- What follows the last dot of the file name, in lower case as far as ASCII goes. A dot in front
counts only if there is another. -/
def extension? (path : String) : Option String := do
  let name := (← fileName? path).toList.reverse
  match name.span (· ≠ '.') with
  | (extension, '.' :: stem) =>
    if stem.isEmpty then none else some (String.ofList (extension.reverse.map Char.toLower))
  | _ => none

end Path

/-! ## A store in memory -/

inductive FileStore.Entry where
  | directory
  | file (content : Bytes)
deriving DecidableEq

/-- Entries by the names that lead to them from the root, and the directory that paths start from. -/
structure FileStore where
  current : List String
  entries : List (List String × FileStore.Entry)
deriving DecidableEq

namespace FileStore

/-- Only the root and the directories on the way to `current`. -/
def empty (current : List String) : FileStore :=
  ⟨current, (List.range (current.length + 1)).map fun n => (current.take n, .directory)⟩

def entry? (s : FileStore) (place : List String) : Option Entry := s.entries.lookup place

def put (s : FileStore) (place : List String) (e : Entry) : FileStore :=
  { s with entries := (place, e) :: s.entries.filter (·.1 ≠ place) }

/-- Where the path starts. -/
def origin (s : FileStore) (path : String) : List String :=
  if path.toList.head? = some '/' then [] else s.current

/-- The place that the segments lead to, all but the last through directories. -/
def walk? (s : FileStore) (place : List String) : List String → Option (List String)
  | [] => some place
  | name :: rest =>
    if s.entry? place ≠ some .directory then none
    else if name = "" ∨ name = "." then walk? s place rest
    else if name = ".." then walk? s place.dropLast rest
    else if (s.entry? (place ++ [name])).isSome then walk? s (place ++ [name]) rest
    else none

/-- Paths that a file system follows. -/
def isPath (path : String) : Bool := path.utf8ByteSize ≤ 4095 && !path.contains '\x00'

def read (s : FileStore) (path : String) : ReadOutcome :=
  if path = "" ∨ !isPath path then .missing
  else match (s.walk? (s.origin path) (Path.segments path)).bind s.entry? with
    | none => .missing
    | some .directory => .unreadable
    | some (.file content) => .content content

/-- Names that a file system can hold, in a path that it follows. -/
def isName (name : String) : Bool := name.utf8ByteSize ≤ 255

/-- Makes the directories that are missing on the way, and tells whether it came to the end. Those made
before a file or a name too long stay. -/
def makeDirectories (s : FileStore) (place : List String) : List String → Bool × FileStore
  | [] => (true, s)
  | name :: rest =>
    if name = ".." then makeDirectories s place.dropLast rest
    else
      let next := place ++ [name]
      match s.entry? next with
      | some .directory => makeDirectories s next rest
      | some (.file _) => (false, s)
      | none =>
        if isName name then makeDirectories (s.put next .directory) next rest else (false, s)

/-- Creates or replaces a file in a directory that is there. -/
def create? (s : FileStore) (path : String) (content : Bytes) : Option FileStore := do
  let segments := Path.segments path
  let name ← segments.getLast?
  let directory ← s.walk? (s.origin path) segments.dropLast
  let place := directory ++ [name]
  if !isPath path ∨ name ∈ ["", ".", ".."] ∨ !isName name ∨
      s.entry? directory ≠ some .directory ∨ s.entry? place = some .directory then none
  else some (s.put place (.file content))

def write (s : FileStore) (path : String) (content : Bytes) : WriteOutcome × FileStore :=
  let parent := Path.parent path
  if !isPath parent then (.noParent, s)
  else match s.makeDirectories (s.origin path) (Path.components parent) with
    | (false, s) => (.noParent, s)
    | (true, s) =>
      match s.create? path content with
      | none => (.notCreated, s)
      | some s => (.written, s)

end FileStore

instance : FileSystem (StateM FileStore) where
  read path := fun s => (s.read path, s)
  write path content := fun s => s.write path content

end StarkVerifier
