import PredicateIndex.Bytes
import PredicateIndex.Fault

/-!
# The disk

A disk has files, which are byte strings with an identity, and entries, which
give places to files and directories. A place is the list of names that leads to
it from the root; a path is walked component by component to a place. A handle
keeps the identity of its file, so it still reads and writes the file after the
entry is gone. Entries stand newest first, and a renamed entry is new;
directories list theirs in this order.
-/

set_option autoImplicit false

namespace PredicateIndex

abbrev FileId := Nat

inductive Entry where
  | file (id : FileId)
  | directory
  deriving DecidableEq, Repr

structure Disk where
  entries : List (Path × Entry) := []
  /-- The contents of all files there ever were, by identity. -/
  files : List Bytes := []
  /-- The files that a live lock handle holds. -/
  locked : List FileId := []
  /-- The id of the process that uses the disk. -/
  process : Nat := 1
  deriving DecidableEq, Repr

namespace Disk

def entry? (disk : Disk) (place : Path) : Option Entry :=
  if place = [] then some .directory else disk.entries.lookup place

def step (disk : Disk) (place : Path) (component : String) : Except Fault.File Path :=
  match disk.entry? place with
  | none => .error .notFound
  | some (.file _) => .error .notDirectory
  | some .directory =>
    .ok (if !Path.isName component then place
      else if component = ".." then place.dropLast
      else place ++ [component])

/-- The place that a path leads to; only at its end nothing need be there. -/
def resolve (disk : Disk) (path : Path) : Except Fault.File Path := path.foldlM disk.step []

def locate (disk : Disk) (path : Path) : Except Fault.File (Path × Entry) := do
  let place ← disk.resolve path
  match disk.entry? place with
  | some entry => return (place, entry)
  | none => throw .notFound

def exists? (disk : Disk) (path : Path) : Bool := (disk.locate path).isOk

def isDirectory (disk : Disk) (path : Path) : Bool :=
  match disk.locate path with
  | .ok (_, .directory) => true
  | _ => false

def content (disk : Disk) (id : FileId) : Bytes := disk.files.getD id []

def setContent (disk : Disk) (id : FileId) (bytes : Bytes) : Disk :=
  { disk with files := disk.files.set id bytes }

def write (disk : Disk) (id : FileId) (offset : Nat) (bytes : Bytes) : Disk :=
  disk.setContent id ((disk.content id).overwrite offset bytes)

def setLength (disk : Disk) (id : FileId) (length : Nat) : Disk :=
  disk.setContent id ((disk.content id).resize length)

def find (disk : Disk) (path : Path) : Except Fault.File FileId := do
  match ← disk.locate path with
  | (_, .file id) => return id
  | (_, .directory) => throw .isDirectory

def read (disk : Disk) (path : Path) : Except Fault.File Bytes := do
  return disk.content (← disk.find path)

/-- No file has bytes at this offset or behind it. -/
def offsetLimit : Nat := 9223372036854775808

def readAt (disk : Disk) (path : Path) (offset count : Nat) : Except Fault.File Bytes := do
  let (_, entry) ← disk.locate path
  if offsetLimit ≤ offset + count then throw .invalidInput
  match entry with
  | .file id => return disk.content id
  | .directory => throw .isDirectory

def openFile (disk : Disk) (path : Path) : Except Fault.File (FileId × Disk) := do
  let place ← disk.resolve path.trimSlashes
  if path.endsInSlash then throw .isDirectory
  match disk.entry? place with
  | some (.file id) => return (id, disk)
  | some .directory => throw .isDirectory
  | none =>
    return (disk.files.length,
      { disk with
        entries := (place, .file disk.files.length) :: disk.entries
        files := disk.files ++ [[]] })

def makeDir (disk : Disk) (path : Path) : Except Fault.File Disk := do
  let place ← disk.resolve path.trimSlashes
  if (disk.entry? place).isSome then throw .alreadyExists
  return { disk with entries := (place, .directory) :: disk.entries }

def ensureDir (disk : Disk) (path : Path) : Except Fault.File Unit × Disk :=
  match disk.makeDir path with
  | .ok disk => (.ok (), disk)
  | .error cause => (if disk.isDirectory path then .ok () else .error cause, disk)

def createDirsUnder : List Path → Path → Disk → Except Fault.File Unit × Disk
  | [], path, disk => disk.ensureDir path
  | next :: above, path, disk =>
    match disk.ensureDir path with
    | (.error .notFound, disk) =>
      match createDirsUnder above next disk with
      | (.ok (), disk) => disk.ensureDir path
      | failure => failure
    | outcome => outcome

/-- Makes a directory and every directory above it; those made before a failure stay. -/
def createDirs (disk : Disk) (path : Path) : Except Fault.File Unit × Disk :=
  createDirsUnder path.above path disk

def rename (disk : Disk) (source target : Path) : Except Fault.File Disk := do
  let (origin, entry) ← disk.locate source
  let place ← disk.resolve target
  if disk.entry? place = some .directory then throw .isDirectory
  return { disk with
    entries := (place, entry) :: disk.entries.filter fun e => e.1 ≠ origin ∧ e.1 ≠ place }

def remove (disk : Disk) (path : Path) : Except Fault.File Disk := do
  let (place, _) ← disk.locate path
  return { disk with entries := disk.entries.filter fun e => !place.isPrefixOf e.1 }

def childName? : Path → Path → Option String
  | [], [name] => some name
  | a :: dir, b :: path => if a = b then childName? dir path else none
  | _, _ => none

def children (disk : Disk) (dir : Path) : List (String × Entry) :=
  disk.entries.filterMap fun e => (childName? dir e.1).map (·, e.2)

def treeTo (disk : Disk) : Nat → Path → List (Path × Entry)
  | 0, _ => []
  | depth + 1, dir =>
    (disk.children dir).flatMap fun (name, entry) =>
      ([name], entry) ::
        match entry with
        | .directory => (disk.treeTo depth (dir ++ [name])).map fun e => (name :: e.1, e.2)
        | .file _ => []

def tree (disk : Disk) (dir : Path) : Except Fault.File (List (Path × Entry)) := do
  match ← disk.locate dir with
  | (place, .directory) => return disk.treeTo (disk.entries.length + 1) place
  | (_, .file _) => throw .notDirectory

end Disk

end PredicateIndex
