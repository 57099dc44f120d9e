import PredicateIndex.Checkpoint.Format
import PredicateIndex.Disk

/-!
# Checkpoint directories

A store keeps the parts of each checkpoint in a directory named by its token. A
part is written beside its place and then renamed, so a file that is there is
complete. The newest checkpoint is found by reading all directory names as
tokens, while a part is read from the directory whose name its token writes.
-/

set_option autoImplicit false

namespace PredicateIndex

inductive CheckpointKind where
  | index
  | log
  | full
  deriving DecidableEq, Repr

def CheckpointKind.hasIndex : CheckpointKind → Bool
  | index | full => true
  | log => false

def CheckpointKind.hasLog : CheckpointKind → Bool
  | log | full => true
  | index => false

namespace CheckpointDir

def indexFile : String := "index.bin"

def logFile : String := "log.meta"

def root (dir : Path) : Path := dir.child "checkpoints"

def tokenDir (dir : Path) (token : Token) : Path := (root dir).child token.text

def write (dir : Path) (token : Token) (name : String) (payload : Bytes) (disk : Disk) :
    Except Fault Unit × Disk :=
  match disk.createDirs (tokenDir dir token) with
  | (.error cause, disk) => (.error (.file cause), disk)
  | (.ok (), disk) =>
    let draft := (tokenDir dir token).child s!"{name}.tmp"
    match disk.openFile draft with
    | .error cause => (.error (.file cause), disk)
    | .ok (file, disk) =>
      let disk := disk.setContent file (Frame.wrap payload)
      match disk.rename draft ((tokenDir dir token).child name) with
      | .error cause => (.error (.file cause), disk)
      | .ok disk => (.ok (), disk)

def writePart (dir : Path) (name : String) (part : Option (Token × Bytes)) (disk : Disk) :
    Except Fault Unit × Disk :=
  match part with
  | some (token, payload) => write dir token name payload disk
  | none => (.ok (), disk)

def writeIndex (dir : Path) (checkpoint : IndexCheckpoint) (disk : Disk) :
    Except Fault Unit × Disk :=
  write dir checkpoint.token indexFile (Payload.index checkpoint) disk

def writeLog (dir : Path) (checkpoint : LogCheckpoint) (disk : Disk) : Except Fault Unit × Disk :=
  write dir checkpoint.token logFile (Payload.log checkpoint) disk

def read {α : Type} (dir : Path) (token : Token) (name : String) (value : Reader α) (disk : Disk) :
    Except Fault α :=
  match disk.read ((tokenDir dir token).child name) with
  | .error .notFound => .error (.noCheckpointFile name token)
  | .error cause => .error (.file cause)
  | .ok bytes => Frame.decode value bytes

def readIndex (dir : Path) (token : Token) (disk : Disk) : Except Fault IndexCheckpoint :=
  read dir token indexFile Payload.readIndex disk

def readLog (dir : Path) (token : Token) (disk : Disk) : Except Fault LogCheckpoint :=
  read dir token logFile Payload.readLog disk

def tokensWith (dir : Path) (name : String) (disk : Disk) : Except Fault (List Token) :=
  match disk.locate (root dir) with
  | .error _ => .ok []
  | .ok (_, .file _) => .error (.file .notDirectory)
  | .ok (place, .directory) =>
    .ok ((disk.children place).filterMap fun (child, _) =>
      if disk.exists? (((root dir).child child).child name) then Token.ofDirName? child else none)

def latestIndex (dir : Path) (disk : Disk) : Except Fault (Option Token) := do
  return Token.newest? (← tokensWith dir indexFile disk)

def latestLog (dir : Path) (disk : Disk) : Except Fault (Option Token) := do
  return Token.newest? (← tokensWith dir logFile disk)

/-- The newest token with an index part that is not newer than `bound`. -/
def latestIndexBefore (dir : Path) (bound : Token) (disk : Disk) : Except Fault (Option Token) := do
  let tokens ← tokensWith dir indexFile disk
  return Token.newest? (tokens.filter fun token => token.value ≤ bound.value)

end CheckpointDir

end PredicateIndex
