import PredicateIndex.ChainHeads
import PredicateIndex.Checkpoint.Directory
import PredicateIndex.Config
import PredicateIndex.Disk.FileLock
import PredicateIndex.Log
import PredicateIndex.Session

/-!
# Stores

A store keeps one log record for every composite key written, and an index of
chain heads over the log. Writing a record links each of its keys to the head
of the key's chain and makes the record the new head. A directory that holds a
log checkpoint has to be recovered before its store takes writes.
-/

set_option autoImplicit false

namespace PredicateIndex

structure CapturedCheckpoint where
  token : Token
  index : Option IndexCheckpoint
  log : Option LogCheckpoint
  deriving DecidableEq, Repr

structure Store where
  dir : Path
  lock : FileLock
  log : Log
  heads : ChainHeads := []
  sessions : SessionPool
  captured : Option CapturedCheckpoint := none
  lastCheckpoint : Option Token := none
  /-- Whether the directory holds a checkpointed log that has not been recovered. -/
  awaitingRecovery : Bool
  logMemorySize : Nat
  deriving DecidableEq, Repr

inductive ReadStatus where
  | found (record : LogRecord)
  | notFound
  | pending (read : PendingRead)
  deriving DecidableEq, Repr

namespace Store

def lockFile : String := "psf.lock"

/-- The store behind a lock; a log that no checkpoint covers is discarded. -/
def openLocked (dir : Path) (config : Config) (lock : FileLock) (disk : Disk) :
    Except Fault Store × Disk :=
  match Log.open? dir disk with
  | (.error fault, disk) => (.error fault, disk)
  | (.ok log, disk) =>
    match CheckpointDir.latestLog dir disk with
    | .error fault => (.error fault, disk)
    | .ok latest =>
      let store (log : Log) : Store :=
        { dir, lock, log, sessions := .ofCapacity config.sessionPoolSize
          awaitingRecovery := latest.isSome, logMemorySize := config.logMemorySize }
      if latest.isNone ∧ Log.origin < (disk.content log.file).length then
        match log.restore Log.origin Log.origin disk with
        | .error fault => (.error fault, disk)
        | .ok (log, disk) => (.ok (store log), disk)
      else (.ok (store log), disk)

def open? (dir : Path) (config : Config) (disk : Disk) : Except Fault Store × Disk :=
  match disk.createDirs dir with
  | (.error cause, disk) => (.error (.file cause), disk)
  | (.ok (), disk) =>
    match FileLock.acquire (dir.child lockFile) disk with
    | (.error fault, disk) => (.error fault, disk)
    | (.ok lock, disk) =>
      match openLocked dir config lock disk with
      | (.error fault, disk) => (.error fault, lock.release disk)
      | (.ok store, disk) => (.ok store, disk)

def close (store : Store) (disk : Disk) : Disk := store.lock.release disk

def checkRecovered (store : Store) : Except Fault Unit :=
  if store.awaitingRecovery then .error (.awaitingRecovery store.dir) else .ok ()

def link (heads : ChainHeads) (key : CompositeKey) : CompositeKey :=
  key.map fun slot =>
    match slot.chain? with
    | some chain => { slot with previous := heads.head chain }
    | none => slot

def relink (address : UInt64) (key : CompositeKey) (heads : ChainHeads) : ChainHeads :=
  key.foldl (fun heads slot =>
    match slot.chain? with
    | some chain => heads.set chain address
    | none => heads) heads

def evictIfFull (store : Store) (disk : Disk) : Store × Disk :=
  if store.logMemorySize < store.log.buffer.length then
    let (log, disk) := store.log.evict disk
    ({ store with log }, disk)
  else (store, disk)

def write (store : Store) (key : CompositeKey) (id : RecordId) (tombstone : Bool) : Store :=
  let linked := link store.heads key
  { store with
    log := store.log.append (LogRecord.encode ⟨id, tombstone, linked⟩)
    heads := relink (UInt64.ofNat store.log.tail) linked store.heads }

def upsert (store : Store) (session : Session) (key : CompositeKey) (id : RecordId)
    (tombstone : Bool) (disk : Disk) : Except Fault (Nat × Session × Store × Disk) := do
  store.checkRecovered
  let (written, disk) := (store.write key id tombstone).evictIfFull disk
  return (store.log.tail, session.completeWrite, written, disk)

def read (store : Store) (session : Session) (address : Nat) :
    Except Fault (ReadStatus × Session) :=
  if address = 0 then .ok (.notFound, session)
  else do
    match ← store.log.resident address with
    | some bytes => return (.found (← LogRecord.decode bytes), session)
    | none => return (.pending (store.log.pendingRead address), session.recordPending)

def flush (store : Store) (disk : Disk) : Store × Disk :=
  let (log, disk) := store.log.flush disk
  ({ store with log }, disk)

def evict (store : Store) (disk : Disk) : Store × Disk :=
  let (log, disk) := store.log.evict disk
  ({ store with log }, disk)

def acquire (store : Store) : Session × Store :=
  let (session, sessions) := store.sessions.acquire
  (session, { store with sessions })

def release (session : Session) (store : Store) : Store :=
  { store with sessions := store.sessions.release session }

/-- Writes a record in a borrowed session, which goes back whatever happens. -/
def put (store : Store) (key : CompositeKey) (id : RecordId) (tombstone : Bool) (disk : Disk) :
    Except Fault Unit × Store × Disk :=
  let (session, store) := store.acquire
  match store.upsert session key id tombstone disk with
  | .error fault => (.error fault, store.release session, disk)
  | .ok (_, session, store, disk) => (.ok (), store.release session, disk)

end Store

end PredicateIndex
