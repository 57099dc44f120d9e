import PredicateIndex.Store

/-!
# Checkpoints of a store

Taking a checkpoint captures the parts it consists of; writes may go on before
it is completed, which puts the captured parts on disk. A log part comes after
the log has been flushed and after the index part, so whatever it leads to is
already there.
-/

set_option autoImplicit false

namespace PredicateIndex.Store

open CheckpointDir

def capture (store : Store) (kind : CheckpointKind) (token : Token) : CapturedCheckpoint where
  token := token
  index :=
    if kind.hasIndex then some ⟨token, UInt64.ofNat store.log.tail, store.heads⟩ else none
  log :=
    if kind.hasLog then
      some ⟨token, UInt64.ofNat store.log.start, UInt64.ofNat store.log.tail,
        store.sessions.commitPoints⟩
    else none

def take (store : Store) (kind : CheckpointKind) (token : Token) : Except Fault (Bool × Store) := do
  store.checkRecovered
  if store.captured.isSome then return (false, store)
  return (true, { store with captured := some (store.capture kind token) })

def abort (store : Store) (token : Token) : Store :=
  match store.captured with
  | some captured => if captured.token = token then { store with captured := none } else store
  | none => store

def checkpointInProgress (store : Store) : Bool := store.captured.isSome

def complete (store : Store) (disk : Disk) : Except Fault (Option Token) × Store × Disk :=
  match store.captured with
  | none => (.ok none, store, disk)
  | some captured =>
    let (store, disk) := if captured.log.isSome then store.flush disk else (store, disk)
    match writePart store.dir indexFile (captured.index.map IndexCheckpoint.part) disk with
    | (.error fault, disk) => (.error fault, store, disk)
    | (.ok (), disk) =>
      match writePart store.dir logFile (captured.log.map LogCheckpoint.part) disk with
      | (.error fault, disk) => (.error fault, store, disk)
      | (.ok (), disk) =>
        (.ok (some captured.token),
          { store with captured := none, lastCheckpoint := some captured.token }, disk)

end PredicateIndex.Store
