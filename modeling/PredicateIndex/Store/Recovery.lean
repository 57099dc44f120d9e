import PredicateIndex.Store

/-!
# Recovery of a store

A store is recovered from a log checkpoint and, if there is one, an index
checkpoint that is not newer. The heads of the index checkpoint are brought up
to date by replaying the records between its log tail and the log checkpoint's.
-/

set_option autoImplicit false

namespace PredicateIndex.Store

structure RecoverySource where
  token : Token
  log : LogCheckpoint
  heads : List (Bytes × UInt64)
  /-- The address from which records are replayed. -/
  replayFrom : Nat

def chooseLog (store : Store) (log : Option Token) (disk : Disk) : Except Fault Token :=
  match log with
  | some token => .ok token
  | none => do
    match ← CheckpointDir.latestLog store.dir disk with
    | some token => return token
    | none => throw (.noLogCheckpoint store.dir)

def chooseIndex (store : Store) (index : Option Token) (bound : Token) (disk : Disk) :
    Except Fault (Option Token) :=
  match index with
  | some token => .ok (some token)
  | none => CheckpointDir.latestIndexBefore store.dir bound disk

/-- Reads the checkpoints that the tokens name; `none` chooses the newest that fits. -/
def recoverySource (store : Store) (index log : Option Token) (disk : Disk) :
    Except Fault RecoverySource := do
  let token ← store.chooseLog log disk
  let logPart ← CheckpointDir.readLog store.dir token disk
  match ← store.chooseIndex index token disk with
  | none => return ⟨token, logPart, [], logPart.start.toNat⟩
  | some indexToken =>
    let indexPart ← CheckpointDir.readIndex store.dir indexToken disk
    if logPart.tail < indexPart.logTail then
      throw (.indexPastLog indexToken indexPart.logTail token logPart.tail)
    return ⟨token, logPart, indexPart.heads, indexPart.logTail.toNat⟩

def replay (records : List (Nat × LogRecord)) (heads : ChainHeads) : ChainHeads :=
  records.foldl (fun heads entry => relink (UInt64.ofNat entry.1) entry.2.key heads) heads

def replayFrom (store : Store) (source : RecoverySource) (disk : Disk) :
    Except Fault Token × Store :=
  match store.log.scan source.replayFrom source.log.tail.toNat disk with
  | .error fault => (.error fault, store)
  | .ok records =>
    (.ok source.token,
      { store with
        heads := replay records store.heads
        sessions := store.sessions.restore source.log.commitPoints
        lastCheckpoint := some source.token
        awaitingRecovery := false })

def recover (store : Store) (index log : Option Token) (disk : Disk) :
    Except Fault Token × Store × Disk :=
  if !store.log.isEmpty then (.error .storeNotEmpty, store, disk)
  else
    match store.recoverySource index log disk with
    | .error fault => (.error fault, store, disk)
    | .ok source =>
      match store.log.restore source.log.start.toNat source.log.tail.toNat disk with
      | .error fault => (.error fault, store, disk)
      | .ok (restored, disk) =>
        let (result, store) :=
          replayFrom { store with log := restored, heads := .restore source.heads } source disk
        (result, store, disk)

end PredicateIndex.Store
