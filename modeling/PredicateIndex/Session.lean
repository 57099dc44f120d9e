import PredicateIndex.Bytes

/-!
# Sessions

Every operation on a store runs in a session that counts the records it wrote
and the reads it had to complete from disk. Sessions are borrowed from a pool
and given back; the serial number at which a session came back is its commit
point. At most `capacity` sessions wait in the pool, the latest returned first.
A new pool reserves room for all of them, so there is a greatest capacity.
-/

set_option autoImplicit false

namespace PredicateIndex

structure Session where
  id : UInt64
  serial : UInt64
  pendingReads : UInt64 := 0
  deriving DecidableEq, Repr

namespace Session

def completeWrite (session : Session) : Session := { session with serial := session.serial + 1 }

def recordPending (session : Session) : Session :=
  { session with pendingReads := session.pendingReads + 1 }

end Session

abbrev CommitPoints := List (UInt64 × UInt64)

namespace CommitPoints

def record (id serial : UInt64) : CommitPoints → CommitPoints
  | [] => [(id, serial)]
  | point :: rest =>
    if id = point.1 then (id, serial) :: rest
    else if id < point.1 then (id, serial) :: point :: rest
    else point :: record id serial rest

def ofList (points : List (UInt64 × UInt64)) : CommitPoints :=
  points.foldl (fun known point => record point.1 point.2 known) []

end CommitPoints

structure SessionPool where
  capacity : Nat
  idle : List Session := []
  nextId : UInt64 := 1
  commitPoints : CommitPoints := []
  deriving DecidableEq, Repr

namespace SessionPool

/-- How many sessions of 24 bytes can be kept. -/
def room : Nat := Bytes.reservable / 24

abbrev Capacity := Fin (room + 1)

def Capacity.standard : Capacity := ⟨16, by decide⟩

def ofCapacity (capacity : Capacity) : SessionPool := { capacity := capacity.val }

def serial? (pool : SessionPool) (id : UInt64) : Option UInt64 := pool.commitPoints.lookup id

/-- Takes the session returned last, or makes one when none is idle. -/
def acquire (pool : SessionPool) : Session × SessionPool :=
  match pool.idle with
  | session :: rest => (session, { pool with idle := rest })
  | [] =>
    (⟨pool.nextId, (pool.serial? pool.nextId).getD 0, 0⟩, { pool with nextId := pool.nextId + 1 })

def release (session : Session) (pool : SessionPool) : SessionPool :=
  { pool with
    commitPoints := pool.commitPoints.record session.id session.serial
    idle := if pool.idle.length < pool.capacity then session :: pool.idle else pool.idle }

/-- Forgets all idle sessions; ids restart at 1 and resume from the given points. -/
def restore (points : List (UInt64 × UInt64)) (pool : SessionPool) : SessionPool :=
  { pool with commitPoints := .ofList points, idle := [], nextId := 1 }

end SessionPool

end PredicateIndex
