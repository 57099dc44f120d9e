import PredicateIndex.DeadRecords
import PredicateIndex.Store

/-!
# Walking a chain

A walk starts at the head of a chain and follows the previous addresses, newest
record first. A record id is live on the chain if the first record met for it
is no tombstone. The addresses a walk may meet lie below the tail, so a walk
that has taken more steps than the tail counts has met one of them twice. Then
it would go round forever; this is reported as `endlessChain`.
-/

set_option autoImplicit false

namespace PredicateIndex

structure ChainWalk where
  ordinal : UInt8
  key : Bytes
  next : UInt64
  tombstoned : List RecordId := []
  /-- The ids met as live, in ascending order. -/
  live : List RecordId := []
  deriving DecidableEq, Repr

namespace ChainWalk

def slot? (walk : ChainWalk) (record : LogRecord) : Option Slot :=
  match record.key.slot? walk.ordinal with
  | some slot => if slot.key = some walk.key then some slot else none
  | none => none

def visit (walk : ChainWalk) (address : Nat) (record : LogRecord) (dead : DeadRecords) :
    Except Fault (ChainWalk × DeadRecords) :=
  match walk.slot? record with
  | none => .error (.offChain address walk.ordinal)
  | some slot =>
    let walk := { walk with next := slot.previous }
    if record.tombstone then
      .ok ({ walk with tombstoned := record.id :: walk.tombstoned },
        dead.mark (chainKey walk.ordinal walk.key) record.id)
    else if record.id ∈ walk.tombstoned then .ok (walk, dead)
    else .ok ({ walk with live := RecordId.insert record.id walk.live }, dead)

end ChainWalk

namespace Store

def fetch (store : Store) (session : Session) (address : Nat) (disk : Disk) :
    Except Fault (Option LogRecord) × Session :=
  match store.read session address with
  | .error fault => (.error fault, session)
  | .ok (.notFound, session) => (.ok none, session)
  | .ok (.found record, session) => (.ok (some record), session)
  | .ok (.pending read, session) =>
    match read.complete disk with
    | .error fault => (.error fault, session)
    | .ok record => (.ok (some record), session)

/-- Walks at most `steps` records; `none` stands for a walk that was cancelled before its end. -/
def walk (store : Store) (cancelled : Bool) (disk : Disk) :
    Nat → ChainWalk → Session → DeadRecords →
      Except Fault (Option (List RecordId)) × Session × DeadRecords
  | steps, walk, session, dead =>
    if walk.next = noAddress then (.ok (some walk.live), session, dead)
    else if cancelled then (.ok none, session, dead)
    else
      match steps with
      | 0 => (.error (.endlessChain walk.next.toNat), session, dead)
      | steps + 1 =>
        match store.fetch session walk.next.toNat disk with
        | (.error fault, session) => (.error fault, session, dead)
        | (.ok none, session) => (.ok (some walk.live), session, dead)
        | (.ok (some record), session) =>
          match walk.visit walk.next.toNat record dead with
          | .error fault => (.error fault, session, dead)
          | .ok (next, dead) => store.walk cancelled disk steps next session dead

def readChain (store : Store) (ordinal : UInt8) (key : Bytes) (cancelled : Bool) (disk : Disk)
    (dead : DeadRecords) : Except Fault (Option (List RecordId)) × Store × DeadRecords :=
  let (session, store) := store.acquire
  let start : ChainWalk := { ordinal, key, next := store.heads.head (chainKey ordinal key) }
  let (result, session, dead) := store.walk cancelled disk (store.log.tail + 1) start session dead
  (result, store.release session, dead)

end Store

end PredicateIndex
