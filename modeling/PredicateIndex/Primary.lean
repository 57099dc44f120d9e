import PredicateIndex.Manager

/-!
# A primary store

A key-value store that tells a manager about every change. Records live in a
log in memory, and the address of a record is its place there, counted from 1.
Records written since the read-only address was last shifted are changed in
place; older ones are copied to the tail, which gives them a new id.
-/

set_option autoImplicit false

namespace PredicateIndex

structure KeyValue (K V : Type) where
  key : K
  value : V
  deriving DecidableEq, Repr

structure Primary (K V : Type) where
  manager : Manager (KeyValue K V)
  /-- The record at each address; copied and deleted ones are gone. -/
  log : List (Option (KeyValue K V)) := []
  /-- The address of the record of each key. -/
  index : List (K × Nat) := []
  /-- Records below this address are not changed in place. -/
  readOnly : Nat := 1
  version : UInt32 := 1

namespace Primary

variable {K V : Type} [DecidableEq K]

def ofManager (manager : Manager (KeyValue K V)) : Primary K V := { manager }

def tail (primary : Primary K V) : Nat := primary.log.length + 1

def recordId (primary : Primary K V) (address : Nat) : RecordId :=
  ⟨UInt64.ofNat address, primary.version⟩

def slot (primary : Primary K V) (address : Nat) : Except Fault (Option (KeyValue K V)) :=
  match address with
  | 0 => .error (.addressOutOfRange 0)
  | place + 1 =>
    match primary.log[place]? with
    | some slot => .ok slot
    | none => .error (.addressOutOfRange address)

def record (primary : Primary K V) (address : Nat) : Except Fault (KeyValue K V) := do
  match ← primary.slot address with
  | some data => return data
  | none => throw (.addressOutOfRange address)

def setSlot (address : Nat) (data : Option (KeyValue K V)) (primary : Primary K V) : Primary K V :=
  { primary with log := primary.log.set (address - 1) data }

def address? (primary : Primary K V) (key : K) : Option Nat := primary.index.lookup key

def push (data : KeyValue K V) (primary : Primary K V) : Primary K V :=
  { primary with
    index := (data.key, primary.tail) :: primary.index.filter fun entry => entry.1 ≠ data.key
    log := primary.log ++ [some data] }

def insertNew (primary : Primary K V) (data : KeyValue K V) (disk : Disk) :
    Except Fault RecordId × Primary K V × Disk :=
  let id := primary.recordId primary.tail
  match primary.manager.insert data id disk with
  | (.error fault, manager, disk) => (.error fault, { primary with manager }, disk)
  | (.ok (), manager, disk) => (.ok id, push data { primary with manager }, disk)

/-- Changes the record at an address and then its index entries. The new value stays even if
indexing it fails. -/
def changeInPlace (primary : Primary K V) (address : Nat) (change : V → V) (disk : Disk) :
    Except Fault RecordId × Primary K V × Disk :=
  match primary.record address with
  | .error fault => (.error fault, primary, disk)
  | .ok data =>
    let id := primary.recordId address
    let changed := { data with value := change data.value }
    let tracker := (primary.manager.beginUpdate data id).setAfter changed id
    let primary := primary.setSlot address (some changed)
    match primary.manager.upsert changed id (some tracker) disk with
    | (.error fault, manager, _, disk) => (.error fault, { primary with manager }, disk)
    | (.ok (), manager, _, disk) => (.ok id, { primary with manager }, disk)

def changeByCopy (primary : Primary K V) (address : Nat) (change : V → V) (disk : Disk) :
    Except Fault RecordId × Primary K V × Disk :=
  match primary.record address with
  | .error fault => (.error fault, primary, disk)
  | .ok data =>
    let id := primary.recordId primary.tail
    let changed := { data with value := change data.value }
    let tracker :=
      (primary.manager.beginUpdate data (primary.recordId address)).setAfter changed id
    match primary.manager.update tracker disk with
    | (.error fault, manager, _, disk) => (.error fault, { primary with manager }, disk)
    | (.ok (), manager, _, disk) =>
      (.ok id, (push changed { primary with manager }).setSlot address none, disk)

def changeRecord (primary : Primary K V) (address : Nat) (change : V → V) (disk : Disk) :
    Except Fault RecordId × Primary K V × Disk :=
  if primary.readOnly ≤ address then primary.changeInPlace address change disk
  else primary.changeByCopy address change disk

def upsert (primary : Primary K V) (key : K) (value : V) (disk : Disk) :
    Except Fault RecordId × Primary K V × Disk :=
  match primary.address? key with
  | some address => primary.changeRecord address (fun _ => value) disk
  | none => primary.insertNew ⟨key, value⟩ disk

def updateWith (primary : Primary K V) (key : K) (change : V → V) (disk : Disk) :
    Except Fault (Option RecordId) × Primary K V × Disk :=
  match primary.address? key with
  | none => (.ok none, primary, disk)
  | some address =>
    let (id, primary, disk) := primary.changeRecord address change disk
    (id.map some, primary, disk)

def delete (primary : Primary K V) (key : K) (disk : Disk) :
    Except Fault Bool × Primary K V × Disk :=
  match primary.address? key with
  | none => (.ok false, primary, disk)
  | some address =>
    match primary.record address with
    | .error fault => (.error fault, primary, disk)
    | .ok data =>
      let tracker := primary.manager.beginUpdate data (primary.recordId address)
      match primary.manager.delete tracker disk with
      | (.error fault, manager, _, disk) => (.error fault, { primary with manager }, disk)
      | (.ok (), manager, _, disk) =>
        let primary := { primary with manager }.setSlot address none
        (.ok true,
          { primary with index := primary.index.filter fun entry => entry.1 ≠ key }, disk)

def get (primary : Primary K V) (key : K) : Except Fault (Option (RecordId × V)) :=
  match primary.address? key with
  | none => .ok none
  | some address => do
    return (← primary.slot address).map fun data => (primary.recordId address, data.value)

def read (primary : Primary K V) (id : RecordId) : Except Fault (Option (KeyValue K V)) :=
  if id.version ≠ primary.version ∨ primary.tail ≤ id.address.toNat then .ok none
  else primary.slot id.address.toNat

def shiftReadOnly (primary : Primary K V) : Primary K V := { primary with readOnly := primary.tail }

end Primary

end PredicateIndex
