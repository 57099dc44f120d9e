import PredicateIndex.Checksum
import PredicateIndex.CompositeKey
import PredicateIndex.Fault

/-!
# Log records

A record says that a composite key leads to a record id, or, as a tombstone,
that it no longer does. On disk it is

    length 4 | flags 1 | address 8 | version 4 | slot count 1 | slots | checksum 8

with slots `ordinal 1 | null 1 | previous 8 | key length 2 | key`, all words
big-endian. The length covers the whole record and the checksum everything
before it, so a record can be cut off the front of a longer byte string.
-/

set_option autoImplicit false

namespace PredicateIndex

structure LogRecord where
  id : RecordId
  tombstone : Bool
  key : CompositeKey
  deriving DecidableEq, Repr

namespace LogRecord

def headSize : Nat := 18

def checksumSize : Nat := 8

def slotLength (slot : Slot) : Nat := 12 + (slot.key.getD []).length

def slotsLength : CompositeKey → Nat
  | [] => 0
  | slot :: rest => slotLength slot + slotsLength rest

def encodedLength (record : LogRecord) : Nat :=
  headSize + slotsLength record.key + checksumSize

def encodeSlot (slot : Slot) : Bytes :=
  let key := slot.key.getD []
  [slot.ordinal, if slot.isNull then 1 else 0] ++ Bytes.bigEndian 8 slot.previous.toNat ++
    Bytes.bigEndian 2 key.length ++ key

def encodeBody (record : LogRecord) : Bytes :=
  Bytes.bigEndian 4 record.encodedLength ++ [if record.tombstone then 1 else 0] ++
    Bytes.bigEndian 8 record.id.address.toNat ++ Bytes.bigEndian 4 record.id.version.toNat ++
    [UInt8.ofNat record.key.length] ++ record.key.flatMap encodeSlot

def encode (record : LogRecord) : Bytes :=
  record.encodeBody ++ Bytes.bigEndian checksumSize (checksum record.encodeBody).toNat

def peekLength (bytes : Bytes) : Except Fault Nat :=
  match Bytes.split? 4 bytes with
  | none => .error .truncatedLength
  | some (word, _) =>
    let length := Bytes.ofBigEndian word
    if length < headSize + checksumSize then .error (.badRecordLength length) else .ok length

def readSlot : Reader Slot := do
  let ordinal ← Reader.bigWord 1
  let null ← Reader.bigWord 1
  let previous ← Reader.bigWord 8
  let length ← Reader.bigWord 2
  let key ← Reader.bytes length
  return {
    ordinal := UInt8.ofNat ordinal
    key := if null = 0 then some key else none
    previous := UInt64.ofNat previous }

def readBody : Reader LogRecord := do
  let _ ← Reader.bigWord 4
  let flags ← Reader.bigWord 1
  let address ← Reader.bigWord 8
  let version ← Reader.bigWord 4
  let count ← Reader.bigWord 1
  let key ← Reader.replicate readSlot count
  return ⟨⟨UInt64.ofNat address, UInt32.ofNat version⟩, flags % 2 = 1, key⟩

/-- Reads the record at the front of `bytes`; what follows it does not matter. -/
def decode (bytes : Bytes) : Except Fault LogRecord := do
  let length ← peekLength bytes
  if bytes.length < length then throw (.shortRecord length bytes.length)
  let body := bytes.take (length - checksumSize)
  let stored := (bytes.drop (length - checksumSize)).take checksumSize
  if (checksum body).toNat ≠ Bytes.ofBigEndian stored then throw .badChecksum
  match readBody body with
  | some (record, _) => return record
  | none => throw (.file .endOfFile)

end LogRecord

end PredicateIndex
