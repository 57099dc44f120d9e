import PredicateIndex.Checksum
import PredicateIndex.Fault
import PredicateIndex.RecordId

/-!
# Checkpoint payloads and frames

A checkpoint has up to two parts. The index part holds the head of every chain
and the log tail the heads were taken at; the log part holds the log's bounds
and the commit points of its sessions. Payloads have little-endian words and
64-bit counts in front of lists; bytes behind a payload are ignored. In a file
a payload stands in a frame, its length before it and its checksum behind it,
both big-endian.
-/

set_option autoImplicit false

namespace PredicateIndex

structure IndexCheckpoint where
  token : Token
  logTail : UInt64
  heads : List (Bytes × UInt64)
  deriving DecidableEq, Repr

structure LogCheckpoint where
  token : Token
  start : UInt64
  tail : UInt64
  commitPoints : List (UInt64 × UInt64)
  deriving DecidableEq, Repr

namespace Payload

def word (n : UInt64) : Bytes := Bytes.littleEndian 8 n.toNat

def readWord : Reader UInt64 := do return UInt64.ofNat (← Reader.littleWord 8)

def list {α : Type} (item : α → Bytes) (items : List α) : Bytes :=
  word (UInt64.ofNat items.length) ++ items.flatMap item

def readList {α : Type} (item : Reader α) : Reader (List α) := do
  let count ← readWord
  Reader.replicate item count.toNat

def bytes (content : Bytes) : Bytes := word (UInt64.ofNat content.length) ++ content

def readBytes : Reader Bytes := do
  let count ← readWord
  Reader.bytes count.toNat

def token (t : Token) : Bytes := word t.value

def readToken : Reader Token := do return ⟨← readWord⟩

def recordId (id : RecordId) : Bytes :=
  word id.address ++ Bytes.littleEndian 4 id.version.toNat

def readRecordId : Reader RecordId := do
  let address ← readWord
  let version ← Reader.littleWord 4
  return ⟨address, UInt32.ofNat version⟩

def head (entry : Bytes × UInt64) : Bytes := bytes entry.1 ++ word entry.2

def readHead : Reader (Bytes × UInt64) := do
  let chain ← readBytes
  return (chain, ← readWord)

def index (checkpoint : IndexCheckpoint) : Bytes :=
  token checkpoint.token ++ word checkpoint.logTail ++ list head checkpoint.heads

def readIndex : Reader IndexCheckpoint := do
  let token ← readToken
  let logTail ← readWord
  return ⟨token, logTail, ← readList readHead⟩

def commitPoint (point : UInt64 × UInt64) : Bytes := word point.1 ++ word point.2

def readCommitPoint : Reader (UInt64 × UInt64) := do
  let session ← readWord
  return (session, ← readWord)

def log (checkpoint : LogCheckpoint) : Bytes :=
  token checkpoint.token ++ word checkpoint.start ++ word checkpoint.tail ++
    list commitPoint checkpoint.commitPoints

def readLog : Reader LogCheckpoint := do
  let token ← readToken
  let start ← readWord
  let tail ← readWord
  return ⟨token, start, tail, ← readList readCommitPoint⟩

def decode {α : Type} (value : Reader α) (payload : Bytes) : Except Fault α :=
  match value payload with
  | some (a, _) => .ok a
  | none => .error .truncatedPayload

end Payload

def IndexCheckpoint.part (checkpoint : IndexCheckpoint) : Token × Bytes :=
  (checkpoint.token, Payload.index checkpoint)

def LogCheckpoint.part (checkpoint : LogCheckpoint) : Token × Bytes :=
  (checkpoint.token, Payload.log checkpoint)

namespace Frame

def wrap (payload : Bytes) : Bytes :=
  Bytes.bigEndian 4 payload.length ++ payload ++ Bytes.bigEndian 8 (checksum payload).toNat

def unwrap (bytes : Bytes) : Except Fault Bytes :=
  match Bytes.split? 4 bytes with
  | none => .error .truncatedFrame
  | some (length, rest) =>
    match Bytes.split? (Bytes.ofBigEndian length) rest with
    | none => .error (.file .endOfFile)
    | some (payload, rest) =>
      match Bytes.split? 8 rest with
      | none => .error (.file .endOfFile)
      | some (stored, _) =>
        if (checksum payload).toNat = Bytes.ofBigEndian stored then .ok payload
        else .error .badChecksum

def decode {α : Type} (value : Reader α) (bytes : Bytes) : Except Fault α := do
  Payload.decode value (← unwrap bytes)

end Frame

end PredicateIndex
