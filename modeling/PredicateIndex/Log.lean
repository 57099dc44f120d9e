import PredicateIndex.Disk
import PredicateIndex.LogRecord

/-!
# The log of a store

Addresses are offsets into one file, whose first 64 bytes are a header, so no
record has address 0. The bytes of `[head, tail)` are in memory; those below
`flushed` are on disk. Flushing writes what memory holds past `flushed`, and
evicting then drops it from memory, so every later read goes to disk.
-/

set_option autoImplicit false

namespace PredicateIndex

structure Log where
  file : FileId
  path : Path
  start : Nat
  head : Nat
  flushed : Nat
  tail : Nat
  buffer : Bytes
  deriving DecidableEq, Repr

structure PendingRead where
  path : Path
  address : Nat
  deriving DecidableEq, Repr

namespace Log

def origin : Nat := 64

def magic : Nat := 0x5053464C

def version : Nat := 1

def signature : Bytes := Bytes.bigEndian 4 magic ++ Bytes.bigEndian 2 version

def header : Bytes := signature.resize origin

def fileName : String := "log.dat"

def empty (file : FileId) (path : Path) : Log := ⟨file, path, origin, origin, origin, origin, []⟩

/-- Opens the log in a directory as an empty one; what the file holds stays there. -/
def open? (dir : Path) (disk : Disk) : Except Fault Log × Disk :=
  match disk.openFile (dir.child fileName) with
  | .error cause => (.error (.file cause), disk)
  | .ok (file, disk) =>
    let log := empty file (dir.child fileName)
    if (disk.content file).length < origin then (.ok log, disk.write file 0 header)
    else if (disk.content file).take signature.length = signature then (.ok log, disk)
    else (.error .badHeader, disk)

def isEmpty (log : Log) : Bool := log.tail = log.start

def append (bytes : Bytes) (log : Log) : Log :=
  { log with buffer := log.buffer ++ bytes, tail := log.tail + bytes.length }

def resident (log : Log) (address : Nat) : Except Fault (Option Bytes) :=
  if address < log.start ∨ log.tail ≤ address then .error (.addressOutOfRange address)
  else if address < log.head then .ok none
  else .ok (some (log.buffer.drop (address - log.head)))

def pendingRead (log : Log) (address : Nat) : PendingRead := ⟨log.path, address⟩

def flush (log : Log) (disk : Disk) : Log × Disk :=
  if log.flushed < log.tail then
    ({ log with flushed := log.tail },
      disk.write log.file log.flushed (log.buffer.drop (log.flushed - log.head)))
  else (log, disk)

def evict (log : Log) (disk : Disk) : Log × Disk :=
  let (log, disk) := log.flush disk
  ({ log with buffer := [], head := log.tail }, disk)

/-- Makes the log the part `[start, tail)` of its file and cuts the file off behind it. -/
def restore (start tail : Nat) (log : Log) (disk : Disk) : Except Fault (Log × Disk) :=
  let length := (disk.content log.file).length
  if length < tail then .error (.shortLogFile length tail)
  else
    .ok ({ log with start, head := tail, flushed := tail, tail, buffer := [] },
      disk.setLength log.file tail)

def records : Nat → Nat → Bytes → Except Fault (List (Nat × LogRecord))
  | 0, _, _ => .ok []
  | fuel + 1, address, bytes =>
    match bytes with
    | [] => .ok []
    | _ :: _ => do
      let record ← LogRecord.decode bytes
      let length ← LogRecord.peekLength bytes
      let others ← records fuel (address + length) (bytes.drop length)
      return (address, record) :: others

def scan (log : Log) (first last : Nat) (disk : Disk) : Except Fault (List (Nat × LogRecord)) :=
  if last ≤ first then .ok []
  else if first < log.start ∨ log.flushed < last then .error (.addressOutOfRange first)
  else
    match disk.read log.path with
    | .error cause => .error (.file cause)
    | .ok content =>
      match Bytes.split? (last - first) (content.drop first) with
      | none => .error (.file .endOfFile)
      | some (bytes, _) => records bytes.length first bytes

end Log

/-- Reads the record from the file that stands at the log's path now. -/
def PendingRead.complete (read : PendingRead) (disk : Disk) : Except Fault LogRecord :=
  match disk.readAt read.path read.address 4 with
  | .error cause => .error (.file cause)
  | .ok content =>
    match Bytes.split? 4 (content.drop read.address) with
    | none => .error (.logEndsInRecord read.address)
    | some (word, _) => do
      let length ← LogRecord.peekLength word
      if content.length < read.address + length then
        throw (.recordPastEnd read.address length content.length)
      LogRecord.decode ((content.drop read.address).take length)

end PredicateIndex
