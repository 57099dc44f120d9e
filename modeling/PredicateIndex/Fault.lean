import PredicateIndex.Path
import PredicateIndex.Token

/-!
# Faults

Everything that can make an operation fail, named for its cause. Each cause
falls into one category; a category puts fixed words in front of the detail of
the cause, and both together are the message.
-/

set_option autoImplicit false

namespace PredicateIndex

inductive UpdateKind where
  | insert
  | inPlace
  | copy
  | delete
  deriving DecidableEq, Repr

inductive Phase where
  | insert
  | preUpdate
  | postUpdate
  | delete
  deriving DecidableEq, Repr

def UpdateKind.label : UpdateKind → String
  | .insert => "Insert"
  | .inPlace => "Ipu"
  | .copy => "Rcu"
  | .delete => "Delete"

def Phase.label : Phase → String
  | .insert => "Insert"
  | .preUpdate => "PreUpdate"
  | .postUpdate => "PostUpdate"
  | .delete => "Delete"

namespace Fault

inductive Category where
  | io
  | invalidArgument
  | invalidAddress
  | invalidHeader
  | checksumMismatch
  | corruptedRecord
  | lockPoisoned
  | invalidState
  | invalidOperation
  | checkpointNotFound
  | checkpointMismatch
  | internal
  deriving DecidableEq, Repr

def Category.all : List Category :=
  [.io, .invalidArgument, .invalidAddress, .invalidHeader, .checksumMismatch, .corruptedRecord,
    .lockPoisoned, .invalidState, .invalidOperation, .checkpointNotFound, .checkpointMismatch,
    .internal]

theorem Category.mem_all (category : Category) : category ∈ all := by cases category <;> decide

def Category.message : Category → String → String
  | .io, detail => "I/O error: " ++ detail
  | .invalidArgument, detail => "Invalid argument: " ++ detail
  | .invalidAddress, detail => "Invalid log address: " ++ detail
  | .invalidHeader, _ => "Invalid header"
  | .checksumMismatch, _ => "Checksum mismatch"
  | .corruptedRecord, detail => "Corrupted record: " ++ detail
  | .lockPoisoned, _ => "Mutex was poisoned"
  | .invalidState, detail => "Invalid state: " ++ detail
  | .invalidOperation, detail => "Invalid operation: " ++ detail
  | .checkpointNotFound, detail => "Checkpoint not found: " ++ detail
  | .checkpointMismatch, detail => "Checkpoint mismatch: " ++ detail
  | .internal, detail => "Internal error: " ++ detail

def Category.hasSource (category : Category) : Bool := category = .io

inductive File where
  | endOfFile
  | notFound
  | lockHeld
  | alreadyExists
  | isDirectory
  | notDirectory
  | invalidInput
  deriving DecidableEq, Repr

def File.detail : File → String
  | .endOfFile => "failed to fill whole buffer"
  | .notFound => "no such file or directory"
  | .lockHeld => "lock held by another handle"
  | .alreadyExists => "file exists"
  | .isDirectory => "is a directory"
  | .notDirectory => "not a directory"
  | .invalidInput => "invalid argument"

inductive Encoding where
  | truncated
  | malformed (detail : String)
  deriving DecidableEq, Repr

def Encoding.detail : Encoding → String
  | .truncated => "Truncated data"
  | .malformed detail => "Invalid encoding format: " ++ detail

end Fault

inductive Fault where
  | file (cause : Fault.File)
  -- registration and query arguments
  | unsupportedIntegerWidth (width : Nat)
  | emptyKeyType
  | keyTooLarge (size limit : Nat)
  | noPredicates
  | tooManyPredicates (count limit : Nat)
  | emptyPredicateName
  | duplicatePredicate (name : String)
  | foreignPredicate (name : String)
  | emptyQueryGroup
  | zeroSegmentLimit
  -- the log
  | addressOutOfRange (address : Nat)
  | badHeader
  | badChecksum
  | truncatedLength
  | badRecordLength (length : Nat)
  | shortRecord (needed got : Nat)
  | logEndsInRecord (address : Nat)
  | recordPastEnd (address length fileLength : Nat)
  | offChain (address : Nat) (ordinal : UInt8)
  | endlessChain (address : Nat)
  | shortLogFile (fileLength tail : Nat)
  -- keys and checkpoint payloads
  | truncatedKey
  | wrongKeyTag (name : String)
  | wrongKeyLength (name : String) (expected got : Nat)
  | badBoolean
  | badChar
  | truncatedFrame
  | truncatedPayload
  -- checkpoints and recovery
  | awaitingRecovery (dir : Path)
  | storeNotEmpty
  | noCheckpointFile (name : String) (token : Token)
  | noLogCheckpoint (dir : Path)
  | indexPastLog (index : Token) (indexTail : UInt64) (log : Token) (logTail : UInt64)
  | groupsDisagree (group : Nat) (token expected : Token)
  -- nothing is answered any more: the program ends
  | pageTooLarge (limit : Nat)
  -- updates
  | phaseNeedsTracker (phase : Phase)
  | noBeforeData
  | noAfterData
  | beforeKeysNotCaptured (group : Nat)
  | notAnUpdate (kind : UpdateKind)
  deriving DecidableEq, Repr

namespace Fault

def category : Fault → Category
  | file _ => .io
  | unsupportedIntegerWidth _ | emptyKeyType | keyTooLarge _ _ | noPredicates
  | tooManyPredicates _ _ | emptyPredicateName | duplicatePredicate _ | foreignPredicate _
  | emptyQueryGroup | zeroSegmentLimit => .invalidArgument
  | addressOutOfRange _ => .invalidAddress
  | badHeader => .invalidHeader
  | badChecksum => .checksumMismatch
  | truncatedLength | badRecordLength _ | shortRecord _ _ | logEndsInRecord _
  | recordPastEnd _ _ _ | offChain _ _ | endlessChain _ => .corruptedRecord
  | shortLogFile _ _ | awaitingRecovery _ | storeNotEmpty => .invalidState
  | truncatedKey | wrongKeyTag _ | wrongKeyLength _ _ _ | badBoolean | badChar
  | truncatedFrame | truncatedPayload => .invalidOperation
  | noCheckpointFile _ _ | noLogCheckpoint _ => .checkpointNotFound
  | indexPastLog _ _ _ _ | groupsDisagree _ _ _ => .checkpointMismatch
  | pageTooLarge _ | phaseNeedsTracker _ | noBeforeData | noAfterData | beforeKeysNotCaptured _
  | notAnUpdate _ => .internal

def detail : Fault → String
  | file cause => cause.detail
  | unsupportedIntegerWidth width => s!"unsupported integer key width {width}"
  | emptyKeyType => "zero-sized key type is not supported"
  | keyTooLarge size limit => s!"key size {size} exceeds the maximum of {limit} bytes"
  | noPredicates => "null definition: no predicates given"
  | tooManyPredicates count limit =>
    s!"{count} predicates exceed the maximum of {limit} per group"
  | emptyPredicateName => "null definition: empty predicate name"
  | duplicatePredicate name => s!"duplicate predicate name '{name}'"
  | foreignPredicate name => s!"predicate '{name}' is not registered with this manager"
  | emptyQueryGroup => "query names no predicates"
  | zeroSegmentLimit => "segment limit must be positive"
  | addressOutOfRange address => s!"{address}"
  | badHeader | badChecksum => ""
  | truncatedLength => "truncated length prefix"
  | badRecordLength length => s!"invalid record length {length}"
  | shortRecord needed got => s!"record needs {needed} bytes, have {got}"
  | logEndsInRecord address => s!"unexpected end of log reading record at {address}"
  | recordPastEnd address length fileLength =>
    s!"record at {address} claims {length} bytes, log ends at {fileLength}"
  | offChain address ordinal => s!"record at {address} is not on chain of predicate {ordinal}"
  | endlessChain address => s!"chain comes back to record at {address}"
  | shortLogFile fileLength tail =>
    s!"log file holds {fileLength} bytes, checkpoint tail is {tail}"
  | truncatedKey | truncatedFrame => Encoding.truncated.detail
  | wrongKeyTag name => (Encoding.malformed s!"Not a {name} key").detail
  | wrongKeyLength name expected got =>
    (Encoding.malformed s!"{name} key must be {expected} bytes total, got {got}").detail
  | badBoolean => (Encoding.malformed "Invalid boolean value").detail
  | badChar => (Encoding.malformed "Invalid char scalar").detail
  | truncatedPayload =>
    (Encoding.malformed "Deserialization failed: io error: unexpected end of file").detail
  | awaitingRecovery dir => s!"{dir.text} holds checkpointed data; recover before writing"
  | storeNotEmpty => "recovery requires a store without writes"
  | noCheckpointFile name token => s!"{name} for token {token.text}"
  | noLogCheckpoint dir => s!"no log checkpoint in {dir.text}"
  | indexPastLog index indexTail log logTail =>
    s!"index checkpoint {index.text} covers log up to {indexTail}, " ++
      s!"past log checkpoint {log.text} tail {logTail}"
  | groupsDisagree group token expected =>
    s!"group {group} recovered checkpoint {token.text}, other groups recovered {expected.text}"
  | pageTooLarge _ => "capacity overflow"
  | phaseNeedsTracker phase => s!"{phase.label} phase requires a change tracker"
  | noBeforeData => "update has no before data"
  | noAfterData => "update has no after data"
  | beforeKeysNotCaptured group => s!"before keys of group {group} were not captured"
  | notAnUpdate kind => s!"post-update applied to a {kind.label} operation"

def message (fault : Fault) : String := fault.category.message fault.detail

end Fault

end PredicateIndex
