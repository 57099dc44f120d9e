import PredicateIndex.Bytes
import PredicateIndex.RecordId

/-!
# Dead records

The record ids that chain walks of one query met as tombstones, kept per chain:
a record that moved from one key to another is dead only on the chain it left.
-/

set_option autoImplicit false

namespace PredicateIndex

abbrev DeadRecords := List (Bytes × RecordId)

namespace DeadRecords

def isDead (dead : DeadRecords) (chain : Bytes) (id : RecordId) : Bool := (chain, id) ∈ dead

def mark (dead : DeadRecords) (chain : Bytes) (id : RecordId) : DeadRecords :=
  if dead.isDead chain id then dead else (chain, id) :: dead

end DeadRecords

end PredicateIndex
