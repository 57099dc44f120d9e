import PredicateIndex.Bytes
import PredicateIndex.RecordId

/-!
# Composite keys

A composite key has one slot for every predicate of a group. A slot holds the
key the predicate gave, or none, and the address of the previous record whose
slot of the same ordinal holds the same key: these records form a chain, newest
first. The two link marks matter only while one update is applied.
-/

set_option autoImplicit false

namespace PredicateIndex

structure Slot where
  ordinal : UInt8
  key : Option Bytes
  previous : UInt64 := noAddress
  unlinksOld : Bool := false
  linksNew : Bool := false
  deriving DecidableEq, Repr

def chainKey (ordinal : UInt8) (key : Bytes) : Bytes := ordinal :: key

namespace Slot

def isNull (slot : Slot) : Bool := slot.key.isNone

def chain? (slot : Slot) : Option Bytes := slot.key.map (chainKey slot.ordinal)

def copy (slot : Slot) (keep : Bool) : Slot where
  ordinal := slot.ordinal
  key := if keep then slot.key else none

end Slot

abbrev CompositeKey := List Slot

namespace CompositeKey

/-- One fresh slot for each output, ordinals counted from `n` modulo 256. -/
def ofOutputsFrom : Nat → List (Option Bytes) → CompositeKey
  | _, [] => []
  | n, output :: rest => { ordinal := UInt8.ofNat n, key := output } :: ofOutputsFrom (n + 1) rest

def ofOutputs (outputs : List (Option Bytes)) : CompositeKey := ofOutputsFrom 0 outputs

def unmatched (size : Nat) : CompositeKey := ofOutputs (List.replicate size none)

def anyMatch (key : CompositeKey) : Bool := key.any fun slot => !slot.isNull

def slot? (key : CompositeKey) (ordinal : UInt8) : Option Slot := key[ordinal.toNat]?

def retain (key : CompositeKey) (keep : Slot → Bool) : CompositeKey :=
  key.map fun slot => slot.copy (keep slot)

def markChanges : CompositeKey → CompositeKey → CompositeKey
  | old :: olds, new :: news =>
    (if old.key = new.key then new
      else { new with unlinksOld := !old.isNull, linksNew := !new.isNull }) :: markChanges olds news
  | _, news => news

def changed : CompositeKey → CompositeKey → Bool
  | old :: olds, new :: news => old.key ≠ new.key || changed olds news
  | _, _ => false

end CompositeKey

end PredicateIndex
