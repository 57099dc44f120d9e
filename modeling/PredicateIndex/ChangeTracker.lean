import PredicateIndex.CompositeKey
import PredicateIndex.Fault

/-!
# Change trackers

A tracker carries one update of the primary store to every group: the record
before and after it, how the store applied it, and each group's keys for both.
The keys before the update are captured when it begins; a group registered
later is missing from the tracker.
-/

set_option autoImplicit false

namespace PredicateIndex

inductive BeforeKeys where
  | captured (key : CompositeKey)
  /-- No predicate of the group matched. -/
  | noMatch
  /-- The group came after the keys were captured. -/
  | missing
  deriving DecidableEq, Repr

def BeforeKeys.ofKey (key : CompositeKey) : BeforeKeys :=
  if key.anyMatch then captured key else noMatch

structure GroupKeys where
  before : BeforeKeys
  after : Option CompositeKey := none
  hasChanges : Bool := false
  deriving DecidableEq, Repr

structure ChangeTracker (D : Type) where
  before : Option (D × RecordId) := none
  after : Option (D × RecordId) := none
  kind : UpdateKind := .insert
  /-- The keys of the groups that have taken part. -/
  groups : List (Nat × GroupKeys) := []
  /-- When set, all groups with a smaller id have captured their keys. -/
  capturedThrough : Option Nat := none
  deriving DecidableEq, Repr

namespace ChangeTracker

variable {D : Type}

def beforeId (tracker : ChangeTracker D) : RecordId := (tracker.before.map (·.2)).getD .invalid

def afterId (tracker : ChangeTracker D) : RecordId := (tracker.after.map (·.2)).getD .invalid

def groupKeys? (tracker : ChangeTracker D) (group : Nat) : Option GroupKeys :=
  tracker.groups.lookup group

def setGroup (group : Nat) (keys : GroupKeys) (tracker : ChangeTracker D) : ChangeTracker D :=
  { tracker with groups := (group, keys) :: tracker.groups.filter fun entry => entry.1 ≠ group }

def hasChanges (tracker : ChangeTracker D) (group : Nat) : Bool :=
  ((tracker.groupKeys? group).map GroupKeys.hasChanges).getD false

def setBefore (data : D) (id : RecordId) (tracker : ChangeTracker D) : ChangeTracker D :=
  { tracker with before := some (data, id), groups := [], capturedThrough := none }

/-- The record after the update; that its id stays the same makes the update one in place. -/
def setAfter (data : D) (id : RecordId) (tracker : ChangeTracker D) : ChangeTracker D :=
  { tracker with
    kind :=
      match tracker.before with
      | none => .insert
      | some (_, before) => if id = before then .inPlace else .copy
    after := some (data, id) }

def setKind (kind : UpdateKind) (tracker : ChangeTracker D) : ChangeTracker D :=
  { tracker with kind }

def markCaptured (nextGroup : Nat) (tracker : ChangeTracker D) : ChangeTracker D :=
  { tracker with capturedThrough := some nextGroup }

def needsBefore (tracker : ChangeTracker D) (group : Nat) : Bool :=
  tracker.capturedThrough.isNone && (tracker.groupKeys? group).isNone

def beforeKeys? (tracker : ChangeTracker D) (group : Nat) : Option BeforeKeys :=
  match tracker.groupKeys? group with
  | some keys => some keys.before
  | none =>
    match tracker.capturedThrough with
    | some through => if through ≤ group then some .missing else none
    | none => none

def setBeforeKeys (group : Nat) (key : CompositeKey) (tracker : ChangeTracker D) :
    ChangeTracker D :=
  tracker.setGroup group { before := .ofKey key }

def setAfterKeys (group : Nat) (after : CompositeKey) (hasChanges : Bool)
    (tracker : ChangeTracker D) : ChangeTracker D :=
  let before := ((tracker.groupKeys? group).map GroupKeys.before).getD .missing
  tracker.setGroup group { before, after := some after, hasChanges }

end ChangeTracker

end PredicateIndex
