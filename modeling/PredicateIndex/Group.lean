import PredicateIndex.ChangeTracker
import PredicateIndex.Key.Type
import PredicateIndex.Store.Chain
import PredicateIndex.Store.Checkpointing
import PredicateIndex.Store.Recovery

/-!
# Predicate groups

The predicates of a group share one store: a record's composite key has a slot
for the key that each predicate gives. An update becomes at most two records, a
tombstone that takes the old id off the chains it leaves and a live record that
puts the new id on the chains it joins.
-/

set_option autoImplicit false

namespace PredicateIndex

structure Predicate (D : Type) where
  name : String
  type : KeyType
  key : D → Option type.Value

def Predicate.evaluate {D : Type} (predicate : Predicate D) (data : D) : Option Bytes :=
  (predicate.key data).map predicate.type.encode

structure IndexWrite where
  key : CompositeKey
  id : RecordId
  tombstone : Bool
  deriving DecidableEq, Repr

structure UpdatePlan where
  writes : List IndexWrite
  after : CompositeKey
  hasChanges : Bool
  deriving DecidableEq, Repr

namespace UpdatePlan

def matching (writes : List IndexWrite) : List IndexWrite := writes.filter (·.key.anyMatch)

/-- The record was never indexed by the group, so the update adds it. -/
def ofMissing (after : CompositeKey) (afterId : RecordId) : UpdatePlan :=
  ⟨matching [⟨after, afterId, false⟩], after, after.anyMatch⟩

/-- Only the keys that differ leave or join chains. -/
def inPlace (before after : CompositeKey) (beforeId afterId : RecordId) : UpdatePlan :=
  let marked := before.markChanges after
  let left := before.retain fun slot => ((marked.slot? slot.ordinal).map Slot.unlinksOld).getD false
  let joined := marked.retain Slot.linksNew
  if before.changed after then
    ⟨matching [⟨left, beforeId, true⟩, ⟨joined, afterId, false⟩], marked, true⟩
  else ⟨[], marked, false⟩

/-- The record id is another one, so every key leaves its chain and joins one. -/
def copy (before after : CompositeKey) (beforeId afterId : RecordId) : UpdatePlan :=
  let marked := before.markChanges after
  ⟨matching [⟨before, beforeId, true⟩, ⟨marked, afterId, false⟩], marked,
    before.changed after || before.anyMatch || after.anyMatch⟩

def ofChange (kind : UpdateKind) (before after : CompositeKey) (beforeId afterId : RecordId) :
    Except Fault UpdatePlan :=
  match kind with
  | .inPlace => .ok (inPlace before after beforeId afterId)
  | .copy => .ok (copy before after beforeId afterId)
  | kind => .error (.notAnUpdate kind)

end UpdatePlan

structure Group (D : Type) where
  id : Nat
  predicates : List (Predicate D)
  store : Store

namespace Group

variable {D : Type}

def open? (id : Nat) (predicates : List (Predicate D)) (config : Config) (disk : Disk) :
    Except Fault (Group D) × Disk :=
  match Store.open? (config.groupDir id) config disk with
  | (.error fault, disk) => (.error fault, disk)
  | (.ok store, disk) => (.ok ⟨id, predicates, store⟩, disk)

def size (group : Group D) : Nat := group.predicates.length

def names (group : Group D) : List String := group.predicates.map Predicate.name

def name? (group : Group D) (ordinal : UInt8) : Option String := group.names[ordinal.toNat]?

def evaluate (group : Group D) (data : D) : CompositeKey :=
  .ofOutputs (group.predicates.map fun predicate => predicate.evaluate data)

def put (group : Group D) (write : IndexWrite) (disk : Disk) : Except Fault Unit × Group D × Disk :=
  let (result, store, disk) := group.store.put write.key write.id write.tombstone disk
  (result, { group with store }, disk)

def putAll : List IndexWrite → Group D → Disk → Except Fault Unit × Group D × Disk
  | [], group, disk => (.ok (), group, disk)
  | write :: rest, group, disk =>
    match group.put write disk with
    | (.error fault, group, disk) => (.error fault, group, disk)
    | (.ok (), group, disk) => putAll rest group disk

def captureBefore (group : Group D) (tracker : ChangeTracker D) :
    Except Fault (ChangeTracker D) :=
  if tracker.needsBefore group.id then
    match tracker.before with
    | some (data, _) => .ok (tracker.setBeforeKeys group.id (group.evaluate data))
    | none => .error .noBeforeData
  else .ok tracker

def plan (group : Group D) (after : CompositeKey) (tracker : ChangeTracker D) :
    Except Fault UpdatePlan :=
  match tracker.beforeKeys? group.id with
  | none => .error (.beforeKeysNotCaptured group.id)
  | some .missing => .ok (.ofMissing after tracker.afterId)
  | some .noMatch =>
    UpdatePlan.ofChange tracker.kind (.unmatched group.size) after tracker.beforeId tracker.afterId
  | some (.captured before) =>
    UpdatePlan.ofChange tracker.kind before after tracker.beforeId tracker.afterId

def applyAfter (group : Group D) (after : CompositeKey) (tracker : ChangeTracker D) (disk : Disk) :
    Except Fault Unit × Group D × ChangeTracker D × Disk :=
  match group.plan after tracker with
  | .error fault => (.error fault, group, tracker, disk)
  | .ok plan =>
    match putAll plan.writes group disk with
    | (.error fault, group, disk) => (.error fault, group, tracker, disk)
    | (.ok (), group, disk) =>
      (.ok (), group, tracker.setAfterKeys group.id plan.after plan.hasChanges, disk)

def insert (group : Group D) (data : D) (id : RecordId) (disk : Disk) :
    Except Fault Unit × Group D × Disk :=
  putAll (UpdatePlan.matching [⟨group.evaluate data, id, false⟩]) group disk

def update (group : Group D) (tracker : ChangeTracker D) (disk : Disk) :
    Except Fault Unit × Group D × ChangeTracker D × Disk :=
  match group.captureBefore tracker with
  | .error fault => (.error fault, group, tracker, disk)
  | .ok tracker =>
    match tracker.after with
    | none => (.error .noAfterData, group, tracker, disk)
    | some (data, _) => group.applyAfter (group.evaluate data) tracker disk

def delete (group : Group D) (tracker : ChangeTracker D) (disk : Disk) :
    Except Fault Unit × Group D × ChangeTracker D × Disk :=
  match group.captureBefore tracker with
  | .error fault => (.error fault, group, tracker, disk)
  | .ok tracker =>
    match tracker.beforeKeys? group.id with
    | none => (.error (.beforeKeysNotCaptured group.id), group, tracker, disk)
    | some (.captured before) =>
      let (result, group, disk) := group.put ⟨before, tracker.beforeId, true⟩ disk
      (result, group, tracker, disk)
    | some .noMatch | some .missing => (.ok (), group, tracker, disk)

def execute (group : Group D) (data : D) (id : RecordId) (phase : Phase)
    (tracker : Option (ChangeTracker D)) (disk : Disk) :
    Except Fault Unit × Group D × Option (ChangeTracker D) × Disk :=
  match phase, tracker with
  | .insert, tracker =>
    let (result, group, disk) := group.insert data id disk
    (result, group, tracker, disk)
  | phase, none => (.error (.phaseNeedsTracker phase), group, none, disk)
  | .preUpdate, some tracker =>
    (.ok (), group, some (tracker.setBeforeKeys group.id (group.evaluate data)), disk)
  | .postUpdate, some tracker =>
    let (result, group, tracker, disk) := group.applyAfter (group.evaluate data) tracker disk
    (result, group, some tracker, disk)
  | .delete, some tracker =>
    let key := group.evaluate data
    let (result, group, disk) := putAll (UpdatePlan.matching [⟨key, id, true⟩]) group disk
    (result, group, some (tracker.setBeforeKeys group.id key), disk)

def onStore {α σ : Type} (operation : Store → σ → α × Store × σ) (group : Group D) (state : σ) :
    α × Group D × σ :=
  let (result, store, state) := operation group.store state
  (result, { group with store }, state)

def readChain (group : Group D) (ordinal : UInt8) (key : Bytes) (cancelled : Bool) (disk : Disk)
    (dead : DeadRecords) : Except Fault (Option (List RecordId)) × Group D × DeadRecords :=
  let (result, store, dead) := group.store.readChain ordinal key cancelled disk dead
  (result, { group with store }, dead)

end Group

end PredicateIndex
