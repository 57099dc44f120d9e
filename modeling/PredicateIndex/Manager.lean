import PredicateIndex.Group

/-!
# Managers

A manager registers predicates in groups and passes every mutation of the
primary store on to all groups, in the order of their registration, until one
fails. The groups before it have then carried the mutation out.
-/

set_option autoImplicit false

namespace PredicateIndex

def maxPredicates : Nat := 255

structure Handle (type : KeyType) where
  name : String
  group : Nat
  ordinal : UInt8
  /-- The identity of the manager that gave the handle. -/
  owner : Nat
  deriving DecidableEq, Repr

structure Manager (D : Type) where
  config : Config
  /-- Tells this manager from all others. -/
  identity : Nat
  /-- The names of all registered predicates. -/
  names : List String := []
  groups : List (Group D) := []
  nextGroup : Nat := 0
  lastToken : Token := ⟨0⟩

namespace Manager

variable {D : Type}

def open? (config : Config) (identity : Nat) (disk : Disk) : Except Fault (Manager D) × Disk :=
  match disk.createDirs config.dir with
  | (.error cause, disk) => (.error (.file cause), disk)
  | (.ok (), disk) => (.ok { config, identity }, disk)

def close (manager : Manager D) (disk : Disk) : Disk :=
  manager.groups.foldl (fun disk group => group.store.close disk) disk

def checkNames : List String → List String → Except Fault Unit
  | _, [] => .ok ()
  | taken, name :: rest =>
    if name = "" then .error .emptyPredicateName
    else if name ∈ taken then .error (.duplicatePredicate name)
    else checkNames (name :: taken) rest

def checkDefinitions (manager : Manager D) (type : KeyType) (names : List String) :
    Except Fault Unit := do
  if names = [] then throw .noPredicates
  if maxPredicates < names.length then throw (.tooManyPredicates names.length maxPredicates)
  type.layout.validate
  checkNames manager.names names

def handles (type : KeyType) (group owner : Nat) : Nat → List String → List (Handle type)
  | _, [] => []
  | n, name :: rest => ⟨name, group, UInt8.ofNat n, owner⟩ :: handles type group owner (n + 1) rest

/-- Registers predicates of one key type as a new group. A group id is used up once the
definitions are found good, also when the group's store then cannot be opened. -/
def register (manager : Manager D) (type : KeyType)
    (definitions : List (String × (D → Option type.Value))) (disk : Disk) :
    Except Fault (List (Handle type)) × Manager D × Disk :=
  let names := definitions.map (·.1)
  match manager.checkDefinitions type names with
  | .error fault => (.error fault, manager, disk)
  | .ok () =>
    let id := manager.nextGroup
    let manager := { manager with nextGroup := id + 1 }
    match Group.open? id (definitions.map fun d => ⟨d.1, type, d.2⟩) manager.config disk with
    | (.error fault, disk) => (.error fault, manager, disk)
    | (.ok group, disk) =>
      (.ok (handles type id manager.identity 0 names),
        { manager with names := manager.names ++ names, groups := manager.groups ++ [group] }, disk)

def verify {type : KeyType} (manager : Manager D) (handle : Handle type) : Except Fault (Group D) :=
  if handle.owner ≠ manager.identity then .error (.foreignPredicate handle.name)
  else
    match manager.groups.find? fun group => group.id = handle.group with
    | none => .error (.foreignPredicate handle.name)
    | some group =>
      if group.name? handle.ordinal = some handle.name then .ok group
      else .error (.foreignPredicate handle.name)

def setGroup (group : Group D) (manager : Manager D) : Manager D :=
  { manager with groups := manager.groups.map fun g => if g.id = group.id then group else g }

def onGroupOf {α σ : Type} {type : KeyType} (handle : Handle type)
    (operation : Group D → σ → Except Fault α × Group D × σ) (manager : Manager D) (state : σ) :
    Except Fault α × Manager D × σ :=
  match manager.verify handle with
  | .error fault => (.error fault, manager, state)
  | .ok group =>
    let (result, group, state) := operation group state
    (result, manager.setGroup group, state)

def onEach {σ : Type} (operation : Group D → σ → Except Fault Unit × Group D × σ) :
    List (Group D) → σ → Except Fault Unit × List (Group D) × σ
  | [], state => (.ok (), [], state)
  | group :: rest, state =>
    match operation group state with
    | (.error fault, group, state) => (.error fault, group :: rest, state)
    | (.ok (), group, state) =>
      let (result, rest, state) := onEach operation rest state
      (result, group :: rest, state)

def onGroups {σ : Type} (operation : Group D → σ → Except Fault Unit × Group D × σ)
    (manager : Manager D) (state : σ) : Except Fault Unit × Manager D × σ :=
  let (result, groups, state) := onEach operation manager.groups state
  (result, { manager with groups }, state)

def insert (manager : Manager D) (data : D) (id : RecordId) (disk : Disk) :
    Except Fault Unit × Manager D × Disk :=
  manager.onGroups (fun group disk => group.insert data id disk) disk

def update (manager : Manager D) (tracker : ChangeTracker D) (disk : Disk) :
    Except Fault Unit × Manager D × ChangeTracker D × Disk :=
  manager.onGroups (fun group (tracker, disk) => group.update tracker disk) (tracker, disk)

def delete (manager : Manager D) (tracker : ChangeTracker D) (disk : Disk) :
    Except Fault Unit × Manager D × ChangeTracker D × Disk :=
  manager.onGroups (fun group (tracker, disk) => group.delete tracker disk)
    (tracker.setKind .delete, disk)

def upsert (manager : Manager D) (data : D) (id : RecordId) (tracker : Option (ChangeTracker D))
    (disk : Disk) : Except Fault Unit × Manager D × Option (ChangeTracker D) × Disk :=
  match tracker with
  | none =>
    let (result, manager, disk) := manager.insert data id disk
    (result, manager, none, disk)
  | some tracker =>
    if tracker.kind = .insert then
      let (result, manager, disk) := manager.insert data id disk
      (result, manager, some tracker, disk)
    else
      let (result, manager, tracker, disk) := manager.update tracker disk
      (result, manager, some tracker, disk)

def groupBound (manager : Manager D) : Nat :=
  match manager.groups.getLast? with
  | some group => group.id + 1
  | none => 0

def setBefore (manager : Manager D) (data : D) (id : RecordId) (tracker : ChangeTracker D) :
    ChangeTracker D :=
  (manager.groups.foldl (fun tracker group => tracker.setBeforeKeys group.id (group.evaluate data))
    (tracker.setBefore data id)).markCaptured manager.groupBound

def beginUpdate (manager : Manager D) (data : D) (id : RecordId) : ChangeTracker D :=
  manager.setBefore data id {}

def flush (manager : Manager D) (disk : Disk) : Except Fault Unit × Manager D × Disk :=
  manager.onGroups (fun group => group.onStore fun store disk => (.ok (), store.flush disk)) disk

def evict (manager : Manager D) (disk : Disk) : Except Fault Unit × Manager D × Disk :=
  manager.onGroups (fun group => group.onStore fun store disk => (.ok (), store.evict disk)) disk

end Manager

end PredicateIndex
