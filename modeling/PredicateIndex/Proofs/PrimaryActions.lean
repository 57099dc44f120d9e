import PredicateIndex.Proofs.ManagerFiles
import PredicateIndex.Proofs.PrimaryRun

/-!
# Everything that can be done to a primary store

Besides the operations on records, predicates can be registered at any time, the
manager can be used directly, with any tracker, and so can the store of a single
group. Keys lead to their records and stores stand in their places through all
of this, whatever fails on the way.
-/

set_option autoImplicit false

namespace PredicateIndex

namespace Primary

inductive Action (K V : Type) where
  | perform (op : Op K V)
  | register (type : KeyType) (definitions : List (String × (KeyValue K V → Option type.Value)))
  | recover (index log : Option Token)
  | insert (data : KeyValue K V) (id : RecordId)
  | update (tracker : ChangeTracker (KeyValue K V))
  | delete (tracker : ChangeTracker (KeyValue K V))
  | write (group : Nat) (write : IndexWrite)
  | onStore (group : Nat) (op : Store.Op)
  | recoverStore (group : Nat) (index log : Option Token)

variable {K V : Type} [DecidableEq K]

def onGroup (id : Nat) (operation : Group (KeyValue K V) → Disk → Group (KeyValue K V) × Disk)
    (state : Primary K V × Disk) : Primary K V × Disk :=
  match state.1.manager.groups.find? fun group => group.id = id with
  | none => state
  | some group =>
    let (group, disk) := operation group state.2
    ({ state.1 with manager := state.1.manager.setGroup group }, disk)

def act : Action K V → Primary K V × Disk → Primary K V × Disk
  | .perform op, state => step op state
  | .register type definitions, (primary, disk) =>
    let (_, manager, disk) := primary.manager.register type definitions disk
    ({ primary with manager }, disk)
  | .recover index log, (primary, disk) =>
    let (_, manager, disk) := primary.manager.recover index log disk
    ({ primary with manager }, disk)
  | .insert data id, (primary, disk) =>
    let (_, manager, disk) := primary.manager.insert data id disk
    ({ primary with manager }, disk)
  | .update tracker, (primary, disk) =>
    let (_, manager, _, disk) := primary.manager.update tracker disk
    ({ primary with manager }, disk)
  | .delete tracker, (primary, disk) =>
    let (_, manager, _, disk) := primary.manager.delete tracker disk
    ({ primary with manager }, disk)
  | .write group write, state => onGroup group (fun group disk => (group.put write disk).2) state
  | .onStore group op, state =>
    onGroup group (fun group disk =>
      let (store, disk) := Store.step op (group.store, disk)
      ({ group with store }, disk)) state
  | .recoverStore group index log, state =>
    onGroup group (fun group disk =>
      let (_, store, disk) := group.store.recover index log disk
      ({ group with store }, disk)) state

def actAll : List (Action K V) → Primary K V × Disk → Primary K V × Disk
  | [], state => state
  | action :: actions, state => actAll actions (act action state)

structure Sound (primary : Primary K V) (disk : Disk) : Prop where
  stands : primary.manager.Stands disk
  filed : primary.Filed

namespace Sound

variable {primary : Primary K V} {disk : Disk}

theorem ofManager (h : primary.Sound disk) {manager : Manager (KeyValue K V)} {other : Disk}
    (hm : manager.Stands other) : Sound { primary with manager } other :=
  ⟨hm, h.filed⟩

theorem insertNew (h : primary.Sound disk) (data : KeyValue K V) :
    (primary.insertNew data disk).2.1.Sound (primary.insertNew data disk).2.2 := by
  have hm := h.stands.insert data (primary.recordId primary.tail)
  rcases insertNew_cases primary data disk with
    ⟨fault, manager, other, hi, hop⟩ | ⟨manager, other, hi, hop⟩ <;> rw [hi] at hm <;> rw [hop]
  · exact h.ofManager hm
  · exact ⟨hm, Filed.push (h.ofManager hm).filed data⟩

theorem changeInPlace (h : primary.Sound disk) {address : Nat} {data : KeyValue K V}
    (hat : primary.At address data) (change : V → V) :
    (primary.changeInPlace address change disk).2.1.Sound
      (primary.changeInPlace address change disk).2.2 := by
  have hm := h.stands.upsert { data with value := change data.value } (primary.recordId address)
    (some (primary.updateOf address address data change))
  have hf := h.filed.replace hat (show KeyValue.key { data with value := change data.value } = _
    from rfl)
  obtain ⟨result, manager, last, other, hu, hop⟩ := changeInPlace_eq hat change disk
  rw [hu] at hm
  rw [hop]
  exact ⟨hm, hf⟩

theorem changeByCopy (h : primary.Sound disk) {address : Nat} {data : KeyValue K V}
    (hat : primary.At address data) (change : V → V) :
    (primary.changeByCopy address change disk).2.1.Sound
      (primary.changeByCopy address change disk).2.2 := by
  have hm := h.stands.update (primary.updateOf address primary.tail data change)
  rcases changeByCopy_cases hat change disk with
    ⟨fault, manager, last, other, hu, hop⟩ | ⟨manager, last, other, hu, hop⟩ <;>
    rw [hu] at hm <;> rw [hop]
  · exact h.ofManager hm
  · exact ⟨hm, Filed.copy (h.ofManager hm).filed hat rfl⟩

theorem changeRecord (h : primary.Sound disk) {key : K} {address : Nat}
    (hk : primary.address? key = some address) (change : V → V) :
    (primary.changeRecord address change disk).2.1.Sound
      (primary.changeRecord address change disk).2.2 := by
  obtain ⟨data, hat, -⟩ := h.filed key address hk
  rw [Primary.changeRecord]
  split
  · exact h.changeInPlace hat change
  · exact h.changeByCopy hat change

theorem delete (h : primary.Sound disk) (key : K) :
    (primary.delete key disk).2.1.Sound (primary.delete key disk).2.2 := by
  cases hk : primary.address? key with
  | none =>
    rw [Primary.delete, hk]
    exact h
  | some address =>
    obtain ⟨data, hat, rfl⟩ := h.filed key address hk
    have hm := h.stands.delete (primary.manager.beginUpdate data (primary.recordId address))
    rcases delete_cases hk hat disk with
      ⟨fault, manager, last, other, hd, hop⟩ | ⟨manager, last, other, hd, hop⟩ <;>
      rw [hd] at hm <;> rw [hop]
    · exact h.ofManager hm
    · exact ⟨hm, Filed.remove (h.ofManager hm).filed hat⟩

theorem step (h : primary.Sound disk) (op : Op K V) :
    (Primary.step op (primary, disk)).1.Sound (Primary.step op (primary, disk)).2 := by
  cases op with
  | upsert key value =>
    rw [Primary.step, Primary.upsert]
    cases hk : primary.address? key with
    | none => exact h.insertNew ⟨key, value⟩
    | some address => exact h.changeRecord hk _
  | updateWith key change =>
    rw [Primary.step, Primary.updateWith]
    cases hk : primary.address? key with
    | none => exact h
    | some address => exact h.changeRecord hk change
  | delete key => exact h.delete key
  | shiftReadOnly => exact ⟨h.stands, h.filed⟩
  | flush => exact h.ofManager h.stands.flush
  | evict => exact h.ofManager h.stands.evict
  | takeCheckpoint kind clock => exact h.ofManager (h.stands.takeCheckpoint kind clock)
  | completeCheckpoint => exact h.ofManager h.stands.completeCheckpoint
  | readChain source key => exact h.ofManager (h.stands.readChain source key false)

theorem onGroup (h : primary.Sound disk) (id : Nat)
    {operation : Group (KeyValue K V) → Disk → Group (KeyValue K V) × Disk}
    (hop : ∀ (group : Group (KeyValue K V)) place, group.store.Stands disk place →
      group.Stays place disk (operation group disk).1 (operation group disk).2) :
    (Primary.onGroup id operation (primary, disk)).1.Sound
      (Primary.onGroup id operation (primary, disk)).2 := by
  rw [Primary.onGroup]
  split
  · exact h
  · rename_i group hf
    exact h.ofManager (h.stands.setGroup (List.mem_of_find?_eq_some hf) (hop group))

theorem act (h : primary.Sound disk) (action : Action K V) :
    (Primary.act action (primary, disk)).1.Sound (Primary.act action (primary, disk)).2 := by
  cases action with
  | perform op => exact h.step op
  | register type definitions => exact h.ofManager (h.stands.register type definitions)
  | recover index log => exact h.ofManager (h.stands.recover index log)
  | insert data id => exact h.ofManager (h.stands.insert data id)
  | update tracker => exact h.ofManager (h.stands.update tracker)
  | delete tracker => exact h.ofManager (h.stands.delete tracker)
  | write group write =>
    exact h.onGroup group fun _ _ hs => ⟨rfl, rfl, hs.put write.key write.id write.tombstone⟩
  | onStore group op => exact h.onGroup group fun _ _ hs => ⟨rfl, rfl, hs.step op⟩
  | recoverStore group index log =>
    exact h.onGroup group fun _ _ hs => ⟨rfl, rfl, hs.recover index log⟩

theorem actAll (h : primary.Sound disk) (actions : List (Action K V)) :
    (Primary.actAll actions (primary, disk)).1.Sound (Primary.actAll actions (primary, disk)).2 := by
  induction actions generalizing primary disk with
  | nil => exact h
  | cons action actions ih => exact ih (h.act action)

theorem opened {config : Config} {identity : Nat} {disk other : Disk}
    {manager : Manager (KeyValue K V)} (hw : disk.WellFormed)
    (h : Manager.open? config identity disk = (.ok manager, other)) :
    Sound (Primary.ofManager manager : Primary K V) other :=
  ⟨(Manager.New.opened hw h).stands, fun _ _ hk => by cases hk⟩

end Sound

def leftBehind (actions : List (Action K V)) : Disk :=
  match Manager.open? { dir := ["db"] } 0 {} with
  | (.error _, _) => {}
  | (.ok manager, disk) =>
    let (primary, disk) := actAll actions (ofManager manager, disk)
    primary.manager.close disk

theorem wellFormed_leftBehind (actions : List (Action K V)) : (leftBehind actions).WellFormed := by
  rw [leftBehind]
  split
  · exact .empty
  · rename_i manager disk hopen
    have hsound : Sound (ofManager manager : Primary K V) disk := .opened .empty hopen
    exact Manager.wellFormed_close _ (hsound.actAll actions).stands.wellFormed

end Primary

end PredicateIndex
