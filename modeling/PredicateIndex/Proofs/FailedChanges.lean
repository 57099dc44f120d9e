import PredicateIndex.Proofs.GroupRequests
import PredicateIndex.Proofs.PrimaryActions

/-!
# Changes that fail

A change of a record fails only if some group awaits recovery and would have to
write for it. The groups registered before that one have then carried the change
out, and so has a record that is changed in place; everything else answers as
before. This holds in every state that a primary store and its manager come to,
whatever was done with the stores of single groups.
-/

set_option autoImplicit false

namespace PredicateIndex

namespace Request

variable {D : Type} {manager : Manager D} {disk : Disk}

theorem onEach_insert (data : D) (id : RecordId) (groups : List (Group D))
    (tracker : ChangeTracker D) (disk : Disk) :
    Manager.onEach (insert data id).work groups (tracker, disk) =
      ((Manager.onEach (fun group disk => group.insert data id disk) groups disk).1,
        (Manager.onEach (fun group disk => group.insert data id disk) groups disk).2.1, tracker,
        (Manager.onEach (fun group disk => group.insert data id disk) groups disk).2.2) := by
  induction groups generalizing disk with
  | nil => rfl
  | cons group rest ih =>
    rw [Manager.onEach, Manager.onEach, work]
    rcases hi : group.insert data id disk with ⟨fault | _, after, other⟩
    · rfl
    · simp only [ih]

theorem captured (h : manager.Stands disk) (data : D) (id : RecordId) :
    (manager.beginUpdate data id).before = some (data, id) ∧ ∀ group ∈ manager.groups,
      (manager.beginUpdate data id).Captured group.id (keyOf (manager.schema group.id) data) :=
  Manager.captured_beginUpdate
    (fun group hg => by rw [Manager.schema_eq h.distinct hg]; rfl) id

theorem kind_update (h : manager.Stands disk) (old new : D) (id newId : RecordId) :
    ((manager.beginUpdate old id).setAfter new newId).kind = .inPlace ∨
      ((manager.beginUpdate old id).setAfter new newId).kind = .copy := by
  simp only [ChangeTracker.setAfter, (captured h old id).1]
  split
  · exact Or.inl rfl
  · exact Or.inr rfl

end Request

namespace Primary

variable {K V : Type} [DecidableEq K]

def inPlace? (primary : Primary K V) : Op K V → Option Nat
  | .upsert key _ => (primary.address? key).filter fun address => primary.readOnly ≤ address
  | .updateWith key _ => (primary.address? key).filter fun address => primary.readOnly ≤ address
  | _ => none

def fault? (primary : Primary K V) (disk : Disk) : Op K V → Option Fault
  | .upsert key value =>
    match primary.upsert key value disk with
    | (.error fault, _, _) => some fault
    | (.ok _, _, _) => none
  | .updateWith key change =>
    match primary.updateWith key change disk with
    | (.error fault, _, _) => some fault
    | (.ok _, _, _) => none
  | .delete key =>
    match primary.delete key disk with
    | (.error fault, _, _) => some fault
    | (.ok _, _, _) => none
  | _ => none

structure SameRecords (primary after : Primary K V) (spot : Option Nat) : Prop where
  index : after.index = primary.index
  version : after.version = primary.version
  tail : after.tail = primary.tail
  slot : ∀ address, spot ≠ some address → after.slot address = primary.slot address

namespace SameRecords

variable {primary after : Primary K V} {spot : Option Nat}

theorem get (h : primary.SameRecords after spot) {key : K}
    (hk : ∀ address, spot = some address → primary.address? key ≠ some address) :
    after.get key = primary.get key := by
  have hid : ∀ address, after.recordId address = primary.recordId address := fun address => by
    rw [recordId, recordId, h.version]
  rw [Primary.get, Primary.get, show after.address? key = primary.address? key by
    rw [address?, address?, h.index]]
  cases ha : primary.address? key with
  | none => rfl
  | some address =>
    dsimp only
    rw [h.slot address (fun hs => hk address hs ha), hid]

omit [DecidableEq K] in
theorem read (h : primary.SameRecords after spot) {id : RecordId}
    (hi : ∀ address, spot = some address → id ≠ primary.recordId address) :
    after.read id = primary.read id := by
  rw [Primary.read, Primary.read, h.version, h.tail]
  by_cases hgone : id.version ≠ primary.version ∨ primary.tail ≤ id.address.toNat
  · rw [if_pos hgone, if_pos hgone]
  · rw [if_neg hgone, if_neg hgone]
    refine h.slot _ fun hs => hi _ hs ?_
    obtain ⟨hv, -⟩ : id.version = primary.version ∧ id.address.toNat < primary.tail := by
      simpa using hgone
    rw [recordId, UInt64.ofNat_toNat, ← hv]

end SameRecords

section

variable {primary after : Primary K V} {disk other : Disk} {fault : Fault}

omit [DecidableEq K] in
theorem changeInPlace_update {address : Nat} {data : KeyValue K V}
    (hs : primary.manager.Stands disk) (hat : primary.At address data) (change : V → V) :
    ∃ result manager last final,
      primary.manager.update (primary.updateOf address address data change) disk =
        (result, manager, last, final) ∧
      primary.changeInPlace address change disk =
        (result.map fun _ => primary.recordId address,
          { primary.setSlot address (some { data with value := change data.value }) with manager },
          final) := by
  have hkind : (primary.updateOf address address data change).kind ≠ .insert := by
    rcases Request.kind_update hs data { data with value := change data.value }
      (primary.recordId address) (primary.recordId address) with hk | hk <;>
    rw [updateOf, hk] <;> decide
  obtain ⟨result, manager, last, final, hu, hop⟩ := changeInPlace_eq hat change disk
  simp only [Manager.upsert, if_neg hkind] at hu
  rcases hm : primary.manager.update (primary.updateOf address address data change) disk with
    ⟨outcome, middle, changed, other⟩
  rw [hm] at hu
  cases hu
  exact ⟨_, _, changed, _, rfl, hop⟩

end

def evenThenLarge : List (Action Nat Nat) :=
  [.register .bool [("even", fun data => some (data.value % 2 == 0))],
    .register .bool [("large", fun data => if 3 < data.value then some true else none)]]

def checkpointed : List (Action Nat Nat) :=
  evenThenLarge ++ [.perform (.takeCheckpoint .full 1), .perform .completeCheckpoint]

def halfRecovered : List (Action Nat Nat) := evenThenLarge ++ [.recoverStore 0 none none]

def evenHandle : Handle .bool := ⟨"even", 0, 0, 1⟩

def newValue : Op K V → V → V
  | .upsert _ value, _ => value
  | .updateWith _ change, old => change old
  | _, old => old

theorem step_inPlace {primary : Primary K V} (hk : primary.Filed) {op : Op K V} {address : Nat}
    (hp : primary.inPlace? op = some address) (disk : Disk) :
    ∃ data manager, primary.At address data ∧ primary.address? data.key = some address ∧
      (step op (primary, disk)).1 =
        { primary.setSlot address (some ⟨data.key, newValue op data.value⟩) with manager } := by
  have hchange : ∀ key change, ((primary.address? key).filter fun address =>
      primary.readOnly ≤ address) = some address → ∃ data manager, primary.At address data ∧
        data.key = key ∧ primary.address? key = some address ∧
        (primary.changeRecord address change disk).2.1 =
          { primary.setSlot address (some ⟨data.key, change data.value⟩) with manager } := by
    intro key change h
    obtain ⟨ha, hr⟩ := Option.filter_eq_some_iff.mp h
    obtain ⟨data, hat, hkey⟩ := hk key address ha
    obtain ⟨result, manager, -, other, -, hop⟩ := changeInPlace_eq hat change disk
    rw [changeRecord, if_pos (of_decide_eq_true hr), hop]
    exact ⟨data, manager, hat, hkey, ha, rfl⟩
  cases op with
  | upsert key value =>
    obtain ⟨data, manager, hat, rfl, ha, hop⟩ := hchange key (fun _ => value) hp
    refine ⟨data, manager, hat, ha, ?_⟩
    rw [step, upsert, ha]
    exact hop
  | updateWith key change =>
    obtain ⟨data, manager, hat, rfl, ha, hop⟩ := hchange key change hp
    refine ⟨data, manager, hat, ha, ?_⟩
    rw [step, updateWith, ha]
    exact hop
  | _ => cases hp

/-- A record that is changed in place has its new value from then on, for `get` and `read` alike,
whether or not the change comes through. -/
theorem value_inPlace {config : Config} {identity : Nat} {disk opened last : Disk}
    {manager : Manager (KeyValue K V)} {actions : List (Action K V)} {primary : Primary K V}
    {op : Op K V} {address : Nat} (hw : disk.WellFormed)
    (hopen : Manager.open? config identity disk = (.ok manager, opened))
    (hrun : actAll actions (ofManager manager, opened) = (primary, last))
    (ht : primary.tail < UInt64.size) (hp : primary.inPlace? op = some address) :
    let after := (step op (primary, last)).1
    ∃ key old, primary.get key = .ok (some (primary.recordId address, old)) ∧
      primary.read (primary.recordId address) = .ok (some ⟨key, old⟩) ∧
      after.get key = .ok (some (primary.recordId address, newValue op old)) ∧
      after.read (primary.recordId address) = .ok (some ⟨key, newValue op old⟩) := by
  have hsound := (Sound.opened hw hopen : Sound (ofManager manager : Primary K V) opened).actAll actions
  rw [hrun] at hsound
  obtain ⟨data, manager, hat, ha, hop⟩ := step_inPlace hsound.filed hp last
  intro after
  have hafter : after.At address ⟨data.key, newValue op data.value⟩ := by
    have hslot := slot_setSlot hat (some ⟨data.key, newValue op data.value⟩) address
    rw [if_pos rfl] at hslot
    exact (congrArg (fun primary => primary.slot address) hop).trans hslot
  have htail : after.tail = primary.tail := by
    rw [show after = _ from hop]
    exact tail_setSlot primary address _
  have hid : primary.recordId address = after.recordId address := by
    rw [show after = _ from hop]
    rfl
  have hindex : after.address? data.key = some address := by
    rw [show after = _ from hop]
    exact ha
  refine ⟨data.key, data.value, get_of_at ha hat, ?_, ?_, ?_⟩
  · rw [read_recordId hat.bounds.2 ht]
    exact hat
  · rw [hid]
    exact get_of_at hindex hafter
  · rw [hid, read_recordId hafter.bounds.2 (htail ▸ ht)]
    exact hafter

def failsInPlace : Bool :=
  match Manager.open? (D := KeyValue Nat Nat) { dir := ["db"] } 1 (leftBehind checkpointed) with
  | (.ok manager, opened) =>
    match actAll (halfRecovered ++ [.perform (.upsert 1 2)]) (ofManager manager, opened) with
    | (primary, last) => decide ((primary.fault? last (.upsert 1 4)).isSome = true ∧
        primary.inPlace? (.upsert 1 4) = some 1 ∧ primary.log = [some ⟨1, 2⟩] ∧
        primary.version = 1)
  | (.error _, _) => false

theorem value_inPlace_half_recovered : ∃ (manager : Manager (KeyValue Nat Nat))
    (primary : Primary Nat Nat) (opened last : Disk) (fault : Fault),
    Manager.open? { dir := ["db"] } 1 (leftBehind checkpointed) = (.ok manager, opened) ∧
      actAll (halfRecovered ++ [.perform (.upsert 1 2)]) (ofManager manager, opened) =
        (primary, last) ∧
      primary.fault? last (.upsert 1 4) = some fault ∧
      primary.get 1 = .ok (some (⟨1, 1⟩, 2)) ∧
      (step (.upsert 1 4) (primary, last)).1.get 1 = .ok (some (⟨1, 1⟩, 4)) ∧
      (step (.upsert 1 4) (primary, last)).1.read ⟨1, 1⟩ = .ok (some ⟨1, 4⟩) := by
  have hfacts : failsInPlace = true := by decide +kernel
  unfold failsInPlace at hfacts
  split at hfacts
  · rename_i manager opened hopen
    rcases hrun : actAll (halfRecovered ++ [.perform (.upsert 1 2)]) (ofManager manager, opened)
      with ⟨primary, last⟩
    simp only [hrun] at hfacts
    obtain ⟨hsome, hplace, hlog, hversion⟩ := of_decide_eq_true hfacts
    obtain ⟨fault, hf⟩ := Option.isSome_iff_exists.mp hsome
    have htail : primary.tail = 2 := by rw [tail, hlog]; rfl
    have hid : primary.recordId 1 = ⟨1, 1⟩ := by rw [recordId, hversion]; rfl
    obtain ⟨key, old, hget, hread, hgetAfter, hreadAfter⟩ :=
      value_inPlace (wellFormed_leftBehind checkpointed) hopen hrun (htail ▸ by decide) hplace
    have hslot : primary.read (primary.recordId 1) = .ok (some ⟨1, 2⟩) := by
      rw [read_recordId (by omega) (htail ▸ by decide), slot, hlog]
      rfl
    obtain ⟨rfl, rfl⟩ : key = 1 ∧ old = 2 := by
      simpa using hread.symm.trans hslot
    rw [hid] at hget hgetAfter hreadAfter
    exact ⟨manager, primary, opened, last, fault, hopen, hrun, hf, hget, hgetAfter, hreadAfter⟩
  · cases hfacts

end Primary

end PredicateIndex
