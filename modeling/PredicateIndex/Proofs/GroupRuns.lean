import PredicateIndex.Proofs.GroupIndex
import PredicateIndex.Proofs.Neighbours

/-!
# What a group asks of its store

Whatever a group is asked to do, and whether or not it succeeds, its store is
taken through operations that leave checkpoints alone, with keys that fit the
log. For an update this holds of every tracker whose captured keys fit, and the
keys that are captured on the way fit too.
-/

set_option autoImplicit false

namespace PredicateIndex

theorem Store.put_run (store : Store) (key : CompositeKey) (id : RecordId) (tombstone : Bool)
    (disk : Disk) : ∃ session returned, (store.put key id tombstone disk).2 =
      Store.run [.acquire, .upsert session key id tombstone, .release returned] (store, disk) := by
  obtain ⟨session, borrowed, hb⟩ : ∃ session borrowed, store.acquire = (session, borrowed) :=
    ⟨_, _, rfl⟩
  rw [Store.put, hb]
  dsimp only
  cases hu : borrowed.upsert session key id tombstone disk with
  | error fault =>
    refine ⟨session, session, ?_⟩
    simp only [Store.run, Store.step, hb, hu]
  | ok written =>
    obtain ⟨address, returned, after, other⟩ := written
    refine ⟨session, returned, ?_⟩
    simp only [Store.run, Store.step, hb, hu]

namespace ChangeTracker

variable {D : Type} {tracker : ChangeTracker D} {group : Nat} {key : CompositeKey}

def Fits (tracker : ChangeTracker D) : Prop :=
  ∀ group keys, tracker.groupKeys? group = some keys → ∀ key, keys.before = .captured key →
    key.Fits ∧ key.Ordered

theorem Fits.captured (h : tracker.Fits) (hb : tracker.beforeKeys? group = some (.captured key)) :
    key.Fits ∧ key.Ordered := by
  rw [beforeKeys?] at hb
  split at hb
  · rename_i keys hk
    exact h group keys hk key (Option.some.inj hb)
  · repeat' split at hb
    all_goals cases hb

theorem fits_of_groups (h : tracker.groups = []) : tracker.Fits := by
  intro id keys hkeys
  rw [groupKeys?, h] at hkeys
  cases hkeys

theorem Fits.congr {other : ChangeTracker D} (h : tracker.Fits)
    (hg : other.groups = tracker.groups) :
    other.Fits := by
  intro id keys hkeys
  rw [groupKeys?, hg] at hkeys
  exact h id keys hkeys

theorem Fits.setBeforeKeys (h : tracker.Fits) (hk : key.Fits ∧ key.Ordered) (group : Nat) :
    (tracker.setBeforeKeys group key).Fits := by
  intro id keys hkeys found hfound
  rw [ChangeTracker.setBeforeKeys, groupKeys?_setGroup] at hkeys
  split at hkeys
  · cases hkeys
    dsimp only [BeforeKeys.ofKey] at hfound
    split at hfound
    · cases hfound
      exact hk
    · cases hfound
  · exact h id keys hkeys found hfound

theorem Fits.setAfterKeys (h : tracker.Fits) (group : Nat) (after : CompositeKey)
    (hasChanges : Bool) : (tracker.setAfterKeys group after hasChanges).Fits := by
  intro id keys hkeys found hfound
  rw [ChangeTracker.setAfterKeys, groupKeys?_setGroup] at hkeys
  split at hkeys
  · cases hkeys
    cases hg : tracker.groupKeys? group with
    | none => simp [hg] at hfound
    | some known =>
      simp only [hg, Option.map_some, Option.getD_some] at hfound
      exact h group known hg found hfound
  · exact h id keys hkeys found hfound

end ChangeTracker

namespace Group

variable {D : Type}

structure Runs (group : Group D) (disk : Disk) (after : Group D) (other : Disk) : Prop where
  id : after.id = group.id
  predicates : after.predicates = group.predicates
  run : ∃ ops : List Store.Op, (∀ op ∈ ops, op.Fits ∧ op.Silent) ∧ (∀ op ∈ ops, op.Ordered) ∧
    (after.store, other) = Store.run ops (group.store, disk)

namespace Runs

variable {group middle after : Group D} {disk opened other : Disk}

theorem refl (group : Group D) (disk : Disk) : group.Runs disk group disk :=
  ⟨rfl, rfl, [], by simp, by simp, rfl⟩

theorem trans (h : group.Runs disk middle opened) (ha : middle.Runs opened after other) :
    group.Runs disk after other := by
  obtain ⟨ops, hops, hordered, hrun⟩ := h.run
  obtain ⟨later, hlater, hafterwards, hafter⟩ := ha.run
  refine ⟨ha.id.trans h.id, ha.predicates.trans h.predicates, ops ++ later, fun op hm => ?_,
    fun op hm => ?_, ?_⟩
  · exact (List.mem_append.mp hm).elim (hops op) (hlater op)
  · exact (List.mem_append.mp hm).elim (hordered op) (hafterwards op)
  · rw [Store.run_append, ← hrun, hafter]

theorem step (group : Group D) (disk : Disk) (op : Store.Op) (hf : op.Fits) (hs : op.Silent)
    (ho : op.Ordered) :
    group.Runs disk { group with store := (Store.step op (group.store, disk)).1 }
      (Store.step op (group.store, disk)).2 :=
  ⟨rfl, rfl, [op], fun _ hm => List.mem_singleton.mp hm ▸ ⟨hf, hs⟩,
    fun _ hm => List.mem_singleton.mp hm ▸ ho, rfl⟩

theorem put (group : Group D) {write : IndexWrite} (hw : write.Fits) (disk : Disk) :
    group.Runs disk (group.put write disk).2.1 (group.put write disk).2.2 := by
  obtain ⟨session, returned, hrun⟩ := group.store.put_run write.key write.id write.tombstone disk
  refine ⟨rfl, rfl, _, fun op ho => ?_, fun op ho => ?_, hrun⟩
  · rcases (by simpa using ho : op = _ ∨ op = _ ∨ op = _) with rfl | rfl | rfl
    · exact ⟨trivial, trivial⟩
    · exact ⟨hw.1, trivial⟩
    · exact ⟨trivial, trivial⟩
  · rcases (by simpa using ho : op = _ ∨ op = _ ∨ op = _) with rfl | rfl | rfl
    · trivial
    · exact hw.2
    · trivial

theorem putAll (group : Group D) {writes : List IndexWrite} (hw : ∀ write ∈ writes, write.Fits)
    (disk : Disk) :
    group.Runs disk (putAll writes group disk).2.1 (Group.putAll writes group disk).2.2 := by
  induction writes generalizing group disk with
  | nil => exact .refl group disk
  | cons write rest ih =>
    have hput := put group (hw write List.mem_cons_self) disk
    rw [Group.putAll]
    rcases hp : group.put write disk with ⟨fault | _, after, other⟩ <;> rw [hp] at hput
    · exact hput
    · exact hput.trans (ih after (fun later hl => hw later (List.mem_cons_of_mem write hl)) other)

theorem matching (group : Group D) {writes : List IndexWrite} (hw : ∀ write ∈ writes, write.Fits)
    (disk : Disk) : group.Runs disk (Group.putAll (UpdatePlan.matching writes) group disk).2.1
      (Group.putAll (UpdatePlan.matching writes) group disk).2.2 :=
  putAll group (fun write hm => hw write (List.mem_filter.mp hm).1) disk

theorem readChain (group : Group D) (ordinal : UInt8) (key : Bytes) (cancelled : Bool) (disk : Disk)
    (dead : DeadRecords) :
    group.Runs disk (group.readChain ordinal key cancelled disk dead).2.1 disk := by
  obtain ⟨session, hread⟩ : ∃ session,
      (group.readChain ordinal key cancelled disk dead).2.1.store =
        group.store.acquire.2.release session := ⟨_, rfl⟩
  refine ⟨rfl, rfl, [.acquire, .release session], fun op ho => ?_, fun op ho => ?_, ?_⟩
  · rcases (by simpa using ho : op = _ ∨ op = _) with rfl | rfl <;> exact ⟨trivial, trivial⟩
  · rcases (by simpa using ho : op = _ ∨ op = _) with rfl | rfl <;> trivial
  · rw [hread]
    rfl

theorem insert (group : Group D) (hs : Sized group.predicates) (data : D) (id : RecordId)
    (disk : Disk) :
    group.Runs disk (group.insert data id disk).2.1 (group.insert data id disk).2.2 :=
  matching group (fun _ hm => List.mem_singleton.mp hm ▸ hs.write data id false) disk

theorem captureBefore {group : Group D} (hs : Sized group.predicates) {tracker last : ChangeTracker D}
    (ht : tracker.Fits) (h : group.captureBefore tracker = .ok last) : last.Fits := by
  rw [Group.captureBefore] at h
  split at h
  · split at h
    · rename_i data id _
      cases h
      exact ht.setBeforeKeys (hs.write data id false) group.id
    · cases h
  · cases h
    exact ht

theorem plan {group : Group D} (hs : Sized group.predicates) {tracker : ChangeTracker D}
    (ht : tracker.Fits) {data : D} {plan : UpdatePlan}
    (h : group.plan (group.evaluate data) tracker = .ok plan) :
    ∀ write ∈ plan.writes, write.Fits := by
  have hafter := hs.write data tracker.afterId false
  rw [Group.plan] at h
  split at h
  · cases h
  · cases h
    intro write hw
    rw [List.mem_singleton.mp (List.mem_filter.mp hw).1]
    exact hafter
  · refine UpdatePlan.fits_writes ⟨CompositeKey.fits_ofOutputs ?_ ?_, CompositeKey.ordered_ofOutputs _⟩
      hafter h
    · rw [List.length_replicate]
      exact hs.count
    · intro code hc
      cases List.eq_of_mem_replicate hc
  · rename_i before hb
    exact UpdatePlan.fits_writes (ht.captured hb) hafter h

theorem update (group : Group D) (hs : Sized group.predicates) {tracker : ChangeTracker D}
    (ht : tracker.Fits) (disk : Disk) :
    group.Runs disk (group.update tracker disk).2.1 (group.update tracker disk).2.2.2 ∧
      (group.update tracker disk).2.2.1.Fits := by
  rw [Group.update]
  cases hc : group.captureBefore tracker with
  | error fault => exact ⟨.refl group disk, ht⟩
  | ok captured =>
    have hcaptured := captureBefore hs ht hc
    dsimp only
    split
    · exact ⟨.refl group disk, hcaptured⟩
    · rename_i data _ _
      rw [applyAfter]
      split
      · exact ⟨.refl group disk, hcaptured⟩
      · rename_i plan hp
        have hput := putAll group (Runs.plan hs hcaptured hp) disk
        rcases hw : Group.putAll plan.writes group disk with ⟨fault | _, after, other⟩ <;>
          rw [hw] at hput
        · exact ⟨hput, hcaptured⟩
        · exact ⟨hput, hcaptured.setAfterKeys _ _ _⟩

theorem delete (group : Group D) (hs : Sized group.predicates) {tracker : ChangeTracker D}
    (ht : tracker.Fits) (disk : Disk) :
    group.Runs disk (group.delete tracker disk).2.1 (group.delete tracker disk).2.2.2 ∧
      (group.delete tracker disk).2.2.1.Fits := by
  rw [Group.delete]
  cases hc : group.captureBefore tracker with
  | error fault => exact ⟨.refl group disk, ht⟩
  | ok captured =>
    have hcaptured := captureBefore hs ht hc
    dsimp only
    split
    · exact ⟨.refl group disk, hcaptured⟩
    · rename_i before hb
      exact ⟨put group (hcaptured.captured hb) disk, hcaptured⟩
    · exact ⟨.refl group disk, hcaptured⟩
    · exact ⟨.refl group disk, hcaptured⟩

end Runs

end Group

end PredicateIndex
