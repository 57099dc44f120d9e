import PredicateIndex.Proofs.GroupKeys
import PredicateIndex.Proofs.StoreRun

/-!
# The index of a group

The log of a group stands for an index: on each chain the newest record for an
id counts. Every write changes the index by its mark, so an operation of a group
has the effect that the writes of its plan have.
-/

set_option autoImplicit false

namespace PredicateIndex

namespace Store

def indexOf (history : List LogRecord) : Index := fun chain id =>
  liveIn id (history.filter fun record => chain ∈ record.key.chains).reverse

theorem indexOf_nil : indexOf [] = fun _ _ => false := rfl

theorem indexOf_snoc (history : List LogRecord) (record : LogRecord) (chain : Bytes)
    (id : RecordId) :
    indexOf (history ++ [record]) chain id =
      if chain ∈ record.key.chains ∧ record.id = id then !record.tombstone
      else indexOf history chain id := by
  rw [indexOf, indexOf, List.filter_append, List.reverse_append]
  by_cases h : chain ∈ record.key.chains <;> simp [h, liveIn]

theorem Keeps.readChain_indexOf {store : Store} {disk : Disk} {place : Path}
    {history : List LogRecord} (h : store.Keeps disk place history) (hf : store.log.Fits)
    (ho : ∀ record ∈ history, record.key.Ordered) (ordinal : UInt8) (key : Bytes)
    (dead : DeadRecords) :
    ∃ ids, (store.readChain ordinal key false disk dead).1 = .ok (some ids) ∧
      RecordId.Ascending ids ∧
      ∀ id, id ∈ ids ↔ indexOf history (chainKey ordinal key) id = true := by
  obtain ⟨ids, hr, ha, hm⟩ := h.readChain hf ho ordinal key dead
  have hmap : (onChain (chainKey ordinal key) (Log.addressed Log.origin history)).map (·.2) =
      history.filter fun record => chainKey ordinal key ∈ record.key.chains := by
    have hmap := Log.map_addressed Log.origin history
    conv => rhs; rw [← hmap, List.filter_map]
    rfl
  refine ⟨ids, hr, ha, fun id => ?_⟩
  rw [hm id, List.map_reverse, hmap]
  rfl

end Store

def keyOf {D : Type} (predicates : List (Predicate D)) (data : D) : CompositeKey :=
  .ofOutputs (predicates.map fun predicate => predicate.evaluate data)

structure Sized {D : Type} (predicates : List (Predicate D)) : Prop where
  count : predicates.length ≤ 255
  codes : ∀ predicate ∈ predicates, ∀ data code, predicate.evaluate data = some code →
    code.length < 65536

namespace Sized

variable {D : Type} {predicates : List (Predicate D)}

theorem fits (h : Sized predicates) (data : D) : (keyOf predicates data).Fits := by
  apply CompositeKey.fits_ofOutputs
  · rw [List.length_map]
    exact h.count
  · intro code hc
    obtain ⟨predicate, hp, he⟩ := List.mem_map.mp hc
    exact h.codes predicate hp data code he

theorem write (h : Sized predicates) (data : D) (id : RecordId) (tombstone : Bool) :
    IndexWrite.Fits ⟨keyOf predicates data, id, tombstone⟩ :=
  ⟨h.fits data, CompositeKey.ordered_ofOutputs _⟩

theorem length_keyOf (predicates : List (Predicate D)) (data : D) :
    (keyOf predicates data).length = predicates.length := by
  rw [keyOf, CompositeKey.length_ofOutputs, List.length_map]

theorem keyOf_unmatched {data : D} (h : (keyOf predicates data).anyMatch = false) :
    keyOf predicates data = .unmatched predicates.length := by
  rw [keyOf, CompositeKey.unmatched]
  congr 1
  rw [List.eq_replicate_iff]
  refine ⟨List.length_map _, fun output ho => ?_⟩
  obtain ⟨i, hi⟩ := List.mem_iff_getElem?.mp ho
  have hs : (keyOf predicates data)[i]? = some { ordinal := UInt8.ofNat i, key := output } := by
    rw [keyOf, CompositeKey.getElem?_ofOutputs, hi]
    rfl
  have hn := List.any_eq_false.mp h _ (List.mem_of_getElem? hs)
  simpa [Slot.isNull] using hn

end Sized

namespace ChangeTracker

variable {D : Type}

structure Captured (tracker : ChangeTracker D) (group : Nat) (key : CompositeKey) : Prop where
  through : tracker.capturedThrough.isSome
  keys : tracker.beforeKeys? group = some (.ofKey key)

theorem needsBefore_through {tracker : ChangeTracker D} (h : tracker.capturedThrough.isSome)
    (group : Nat) : tracker.needsBefore group = false := by
  rw [needsBefore, Option.isNone_eq_false_iff.mpr h, Bool.false_and]

theorem groupKeys?_setGroup (tracker : ChangeTracker D) (group other : Nat) (keys : GroupKeys) :
    (tracker.setGroup group keys).groupKeys? other =
      if other = group then some keys else tracker.groupKeys? other := by
  have hf := Lookup.filter_eq tracker.groups (fun g => decide (g ≠ group)) other
  rw [groupKeys?, setGroup, Lookup.cons_eq, hf]
  by_cases h : other = group <;> simp [h, groupKeys?]

theorem beforeKeys?_setAfterKeys (tracker : ChangeTracker D) {group other : Nat}
    (hn : other ≠ group) (after : CompositeKey) (hasChanges : Bool) :
    (tracker.setAfterKeys group after hasChanges).beforeKeys? other = tracker.beforeKeys? other := by
  rw [beforeKeys?, setAfterKeys, groupKeys?_setGroup, if_neg hn]
  rfl

theorem Captured.setAfterKeys {tracker : ChangeTracker D} {group other : Nat} {key : CompositeKey}
    (h : tracker.Captured other key) (hn : other ≠ group) (after : CompositeKey)
    (hasChanges : Bool) : (tracker.setAfterKeys group after hasChanges).Captured other key where
  through := h.through
  keys := (tracker.beforeKeys?_setAfterKeys hn after hasChanges).trans h.keys

end ChangeTracker

namespace Group

variable {D : Type}

structure Indexed (group : Group D) (place : Path) (disk : Disk) (predicates : List (Predicate D))
    (index : Index) : Prop where
  same : group.predicates = predicates
  sized : Sized predicates
  ready : group.store.awaitingRecovery = false
  records : ∃ history, group.store.Keeps disk place history ∧
    (∀ record ∈ history, record.key.Ordered) ∧ Store.indexOf history = index

structure Reads (group : Group D) (place : Path) (disk : Disk) (predicates : List (Predicate D))
    (index : Index) : Prop where
  same : group.predicates = predicates
  sized : Sized predicates
  records : ∃ history, group.store.Keeps disk place history ∧
    (∀ record ∈ history, record.key.Ordered) ∧ Store.indexOf history = index

/-- What an update means for a group is told by its keys before and after it. -/
theorem plan_captured {group : Group D} {tracker : ChangeTracker D} {data : D}
    (hc : tracker.Captured group.id (keyOf group.predicates data)) (after : CompositeKey) :
    group.plan after tracker = UpdatePlan.ofChange tracker.kind (keyOf group.predicates data) after
      tracker.beforeId tracker.afterId := by
  rw [plan, hc.keys, BeforeKeys.ofKey]
  cases hm : (keyOf group.predicates data).anyMatch with
  | true => rfl
  | false =>
    rw [Sized.keyOf_unmatched hm, size]
    rfl

namespace Indexed

variable {group : Group D} {place : Path} {disk other : Disk} {predicates : List (Predicate D)}
  {index : Index}

theorem reads (h : group.Indexed place disk predicates index) :
    group.Reads place disk predicates index :=
  ⟨h.same, h.sized, h.records⟩

theorem evaluate (h : group.Indexed place disk predicates index) (data : D) :
    group.evaluate data = keyOf predicates data := by
  rw [Group.evaluate, h.same, keyOf]

theorem frame {spared : Path → Prop} (h : group.Indexed place disk predicates index)
    (hs : Disk.Spares spared disk other) (hp : spared (place ++ [Log.fileName])) :
    group.Indexed place other predicates index := by
  obtain ⟨history, hk, ho, hi⟩ := h.records
  exact { h with records := ⟨history, hk.frame hs hp, ho, hi⟩ }

theorem onStore (h : group.Indexed place disk predicates index) {store : Store}
    (hr : store.awaitingRecovery = group.store.awaitingRecovery)
    (hk : ∀ history, group.store.Keeps disk place history → store.Keeps other place history) :
    Indexed { group with store } place other predicates index := by
  obtain ⟨history, hkeeps, ho, hi⟩ := h.records
  exact
    { same := h.same
      sized := h.sized
      ready := hr.trans h.ready
      records := ⟨history, hk history hkeeps, ho, hi⟩ }

theorem wellFormed (h : group.Indexed place disk predicates index) : disk.WellFormed := by
  obtain ⟨history, hk, -⟩ := h.records
  exact hk.wellFormed

theorem put (h : group.Indexed place disk predicates index) {write : IndexWrite}
    (hw : write.Fits) :
    ∃ after other, group.put write disk = (.ok (), after, other) ∧ after.id = group.id ∧
      after.Indexed place other predicates (write.mark index) ∧
      Disk.Spares (· ≠ place ++ [Log.fileName]) disk other := by
  obtain ⟨history, hk, ho, rfl⟩ := h.records
  obtain ⟨session, borrowed, hborrow⟩ : ∃ session borrowed,
    group.store.acquire = (session, borrowed) := ⟨_, _, rfl⟩
  have hb : borrowed.Keeps disk place history ∧ borrowed.awaitingRecovery = false := by
    rw [Store.acquire] at hborrow
    obtain ⟨-, rfl⟩ := Prod.mk.inj hborrow
    exact ⟨hk.congr rfl rfl rfl, h.ready⟩
  obtain ⟨written, other, hu, hkw, hr, hs⟩ :=
    hb.1.upsert hb.2 hw.1 session write.id write.tombstone
  refine ⟨{ group with store := written.release session.completeWrite }, other, ?_, rfl, ?_, hs⟩
  · rw [Group.put, Store.put, hborrow]
    simp only [hu]
  · refine ⟨h.same, h.sized, hr, _, hkw.congr rfl rfl rfl, fun record hm => ?_, ?_⟩
    · rcases List.mem_append.mp hm with hm | hm
      · exact ho record hm
      · rw [List.mem_singleton.mp hm]
        exact Store.ordered_written borrowed hw.2 write.id write.tombstone
    · funext chain id
      rw [Store.indexOf_snoc, Store.chains_written]
      rfl

theorem putAll (h : group.Indexed place disk predicates index) {writes : List IndexWrite}
    (hw : ∀ write ∈ writes, write.Fits) :
    ∃ after other, Group.putAll writes group disk = (.ok (), after, other) ∧ after.id = group.id ∧
      after.Indexed place other predicates (IndexWrite.markAll writes index) ∧
      Disk.Spares (· ≠ place ++ [Log.fileName]) disk other := by
  induction writes generalizing group disk index with
  | nil => exact ⟨group, disk, rfl, rfl, h, .refl h.wellFormed⟩
  | cons write rest ih =>
    obtain ⟨first, opened, hf, hid, hi, hs⟩ := h.put (hw write List.mem_cons_self)
    obtain ⟨after, other, ha, hida, hia, hsa⟩ :=
      ih hi fun later hl => hw later (List.mem_cons_of_mem write hl)
    refine ⟨after, other, ?_, hida.trans hid, hia, hs.trans hsa⟩
    rw [Group.putAll, hf]
    exact ha

theorem matching (h : group.Indexed place disk predicates index) {writes : List IndexWrite}
    (hw : ∀ write ∈ writes, write.Fits) :
    ∃ after other, Group.putAll (UpdatePlan.matching writes) group disk = (.ok (), after, other) ∧
      after.id = group.id ∧
      after.Indexed place other predicates (IndexWrite.markAll writes index) ∧
      Disk.Spares (· ≠ place ++ [Log.fileName]) disk other := by
  have hfits : ∀ write ∈ UpdatePlan.matching writes, write.Fits := fun write hm =>
    hw write (List.mem_filter.mp hm).1
  have hp := h.putAll hfits
  rwa [IndexWrite.markAll_matching] at hp

theorem insert (h : group.Indexed place disk predicates index) (data : D) (id : RecordId) :
    ∃ after other, group.insert data id disk = (.ok (), after, other) ∧ after.id = group.id ∧
      after.Indexed place other predicates
        (IndexWrite.mark ⟨keyOf predicates data, id, false⟩ index) ∧
      Disk.Spares (· ≠ place ++ [Log.fileName]) disk other := by
  rw [Group.insert, h.evaluate]
  exact h.matching fun write hm => List.mem_singleton.mp hm ▸ h.sized.write data id false

theorem captureBefore {tracker : ChangeTracker D} {key : CompositeKey}
    (hc : tracker.Captured group.id key) : group.captureBefore tracker = .ok tracker := by
  rw [Group.captureBefore, ChangeTracker.needsBefore_through hc.through]
  rfl

theorem delete_captured {tracker : ChangeTracker D} {key : CompositeKey}
    (hc : tracker.Captured group.id key) (disk : Disk) :
    group.delete tracker disk =
      match Group.putAll (UpdatePlan.matching [⟨key, tracker.beforeId, true⟩]) group disk with
      | (result, after, other) => (result, after, tracker, other) := by
  rw [Group.delete, captureBefore hc, UpdatePlan.matching, List.filter_cons, List.filter_nil]
  simp only [hc.keys, BeforeKeys.ofKey]
  cases hm : key.anyMatch with
  | true =>
    simp only [if_true, Group.putAll]
    rcases group.put ⟨key, tracker.beforeId, true⟩ disk with ⟨fault | _, after, other⟩ <;> rfl
  | false => rfl

/-- An update of a group carries out its plan. -/
theorem update (h : group.Indexed place disk predicates index) {tracker : ChangeTracker D}
    {old new : D} {id : RecordId} {plan : UpdatePlan}
    (hc : tracker.Captured group.id (keyOf predicates old)) (ha : tracker.after = some (new, id))
    (hp : UpdatePlan.ofChange tracker.kind (keyOf predicates old) (keyOf predicates new)
      tracker.beforeId tracker.afterId = .ok plan) :
    ∃ after other, group.update tracker disk =
        (.ok (), after, tracker.setAfterKeys group.id plan.after plan.hasChanges, other) ∧
      after.id = group.id ∧
      after.Indexed place other predicates (IndexWrite.markAll plan.writes index) ∧
      Disk.Spares (· ≠ place ++ [Log.fileName]) disk other := by
  have hfits := UpdatePlan.fits_writes (h.sized.write old id true) (h.sized.write new id true) hp
  obtain ⟨after, other, hput, hid, hi, hs⟩ := h.putAll hfits
  refine ⟨after, other, ?_, hid, hi, hs⟩
  have hplan := plan_captured (h.same.symm ▸ hc) (keyOf predicates new)
  rw [h.same, hp] at hplan
  rw [Group.update, captureBefore hc]
  simp only [ha, applyAfter, h.evaluate, hplan, hput, hid]

/-- A deletion takes the id off the chains of the record's key. -/
theorem delete (h : group.Indexed place disk predicates index) {tracker : ChangeTracker D}
    {data : D} (hc : tracker.Captured group.id (keyOf predicates data)) :
    ∃ after other, group.delete tracker disk = (.ok (), after, tracker, other) ∧
      after.id = group.id ∧
      after.Indexed place other predicates
        (IndexWrite.mark ⟨keyOf predicates data, tracker.beforeId, true⟩ index) ∧
      Disk.Spares (· ≠ place ++ [Log.fileName]) disk other := by
  obtain ⟨after, other, hput, hid, hi, hs⟩ := h.matching fun write hm =>
    List.mem_singleton.mp hm ▸ h.sized.write data tracker.beforeId true
  exact ⟨after, other, by rw [delete_captured hc, hput], hid, hi, hs⟩

end Indexed

end Group

end PredicateIndex

