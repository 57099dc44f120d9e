import PredicateIndex.Proofs.GroupRequests
import PredicateIndex.Proofs.LegibleManagers

/-!
# What writes append

A write that a group carries out appends one record to its log, which says what
the write says; the links in its slots are those of the log. So the records
after some writes are the records before them with one more for each write, in
their order, and the index that they stand for is marked by the writes.
-/

set_option autoImplicit false

namespace PredicateIndex

def IndexWrite.record (write : IndexWrite) : LogRecord :=
  ⟨write.id, write.tombstone, write.key.retain fun _ => true⟩

namespace CompositeKey

theorem chains_retain_all (key : CompositeKey) : chains (key.retain fun _ => true) = key.chains :=
  chains_map fun _ => rfl

end CompositeKey

namespace LogRecord

variable {record : LogRecord} {write : IndexWrite}

theorem chains_of_unlinked (h : record.unlinked = write.record) :
    record.key.chains = write.key.chains := by
  rw [← CompositeKey.chains_retain_all record.key, ← CompositeKey.chains_retain_all write.key]
  exact congrArg (fun record => record.key.chains) h

theorem id_of_unlinked (h : record.unlinked = write.record) : record.id = write.id :=
  congrArg LogRecord.id h

theorem tombstone_of_unlinked (h : record.unlinked = write.record) :
    record.tombstone = write.tombstone := congrArg LogRecord.tombstone h

end LogRecord

namespace Store

/-- Records that say what writes say mark the index as these do. -/
theorem indexOf_append (history : List LogRecord) {added : List LogRecord}
    {writes : List IndexWrite} (h : added.map LogRecord.unlinked = writes.map IndexWrite.record) :
    indexOf (history ++ added) = IndexWrite.markAll writes (indexOf history) := by
  induction added generalizing history writes with
  | nil =>
    obtain rfl := List.map_eq_nil_iff.mp h.symm
    rw [List.append_nil]
    rfl
  | cons record rest ih =>
    cases writes with
    | nil => cases h
    | cons write others =>
      obtain ⟨hfirst, hrest⟩ := List.cons.inj h
      have hone : indexOf (history ++ [record]) = write.mark (indexOf history) := by
        funext chain id
        rw [indexOf_snoc, LogRecord.chains_of_unlinked hfirst, LogRecord.id_of_unlinked hfirst,
          LogRecord.tombstone_of_unlinked hfirst]
        rfl
      rw [← List.singleton_append, ← List.append_assoc, ih _ hrest, hone]
      rfl

/-- One of them says of its id and its chains what one of the writes says. -/
theorem exists_record_iff {added : List LogRecord} {writes : List IndexWrite}
    (h : added.map LogRecord.unlinked = writes.map IndexWrite.record)
    (told : RecordId → Bool → List Bytes → Prop) :
    (∃ record ∈ added, told record.id record.tombstone record.key.chains) ↔
      ∃ write ∈ writes, told write.id write.tombstone write.key.chains := by
  induction added generalizing writes with
  | nil =>
    obtain rfl := List.map_eq_nil_iff.mp h.symm
    simp
  | cons record rest ih =>
    cases writes with
    | nil => cases h
    | cons write others =>
      obtain ⟨hfirst, hrest⟩ := List.cons.inj h
      simp only [List.mem_cons, exists_eq_or_imp, ih hrest, LogRecord.chains_of_unlinked hfirst,
        LogRecord.id_of_unlinked hfirst, LogRecord.tombstone_of_unlinked hfirst]

end Store

namespace Group

variable {D : Type} {group middle after : Group D} {place : Path} {disk opened other : Disk}
  {writes others : List IndexWrite}

structure Appends (group : Group D) (place : Path) (disk : Disk) (writes : List IndexWrite)
    (after : Group D) (other : Disk) : Prop where
  id : after.id = group.id
  predicates : after.predicates = group.predicates
  awaiting : after.store.awaitingRecovery = group.store.awaitingRecovery
  records : ∀ history, group.store.Keeps disk place history → ∃ added,
    after.store.Keeps other place (history ++ added) ∧
      added.map LogRecord.unlinked = writes.map IndexWrite.record ∧
      ((∀ record ∈ history, record.key.Ordered) → ∀ record ∈ history ++ added, record.key.Ordered)

namespace Appends

theorem ofSessions {spared : Path → Prop} (group : Group D) (sessions : SessionPool)
    (hs : Disk.Spares spared disk other) (hp : spared (place ++ [Log.fileName])) :
    group.Appends place disk [] { group with store := { group.store with sessions } } other := by
  refine ⟨rfl, rfl, rfl, fun history hk => ⟨[], ?_, rfl, by simp⟩⟩
  rw [List.append_nil]
  exact (hk.frame hs hp).congr rfl rfl rfl

theorem refl (group : Group D) (place : Path) (disk : Disk) :
    group.Appends place disk [] group disk :=
  ⟨rfl, rfl, rfl, fun history hk => ⟨[], by rwa [List.append_nil], rfl, by simp⟩⟩

theorem trans (h : group.Appends place disk writes middle opened)
    (ha : middle.Appends place opened others after other) :
    group.Appends place disk (writes ++ others) after other := by
  refine ⟨ha.id.trans h.id, ha.predicates.trans h.predicates, ha.awaiting.trans h.awaiting,
    fun history hk => ?_⟩
  obtain ⟨added, hadded, hsays, hordered⟩ := h.records history hk
  obtain ⟨more, hmore, hsaid, hlater⟩ := ha.records _ hadded
  refine ⟨added ++ more, ?_, ?_, fun ho => ?_⟩
  · rwa [← List.append_assoc]
  · rw [List.map_append, List.map_append, hsays, hsaid]
  · rw [← List.append_assoc]
    exact hlater (hordered ho)

theorem frame {spared : Path → Prop} {last : Disk} (h : group.Appends place disk writes after other)
    (hs : Disk.Spares spared other last) (hp : spared (place ++ [Log.fileName])) :
    group.Appends place disk writes after last := by
  have hframe := h.trans (ofSessions after after.store.sessions hs hp)
  rwa [List.append_nil] at hframe

theorem legible (h : group.Appends place disk writes after other) (hl : group.Legible place disk) :
    after.Legible place other := by
  obtain ⟨hsized, history, hk, ho⟩ := hl
  obtain ⟨added, hadded, -, hordered⟩ := h.records history hk
  exact ⟨h.predicates ▸ hsized, history ++ added, hadded, hordered ho⟩

theorem put (hl : group.Legible place disk) (hr : group.store.awaitingRecovery = false)
    {write : IndexWrite} (hw : write.Fits) : ∃ after other,
      group.put write disk = (.ok (), after, other) ∧
        group.Appends place disk [write] after other ∧
        Disk.Spares (Store.Outside place) disk other := by
  obtain ⟨session, borrowed, hborrow⟩ : ∃ session borrowed,
    group.store.acquire = (session, borrowed) := ⟨_, _, rfl⟩
  have hsame : borrowed = { group.store with sessions := borrowed.sessions } := by
    rw [Store.acquire] at hborrow
    obtain ⟨-, rfl⟩ := Prod.mk.inj hborrow
    rfl
  have hkeeps : ∀ history, group.store.Keeps disk place history →
      borrowed.Keeps disk place history := fun history hk => hsame ▸ hk.congr rfl rfl rfl
  have hready : borrowed.awaitingRecovery = false := hsame ▸ hr
  -- the outcome is the same for every history that the store may be known to keep
  obtain ⟨known, hknown, -⟩ := hl.records
  obtain ⟨written, other, hu, -, hwritten, hs⟩ :=
    (hkeeps known hknown).upsert hready hw.1 session write.id write.tombstone
  refine ⟨{ group with store := written.release session.completeWrite }, other, ?_,
    ⟨rfl, rfl, hwritten.trans hr.symm, fun history hk => ?_⟩, hs.weaken fun path hp => hp.1⟩
  · rw [Group.put, Store.put, hborrow]
    simp only [hu]
  · obtain ⟨found, next, hfound, hkept, -, -⟩ :=
      (hkeeps history hk).upsert hready hw.1 session write.id write.tombstone
    rw [hu] at hfound
    cases hfound
    refine ⟨_, hkept.congr rfl rfl rfl, ?_, fun ho record hm => ?_⟩
    · rw [List.map_singleton, Store.unlinked_written]
      rfl
    · rcases List.mem_append.mp hm with hm | hm
      · exact ho record hm
      · rw [List.mem_singleton.mp hm]
        exact Store.ordered_written borrowed hw.2 write.id write.tombstone

theorem putAll (hl : group.Legible place disk) (hr : group.store.awaitingRecovery = false)
    (hw : ∀ write ∈ writes, write.Fits) : ∃ after other,
      Group.putAll writes group disk = (.ok (), after, other) ∧
        group.Appends place disk writes after other ∧
        Disk.Spares (Store.Outside place) disk other := by
  induction writes generalizing group disk with
  | nil =>
    obtain ⟨history, hk, -⟩ := hl.records
    exact ⟨group, disk, rfl, .refl group place disk, .refl hk.wellFormed⟩
  | cons write rest ih =>
    obtain ⟨first, opened, hput, hfirst, hspares⟩ := put hl hr (hw write List.mem_cons_self)
    obtain ⟨after, other, hrest, hafter, hlater⟩ :=
      ih (hfirst.legible hl) (hfirst.awaiting.trans hr)
        fun later hm => hw later (List.mem_cons_of_mem write hm)
    refine ⟨after, other, ?_, hfirst.trans hafter, hspares.trans hlater⟩
    rw [Group.putAll, hput]
    exact hrest

/-- Writes that a group carries out have been appended, whether it awaits recovery or not. -/
theorem putAll_ok (hl : group.Legible place disk) (hw : ∀ write ∈ writes, write.Fits)
    (hp : Group.putAll writes group disk = (.ok (), after, other)) :
    group.Appends place disk writes after other := by
  cases hr : group.store.awaitingRecovery with
  | false =>
    obtain ⟨found, next, hfound, happends, -⟩ := putAll hl hr hw
    rw [hp] at hfound
    cases hfound
    exact happends
  | true =>
    cases writes with
    | nil =>
      cases hp
      exact .refl group place disk
    | cons write rest =>
      obtain ⟨sessions, hrefused⟩ :=
        Store.put_awaiting hr write.key write.id write.tombstone disk
      rw [Group.putAll, Group.put, hrefused] at hp
      cases hp

end Appends

end Group

end PredicateIndex
