import PredicateIndex.Proofs.GroupRuns
import PredicateIndex.Proofs.Registration

/-!
# Managers whose chains can be read

Whatever a manager is asked for, and whether or not it succeeds, the logs of its
groups keep records whose slots stand in the order of their ordinals. As long as
these logs stay within the bounds of their words every chain can be read.
-/

set_option autoImplicit false

namespace PredicateIndex

theorem Store.Logs.spares_run {store : Store} {disk : Disk} {place : Path}
    {history : List LogRecord} (h : store.Logs disk place history) (ops : List Store.Op) :
    Disk.Spares (Store.Outside place) disk (Store.run ops (store, disk)).2 := by
  induction ops generalizing store disk history with
  | nil => exact .refl h.wellFormed
  | cons op ops ih =>
    obtain ⟨hlogs, hspares⟩ := h.step op
    exact hspares.trans (ih hlogs)

namespace Group

variable {D : Type} {group after : Group D} {place : Path} {disk other : Disk}

structure Legible (group : Group D) (place : Path) (disk : Disk) : Prop where
  sized : Sized group.predicates
  records : ∃ history, group.store.Keeps disk place history ∧
    ∀ record ∈ history, record.key.Ordered

namespace Legible

theorem frame {spared : Path → Prop} (h : group.Legible place disk)
    (hs : Disk.Spares spared disk other) (hp : spared (place ++ [Log.fileName])) :
    group.Legible place other := by
  obtain ⟨history, hk, ho⟩ := h.records
  exact ⟨h.sized, history, hk.frame hs hp, ho⟩

theorem runs (h : group.Legible place disk) (hr : group.Runs disk after other) :
    after.Legible place other ∧ Disk.Spares (Store.Outside place) disk other := by
  obtain ⟨ops, hops, hordered, hrun⟩ := hr.run
  obtain ⟨history, hk, ho⟩ := h.records
  have hkept := hk.run fun op hm => (hops op hm).1
  have hspares := hk.toLogs.spares_run ops
  rw [← hrun] at hkept hspares
  refine ⟨⟨hr.predicates ▸ h.sized, _, hkept, fun record hm => ?_⟩, hspares⟩
  rcases List.mem_append.mp hm with hm | hm
  · exact ho record hm
  · exact Store.added_ordered hordered _ record hm

theorem readChain (h : group.Legible place disk) (hf : group.store.log.Fits) (ordinal : UInt8)
    (key : Bytes) (dead : DeadRecords) :
    ∃ ids, (group.readChain ordinal key false disk dead).1 = .ok (some ids) := by
  obtain ⟨history, hk, ho⟩ := h.records
  obtain ⟨ids, hread, -⟩ := hk.readChain_indexOf hf ho ordinal key dead
  exact ⟨ids, hread⟩

end Legible

end Group

namespace Manager

variable {D : Type} {manager : Manager D} {disk : Disk} {base : Path}

structure Legible (manager : Manager D) (disk : Disk) (base : Path) : Prop where
  distinct : manager.groups.Pairwise fun g h => g.id ≠ h.id
  group : ∀ group ∈ manager.groups, group.Legible (groupPlace base group.id) disk

theorem New.legible (h : manager.New disk) : ∃ base, manager.Legible disk base := by
  obtain ⟨base, hbase⟩ := h.base
  exact ⟨base, h.distinct, fun group hg => ⟨(h.stores group hg).1, [], hbase group hg, by simp⟩⟩

namespace Legible

theorem fanOut {σ : Type} (h : manager.Legible disk base)
    (operation : Group D → σ → Except Fault Unit × Group D × σ) (view : σ → Disk) (good : σ → Prop)
    (hop : ∀ (group : Group D) state, Sized group.predicates → good state →
      group.Runs (view state) (operation group state).2.1 (view (operation group state).2.2) ∧
        good (operation group state).2.2)
    (state : σ) (hv : view state = disk) (hgood : good state) :
    manager.SameGroups (manager.onGroups operation state).2.1 ∧
      (manager.onGroups operation state).2.1.Legible (view (manager.onGroups operation state).2.2)
        base := by
  obtain ⟨hids, hall, -⟩ := onEach_keeps operation
    (fun group state => group.Legible (groupPlace base group.id) (view state) ∧ good state)
    (fun group state hg => by
      obtain ⟨hlegible, hstate⟩ := hg
      obtain ⟨hruns, hafter⟩ := hop group state hlegible.sized hstate
      obtain ⟨hkept, hspares⟩ := hlegible.runs hruns
      exact ⟨hruns.id, ⟨hruns.id ▸ hkept, hafter⟩,
        fun other hne ho => ⟨ho.1.frame hspares (outside_of_ne base hne), hafter⟩⟩)
    state h.distinct fun group hg => ⟨hv ▸ h.group group hg, hgood⟩
  exact ⟨⟨rfl, rfl, rfl, rfl, hids⟩, distinct_of_ids hids h.distinct, fun group hg => (hall group hg).1⟩

theorem insert (h : manager.Legible disk base) (data : D) (id : RecordId) :
    manager.SameGroups (manager.insert data id disk).2.1 ∧
      (manager.insert data id disk).2.1.Legible (manager.insert data id disk).2.2 base :=
  h.fanOut (fun group disk => group.insert data id disk) (fun disk => disk) (fun _ => True)
    (fun group disk hs _ => ⟨.insert group hs data id disk, trivial⟩) disk rfl trivial

theorem update (h : manager.Legible disk base) {tracker : ChangeTracker D} (ht : tracker.Fits) :
    manager.SameGroups (manager.update tracker disk).2.1 ∧
      (manager.update tracker disk).2.1.Legible (manager.update tracker disk).2.2.2 base :=
  h.fanOut (fun group (state : ChangeTracker D × Disk) => group.update state.1 state.2)
    (fun state => state.2) (fun state => state.1.Fits)
    (fun group state hs ht => Group.Runs.update group hs ht state.2) (tracker, disk) rfl ht

theorem delete (h : manager.Legible disk base) {tracker : ChangeTracker D} (ht : tracker.Fits) :
    manager.SameGroups (manager.delete tracker disk).2.1 ∧
      (manager.delete tracker disk).2.1.Legible (manager.delete tracker disk).2.2.2 base :=
  h.fanOut (fun group (state : ChangeTracker D × Disk) => group.delete state.1 state.2)
    (fun state => state.2) (fun state => state.1.Fits)
    (fun group state hs ht => Group.Runs.delete group hs ht state.2)
    (tracker.setKind .delete, disk) rfl (ht.congr rfl)

theorem upsert (h : manager.Legible disk base) (data : D) (id : RecordId)
    {tracker : Option (ChangeTracker D)} (ht : ∀ given, tracker = some given → given.Fits) :
    manager.SameGroups (manager.upsert data id tracker disk).2.1 ∧
      (manager.upsert data id tracker disk).2.1.Legible
        (manager.upsert data id tracker disk).2.2.2 base := by
  rw [Manager.upsert.eq_def]
  cases tracker with
  | none => exact h.insert data id
  | some given =>
    dsimp only
    split
    · exact h.insert data id
    · exact h.update (ht given rfl)

theorem flush (h : manager.Legible disk base) :
    manager.SameGroups (manager.flush disk).2.1 ∧
      (manager.flush disk).2.1.Legible (manager.flush disk).2.2 base :=
  h.fanOut _ (fun disk => disk) (fun _ => True)
    (fun group disk _ _ => ⟨.step group disk .flush trivial trivial trivial, trivial⟩) disk rfl trivial

theorem evict (h : manager.Legible disk base) :
    manager.SameGroups (manager.evict disk).2.1 ∧
      (manager.evict disk).2.1.Legible (manager.evict disk).2.2 base :=
  h.fanOut _ (fun disk => disk) (fun _ => True)
    (fun group disk _ _ => ⟨.step group disk .evict trivial trivial trivial, trivial⟩) disk rfl trivial

theorem setGroup (h : manager.Legible disk base) {group : Group D}
    (hg : group.Legible (groupPlace base group.id) disk) :
    manager.SameGroups (manager.setGroup group) ∧ (manager.setGroup group).Legible disk base := by
  have hsame := SameGroups.setGroup manager group
  refine ⟨hsame, distinct_of_ids hsame.ids h.distinct, fun changed hc => ?_⟩
  obtain ⟨other, ho, rfl⟩ := List.mem_map.mp hc
  split
  · exact hg
  · exact h.group other ho

theorem readChain (h : manager.Legible disk base) (source : ChainSource) (key : Bytes)
    (cancelled : Bool) :
    manager.SameGroups (manager.readChain source key cancelled disk).2 ∧
      (manager.readChain source key cancelled disk).2.Legible disk base := by
  rw [Manager.readChain]
  cases hfind : manager.groups.find? fun group => group.id = source.group with
  | none => exact ⟨.refl manager, h⟩
  | some group =>
    have hruns := Group.Runs.readChain group source.ordinal key cancelled disk []
    have hread := ((h.group group (List.mem_of_find?_eq_some hfind)).runs hruns).1
    rw [← hruns.id] at hread
    exact h.setGroup hread

/-- Every chain of a group that is there can be read. -/
theorem reads (h : manager.Legible disk base) (hf : ∀ group ∈ manager.groups, group.store.log.Fits)
    {source : ChainSource} (hs : source.group ∈ manager.groups.map Group.id) (key : Bytes) :
    ∃ ids, (manager.readChain source key false disk).1 = .ok (some ids) := by
  obtain ⟨group, hg, hid⟩ := List.mem_map.mp hs
  rw [Manager.readChain, ← hid, find?_of_distinct h.distinct hg]
  exact (h.group group hg).readChain (hf group hg) source.ordinal key []

end Legible

end Manager

end PredicateIndex
