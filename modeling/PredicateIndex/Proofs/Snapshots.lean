import Mathlib.Data.List.Nodup
import PredicateIndex.Proofs.GroupRuns
import PredicateIndex.Proofs.ManagerIndex
import PredicateIndex.Proofs.StoreLives

/-!
# Snapshots of all groups

A full checkpoint of a manager is one checkpoint of each group, all under one
token. A snapshot remembers the manager and the disk at the time it was taken,
so it tells for every group what its store has to come back to. A plan is what
the managers of one directory have in common: the groups and their predicates.
-/

set_option autoImplicit false

namespace PredicateIndex

structure Snapshot (D : Type) where
  token : Token
  manager : Manager D
  disk : Disk

structure Notes (D : Type) where
  taken : Option (Snapshot D) := none
  completed : List (Snapshot D) := []

structure Plan (D : Type) where
  dir : Path
  base : Path
  groups : List (Nat × List (Predicate D))
  nonempty : groups ≠ []
  distinct : (groups.map Prod.fst).Nodup
  sized : ∀ group ∈ groups, Sized group.2

variable {D : Type}

namespace Manager

theorem not_prefix_groupPlace (base : Path) {group other : Nat} (h : other ≠ group) (rest : Path) :
    ¬ groupPlace base group <+: groupPlace base other ++ rest := by
  rintro ⟨more, he⟩
  rw [groupPlace, groupPlace, List.append_assoc, List.append_assoc] at he
  have hname := List.append_cancel_left he
  exact h (Config.groupName_injective (List.cons.inj hname).1).symm

structure Follows (manager : Manager D) (plan : Plan D) : Prop where
  dir : manager.config.dir = plan.dir
  ids : manager.groups.map Group.id = plan.groups.map Prod.fst
  planned : ∀ group ∈ manager.groups, (group.id, group.predicates) ∈ plan.groups

namespace Follows

variable {plan : Plan D} {manager : Manager D}

theorem distinct (h : manager.Follows plan) : manager.groups.Pairwise fun g h => g.id ≠ h.id := by
  have hids := plan.distinct
  rw [← h.ids] at hids
  exact List.pairwise_map.mp hids

theorem exists_group (h : manager.Follows plan) : ∃ group, group ∈ manager.groups := by
  apply List.exists_mem_of_ne_nil
  intro hnil
  have hids := h.ids
  rw [hnil, List.map_nil] at hids
  exact plan.nonempty (List.map_eq_nil_iff.mp hids.symm)

theorem find? (h : manager.Follows plan) {id : Nat} {predicates : List (Predicate D)}
    (hp : (id, predicates) ∈ plan.groups) : ∃ group ∈ manager.groups,
      manager.groups.find? (fun group => group.id = id) = some group ∧ group.id = id ∧
        group.predicates = predicates := by
  have hid : id ∈ manager.groups.map Group.id := h.ids ▸ List.mem_map_of_mem hp
  obtain ⟨group, hg, rfl⟩ := List.mem_map.mp hid
  have hsame := List.inj_on_of_nodup_map plan.distinct (h.planned group hg) hp rfl
  exact ⟨group, hg, find?_of_distinct h.distinct hg, rfl, congrArg Prod.snd hsame⟩

end Follows

end Manager

open Manager

def Snapshot.moment? (snapshot : Snapshot D) (id : Nat) : Option Moment :=
  (snapshot.manager.groups.find? fun group => group.id = id).map fun group =>
    ⟨.full, snapshot.token, group.store, snapshot.disk⟩

theorem Snapshot.moment?_eq {snapshot : Snapshot D} {plan : Plan D}
    (h : snapshot.manager.Follows plan) {group : Group D} (hg : group ∈ snapshot.manager.groups) :
    snapshot.moment? group.id = some ⟨.full, snapshot.token, group.store, snapshot.disk⟩ := by
  rw [moment?, find?_of_distinct h.distinct hg]
  rfl

theorem Snapshot.token_moment? {snapshot : Snapshot D} {id : Nat} {moment : Moment}
    (h : snapshot.moment? id = some moment) :
    moment.token = snapshot.token ∧ moment.kind = .full := by
  obtain ⟨group, -, rfl⟩ := Option.map_eq_some_iff.mp h
  exact ⟨rfl, rfl⟩

namespace Notes

def snapshots (notes : Notes D) : List (Snapshot D) := notes.taken.toList ++ notes.completed

def complete (notes : Notes D) : Notes D := { completed := notes.snapshots }

end Notes

structure Plan.Hosts (plan : Plan D) (disk : Disk) : Prop where
  wellFormed : disk.WellFormed
  homed : Disk.Homed disk plan.dir plan.base
  locksFiles : disk.LocksFiles

theorem Plan.Hosts.frame {plan : Plan D} {own : Path → Prop} {disk other : Disk}
    (h : plan.Hosts disk) (hw : Disk.WorksIn own disk other) : plan.Hosts other :=
  ⟨hw.wellFormed, h.homed.mono hw.directory, hw.locksFiles h.locksFiles⟩

namespace Group

def course (group : Group D) (notes : Notes D) (disk : Disk) : Course where
  store := group.store
  disk := disk
  taken := notes.taken.bind (·.moment? group.id)
  completed := notes.completed.filterMap (·.moment? group.id)

structure Planned (group : Group D) (plan : Plan D) (disk : Disk) : Prop where
  hosts : plan.Hosts disk
  mem : (group.id, group.predicates) ∈ plan.groups
  dir : group.store.dir = plan.dir.child (Config.groupName group.id)

structure Noted (group : Group D) (plan : Plan D) (notes : Notes D) (disk : Disk) : Prop
    extends group.Planned plan disk where
  whole : ∃ history, (group.course notes disk).Whole (groupPlace plan.base group.id) history

variable {group after : Group D} {plan : Plan D} {notes : Notes D} {disk other : Disk}

theorem mem_moments_course {moment : Moment} (h : moment ∈ (group.course notes disk).moments) :
    ∃ snapshot ∈ notes.snapshots, snapshot.moment? group.id = some moment := by
  rcases List.mem_append.mp h with h | h
  · obtain ⟨snapshot, hs, hm⟩ := Option.bind_eq_some_iff.mp (Option.mem_toList.mp h)
    exact ⟨snapshot, List.mem_append_left _ (Option.mem_toList.mpr hs), hm⟩
  · obtain ⟨snapshot, hs, hm⟩ := List.mem_filterMap.mp h
    exact ⟨snapshot, List.mem_append_right _ hs, hm⟩

theorem course_complete (group : Group D) (notes : Notes D) (disk : Disk) :
    group.course notes.complete disk =
      { store := group.store, disk, completed := (group.course notes disk).moments } := by
  simp only [course, Notes.complete, Notes.snapshots, Course.moments, List.filterMap_append,
    Option.bind_none]
  cases notes.taken with
  | none => rfl
  | some snapshot =>
    simp only [Option.toList_some, Option.bind_some, List.filterMap_cons, List.filterMap_nil]
    cases snapshot.moment? group.id <;> rfl

theorem Planned.frame {own : Path → Prop} (h : group.Planned plan disk)
    (hw : Disk.WorksIn own disk other) : group.Planned plan other :=
  { h with hosts := h.hosts.frame hw }

namespace Noted

theorem frame {id : Nat} (h : group.Noted plan notes disk)
    (hw : Disk.WorksIn (groupPlace plan.base id <+: ·) disk other) (hn : group.id ≠ id) :
    group.Noted plan notes other := by
  obtain ⟨history, hwhole⟩ := h.whole
  exact ⟨h.toPlanned.frame hw, history, hwhole.frame hw (not_prefix_groupPlace plan.base hn)⟩

/-- Nothing that is asked of a group makes the notes wrong. -/
theorem runs (h : group.Noted plan notes disk) (hr : group.Runs disk after other) :
    after.Noted plan notes other ∧
      Disk.WorksIn (groupPlace plan.base group.id <+: ·) disk other := by
  obtain ⟨ops, hops, -, hrun⟩ := hr.run
  obtain ⟨history, hwhole⟩ := h.whole
  obtain ⟨⟨grown, hgrown⟩, hworks⟩ := hwhole.run_silent hops
  rw [Course.run_silent fun op ho => (hops op ho).2] at hgrown hworks
  have hstate : Store.run ops ((group.course notes disk).store, (group.course notes disk).disk) =
      (after.store, other) := hrun.symm
  rw [hstate] at hgrown hworks
  have hdir := (Store.run_same ops group.store disk).dir
  rw [← hrun] at hdir
  have hcourse : after.course notes other =
      { group.course notes disk with store := after.store, disk := other } := by
    rw [course, course, hr.id]
  refine ⟨⟨⟨h.hosts.frame hworks, ?_, ?_⟩, grown, ?_⟩, hworks⟩
  · rw [hr.id, hr.predicates]
    exact h.mem
  · rw [hr.id, ← h.dir]
    exact hdir
  · rw [hcourse, hr.id]
    exact hgrown

theorem captured (h : group.Noted plan notes disk) : group.store.captured =
    (notes.taken.bind (·.moment? group.id)).map Moment.captured := by
  obtain ⟨history, hwhole⟩ := h.whole
  exact hwhole.sound.captured

theorem take (h : group.Noted plan notes disk) (ht : notes.taken = none) {snapshot : Snapshot D}
    (hm : snapshot.moment? group.id = some ⟨.full, snapshot.token, group.store, disk⟩)
    (hnewer : ∀ earlier ∈ notes.completed, earlier.token.value < snapshot.token.value) :
    ∃ store, group.store.take .full snapshot.token = .ok (true, store) ∧
      { group with store }.Noted plan { notes with taken := some snapshot } disk := by
  obtain ⟨history, hwhole⟩ := h.whole
  have hnone : group.store.captured = none := by
    rw [h.captured, ht]
    rfl
  have htake : group.store.take .full snapshot.token =
      .ok (true, { group.store with
        captured := some (group.store.capture .full snapshot.token) }) := by
    have hready : group.store.awaitingRecovery = false := hwhole.ready.awaitingRecovery
    simp only [Store.take, Store.checkRecovered, hready, hnone]
    rfl
  have hstep := hwhole.step (.take .full snapshot.token) trivial fun kind token he => by
    cases he
    refine ⟨rfl, fun moment hmoment => ?_⟩
    obtain ⟨earlier, he, hm⟩ := mem_moments_course hmoment
    rw [Notes.snapshots, ht] at he
    rw [(Snapshot.token_moment? hm).1]
    exact hnewer earlier he
  refine ⟨_, htake, ⟨h.hosts, h.mem, h.dir⟩, history, ?_⟩
  rw [Store.adds_eq_nil _ rfl, List.append_nil] at hstep
  have hcourse : (group.course notes disk).step (.take .full snapshot.token) =
      Group.course { group with store := { group.store with
          captured := some (group.store.capture .full snapshot.token) } }
        { notes with taken := some snapshot } disk := by
    simp only [Course.step, course, Store.step, htake, Option.bind_some, hm]
  rw [← hcourse]
  exact hstep

theorem complete_course (h : group.Noted plan notes disk) : ∃ token store other,
    group.store.complete disk = (.ok token, store, other) ∧
      (group.course notes disk).step .complete =
        { store, disk := other, completed := (group.course notes disk).moments } := by
  obtain ⟨history, hwhole⟩ := h.whole
  have hcaptured := h.captured
  cases hc : notes.taken.bind (·.moment? group.id) with
  | none =>
    rw [hc] at hcaptured
    have hresult := Store.complete_none hcaptured disk
    refine ⟨none, group.store, disk, hresult, ?_⟩
    simp only [Course.step, course, Store.step, hresult, Course.moments, hc]
    rfl
  | some moment =>
    rw [hc] at hcaptured
    obtain ⟨other, hresult, -⟩ :=
      hwhole.sound.tends.complete_ok hwhole.sound.logs hcaptured
    refine ⟨_, _, other, hresult, ?_⟩
    simp only [Course.step, course, Store.step, Course.moments] at hresult ⊢
    rw [hresult]

theorem complete (h : group.Noted plan notes disk) : ∃ token store other,
    group.store.complete disk = (.ok token, store, other) ∧
      { group with store }.Noted plan notes.complete other ∧
      Disk.WorksIn (groupPlace plan.base group.id <+: ·) disk other := by
  obtain ⟨token, store, other, hcomplete, hcourse⟩ := h.complete_course
  obtain ⟨history, hwhole⟩ := h.whole
  have hstep := hwhole.step .complete trivial fun _ _ he => by cases he
  rw [Store.adds_eq_nil _ rfl, List.append_nil, hcourse] at hstep
  have hworks : Disk.WorksIn (groupPlace plan.base group.id <+: ·) disk
      (group.store.complete disk).2.2 :=
    hwhole.sound.tends.worksIn_complete hwhole.sound.logs (List.prefix_append _)
  rw [hcomplete] at hworks
  have hdir := (Store.step_same .complete group.store disk).dir
  rw [Store.step, hcomplete] at hdir
  refine ⟨token, store, other, hcomplete,
    ⟨⟨h.hosts.frame hworks, h.mem, hdir.trans h.dir⟩, history, ?_⟩, hworks⟩
  rw [course_complete]
  exact hstep

end Noted

end Group

end PredicateIndex
