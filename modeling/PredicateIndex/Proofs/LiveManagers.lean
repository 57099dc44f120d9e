import PredicateIndex.Proofs.Chronicles
import PredicateIndex.Proofs.LegibleManagers

/-!
# Managers that are used and grow

Predicates can be registered between all other things that a manager is asked
for. The chains of its groups can be read through all of this, its groups keep
their predicates, and a group that comes later has an id of its own. So the
handles that were given once name their predicates ever after.
-/

set_option autoImplicit false

namespace PredicateIndex

variable {D : Type}

inductive Manager.Deed (D : Type) where
  | ask (op : Manager.Op D)
  | register (definitions : Definitions D)

namespace Manager.Deed

def step : Manager.Deed D → Chronicle D → List (Registered D) × Chronicle D
  | .ask op, chronicle => ([], chronicle.step op)
  | .register definitions, chronicle =>
    match chronicle.manager.register definitions.type definitions.predicates chronicle.disk with
    | (.error _, manager, disk) => ([], { chronicle with manager, disk })
    | (.ok handles, manager, disk) =>
      (List.zipWith (fun handle definition => ⟨definitions.type, handle, definition.2⟩) handles
        definitions.predicates, { chronicle with manager, disk })

def run : List (Manager.Deed D) → Chronicle D → List (Registered D) × Chronicle D
  | [], chronicle => ([], chronicle)
  | deed :: rest, chronicle =>
    let (given, next) := step deed chronicle
    let (others, last) := run rest next
    (given ++ others, last)

end Manager.Deed

structure Group.Goes (group : Group D) (place : Path) (disk : Disk) (after : Group D)
    (other : Disk) : Prop where
  id : after.id = group.id
  predicates : after.predicates = group.predicates
  legible : after.Legible place other
  spares : Disk.Spares (Store.Outside place) disk other

theorem Group.Runs.goes {group after : Group D} {disk other : Disk} {place : Path}
    (h : group.Runs disk after other) (hl : group.Legible place disk) :
    group.Goes place disk after other :=
  ⟨h.id, h.predicates, (hl.runs h).1, (hl.runs h).2⟩

theorem Group.Legible.complete {group : Group D} {place : Path} {disk : Disk}
    (h : group.Legible place disk) (token : Option Token) :
    group.Goes place disk (Manager.completeGroup group (token, disk)).2.1
      (Manager.completeGroup group (token, disk)).2.2.2 := by
  obtain ⟨history, hk, ho⟩ := h.records
  obtain ⟨hafter, hspares⟩ := hk.complete
  rw [Manager.completeGroup, Group.onStore]
  rcases hc : group.store.complete disk with ⟨fault | token, store, other⟩ <;>
    rw [hc] at hafter hspares <;>
    exact ⟨rfl, rfl, ⟨h.sized, history, hafter, ho⟩, hspares⟩

namespace Manager

variable {manager middle after : Manager D} {disk other : Disk}

structure Grows (manager after : Manager D) : Prop where
  identity : after.identity = manager.identity
  next : manager.nextGroup ≤ after.nextGroup
  kept : ∀ group ∈ manager.groups, ∃ found ∈ after.groups,
    found.id = group.id ∧ found.predicates = group.predicates
  added : ∀ found ∈ after.groups,
    found.id ∈ manager.groups.map Group.id ∨ manager.nextGroup ≤ found.id

namespace Grows

theorem refl (manager : Manager D) : manager.Grows manager :=
  ⟨rfl, Nat.le_refl _, fun group hg => ⟨group, hg, rfl, rfl⟩,
    fun _ hg => .inl (List.mem_map_of_mem hg)⟩

theorem trans (h : manager.Grows middle) (ha : middle.Grows after) : manager.Grows after := by
  refine ⟨ha.identity.trans h.identity, Nat.le_trans h.next ha.next, fun group hg => ?_,
    fun found hf => ?_⟩
  · obtain ⟨found, hf, hid, hp⟩ := h.kept group hg
    obtain ⟨last, hl, hlast, hpredicates⟩ := ha.kept found hf
    exact ⟨last, hl, hlast.trans hid, hpredicates.trans hp⟩
  · rcases ha.added found hf with hm | hle
    · obtain ⟨group, hg, hid⟩ := List.mem_map.mp hm
      exact hid ▸ h.added group hg
    · exact .inr (Nat.le_trans h.next hle)

theorem ofSame (hd : manager.groups.Pairwise fun g h => g.id ≠ h.id)
    (hsame : manager.SameGroups after)
    (hp : ∀ group ∈ after.groups, group.predicates = manager.schema group.id) :
    manager.Grows after := by
  refine ⟨hsame.identity, Nat.le_of_eq hsame.nextGroup.symm, fun group hg => ?_, fun found hf => ?_⟩
  · have hm : group.id ∈ after.groups.map Group.id := hsame.ids ▸ List.mem_map_of_mem hg
    obtain ⟨found, hf, hid⟩ := List.mem_map.mp hm
    exact ⟨found, hf, hid, by rw [hp found hf, hid, schema_eq hd hg]⟩
  · exact .inl (hsame.ids ▸ List.mem_map_of_mem hf)

theorem names (h : manager.Grows after) {r : Registered D} (hr : manager.Names r) :
    after.Names r := by
  obtain ⟨howner, group, hg, n, hgroup, hordinal, hp⟩ := hr
  obtain ⟨found, hf, hid, hpredicates⟩ := h.kept group hg
  exact ⟨howner.trans h.identity.symm, found, hf, n, hgroup.trans hid.symm, hordinal,
    hpredicates ▸ hp⟩

theorem schema (h : manager.Grows after) (hd : manager.groups.Pairwise fun g h => g.id ≠ h.id)
    (ha : after.groups.Pairwise fun g h => g.id ≠ h.id) {id : Nat}
    (hm : id ∈ manager.groups.map Group.id) : after.schema id = manager.schema id := by
  obtain ⟨group, hg, rfl⟩ := List.mem_map.mp hm
  obtain ⟨found, hf, hid, hp⟩ := h.kept group hg
  rw [schema_eq hd hg, ← hid, schema_eq ha hf, hp]

end Grows

theorem Stands.legible (h : manager.Stands disk)
    (hg : ∀ group ∈ manager.groups, ∃ place, group.Legible place disk) :
    ∃ base, manager.Legible disk base := by
  obtain ⟨base, hb⟩ := h.base
  refine ⟨base, h.distinct, fun group hm => ?_⟩
  obtain ⟨place, hlegible⟩ := hg group hm
  obtain ⟨history, hk, -⟩ := hlegible.records
  obtain rfl := hk.stands.homed.unique (hb group hm).2.homed
  exact hlegible

def Retains (manager after : Manager D) (other : Disk) : Prop :=
  manager.SameGroups after ∧ ∀ group ∈ after.groups,
    (∃ place, group.Legible place other) ∧ group.predicates = manager.schema group.id

namespace Legible

variable {base : Path}

theorem retains {σ : Type} (h : manager.Legible disk base)
    (operation : Group D → σ → Except Fault Unit × Group D × σ) (view : σ → Disk) (good : σ → Prop)
    (hop : ∀ (group : Group D) state place, group.Legible place (view state) → good state →
      group.Goes place (view state) (operation group state).2.1 (view (operation group state).2.2) ∧
        good (operation group state).2.2)
    (state : σ) (hv : view state = disk) (hgood : good state) :
    manager.Retains (manager.onGroups operation state).2.1
        (view (manager.onGroups operation state).2.2) ∧
      good (manager.onGroups operation state).2.2 := by
  obtain ⟨hids, hall, -⟩ := onEach_keeps operation
    (fun group state => (group.Legible (groupPlace base group.id) (view state) ∧ good state) ∧
      group.predicates = manager.schema group.id)
    (fun group state hg => by
      obtain ⟨⟨hlegible, hstate⟩, hp⟩ := hg
      obtain ⟨hgoes, hafter⟩ := hop group state _ hlegible hstate
      refine ⟨hgoes.id, ⟨⟨?_, hafter⟩, ?_⟩, fun other hne ho => ⟨⟨?_, hafter⟩, ho.2⟩⟩
      · rw [hgoes.id]
        exact hgoes.legible
      · rw [hgoes.predicates, hgoes.id, hp]
      · exact ho.1.1.frame hgoes.spares (outside_of_ne base hne))
    state h.distinct fun group hg =>
      ⟨⟨hv ▸ h.group group hg, hgood⟩, (schema_eq h.distinct hg).symm⟩
  refine ⟨⟨⟨rfl, rfl, rfl, rfl, hids⟩, fun group hg => ?_⟩, ?_⟩
  · exact ⟨⟨_, (hall group hg).1.1⟩, (hall group hg).2⟩
  · cases hgroups : manager.groups with
    | nil =>
      rw [onGroups, hgroups]
      exact hgood
    | cons group rest =>
      have hm : group.id ∈ (onEach operation manager.groups state).2.1.map Group.id := by
        rw [hids, hgroups]
        exact List.mem_cons_self
      obtain ⟨found, hf, -⟩ := List.mem_map.mp hm
      exact (hall found hf).1.2

theorem insert_retains (h : manager.Legible disk base) (data : D) (id : RecordId) :
    manager.Retains (manager.insert data id disk).2.1 (manager.insert data id disk).2.2 :=
  (h.retains (fun group disk => group.insert data id disk) (fun disk => disk) (fun _ => True)
    (fun group disk _ hl _ => ⟨(Group.Runs.insert group hl.sized data id disk).goes hl, trivial⟩)
    disk rfl trivial).1

theorem update_retains (h : manager.Legible disk base) {tracker : ChangeTracker D}
    (ht : tracker.Fits) :
    manager.Retains (manager.update tracker disk).2.1 (manager.update tracker disk).2.2.2 ∧
      (manager.update tracker disk).2.2.1.Fits :=
  h.retains (fun group (state : ChangeTracker D × Disk) => group.update state.1 state.2)
    (fun state => state.2) (fun state => state.1.Fits)
    (fun group state _ hl ht =>
      have hruns := Group.Runs.update group hl.sized ht state.2
      ⟨hruns.1.goes hl, hruns.2⟩)
    (tracker, disk) rfl ht

theorem delete_retains (h : manager.Legible disk base) {tracker : ChangeTracker D}
    (ht : tracker.Fits) :
    manager.Retains (manager.delete tracker disk).2.1 (manager.delete tracker disk).2.2.2 ∧
      (manager.delete tracker disk).2.2.1.Fits :=
  h.retains (fun group (state : ChangeTracker D × Disk) => group.delete state.1 state.2)
    (fun state => state.2) (fun state => state.1.Fits)
    (fun group state _ hl ht =>
      have hruns := Group.Runs.delete group hl.sized ht state.2
      ⟨hruns.1.goes hl, hruns.2⟩)
    (tracker.setKind .delete, disk) rfl (ht.congr rfl)

theorem complete_retains (h : manager.Legible disk base) :
    manager.Retains (manager.completeCheckpoint disk).2.1 (manager.completeCheckpoint disk).2.2 :=
  (h.retains completeGroup (fun state => state.2) (fun _ => True)
    (fun _ state _ hl _ => ⟨hl.complete state.1, trivial⟩) (none, disk) rfl trivial).1

theorem retains_refl (h : manager.Legible disk base) : manager.Retains manager disk :=
  ⟨.refl manager, fun group hg => ⟨⟨_, h.group group hg⟩, (schema_eq h.distinct hg).symm⟩⟩

theorem take_retains (h : manager.Legible disk base) (kind : CheckpointKind) (clock : UInt64) :
    manager.Retains (manager.takeCheckpoint kind clock).2 disk := by
  rw [Manager.takeCheckpoint]
  split
  · exact h.retains_refl
  · obtain ⟨hids, hafter⟩ := startCheckpoint_keeps kind (manager.nextToken clock)
      (fun group captured hg => by
        obtain ⟨⟨place, hl⟩, hp⟩ := hg
        obtain ⟨history, hk, ho⟩ := hl.records
        exact ⟨⟨place, hl.sized, history, hk.congr rfl rfl rfl, ho⟩, hp⟩) h.retains_refl.2
    exact ⟨⟨rfl, rfl, rfl, rfl, hids⟩, hafter⟩

theorem setGroup_retains (h : manager.Legible disk base) {group changed : Group D} {place : Path}
    (hg : group ∈ manager.groups) (hc : group.Goes place disk changed disk) :
    manager.Retains (manager.setGroup changed) disk := by
  refine ⟨SameGroups.setGroup manager changed, fun found hf => ?_⟩
  obtain ⟨old, ho, rfl⟩ := List.mem_map.mp hf
  split
  · exact ⟨⟨place, hc.legible⟩, by rw [hc.predicates, hc.id, schema_eq h.distinct hg]⟩
  · exact h.retains_refl.2 old ho

theorem readChain_retains (h : manager.Legible disk base) (source : ChainSource) (key : Bytes)
    (cancelled : Bool) : manager.Retains (manager.readChain source key cancelled disk).2 disk := by
  rw [Manager.readChain]
  cases hfind : manager.groups.find? fun group => group.id = source.group with
  | none => exact h.retains_refl
  | some group =>
    have hg := List.mem_of_find?_eq_some hfind
    have hruns := Group.Runs.readChain group source.ordinal key cancelled disk []
    exact h.setGroup_retains hg (hruns.goes (h.group group hg))

end Legible

end Manager

namespace Chronicle

variable {chronicle next last : Chronicle D}

structure Live (chronicle : Chronicle D) : Prop where
  stands : chronicle.manager.Stands chronicle.disk
  legible : ∀ group ∈ chronicle.manager.groups, ∃ place, group.Legible place chronicle.disk
  trackers : ∀ name, (chronicle.trackers name).Fits

structure Leads (chronicle : Chronicle D) (given : List (Registered D)) (last : Chronicle D) :
    Prop where
  live : last.Live
  grows : chronicle.manager.Grows last.manager
  names : ∀ r ∈ given, last.manager.Names r ∧ chronicle.manager.nextGroup ≤ r.handle.group

namespace Leads

variable {given others : List (Registered D)}

theorem refl (h : chronicle.Live) : chronicle.Leads [] chronicle := ⟨h, .refl _, by simp⟩

theorem trans (h : chronicle.Leads given next) (hl : next.Leads others last) :
    chronicle.Leads (given ++ others) last := by
  refine ⟨hl.live, h.grows.trans hl.grows, fun r hr => ?_⟩
  rcases List.mem_append.mp hr with hr | hr
  · exact ⟨hl.grows.names (h.names r hr).1, (h.names r hr).2⟩
  · exact ⟨(hl.names r hr).1, Nat.le_trans h.grows.next (hl.names r hr).2⟩

theorem ofRetained (h : chronicle.Live) (hs : last.manager.Stands last.disk)
    (hr : chronicle.manager.Retains last.manager last.disk)
    (ht : ∀ name, (last.trackers name).Fits) : chronicle.Leads [] last :=
  ⟨⟨hs, fun group hg => (hr.2 group hg).1, ht⟩,
    .ofSame h.stands.distinct hr.1 fun group hg => (hr.2 group hg).2, by simp⟩

end Leads

namespace Live

theorem sized (h : chronicle.Live) {group : Group D} (hg : group ∈ chronicle.manager.groups) :
    Sized group.predicates := by
  obtain ⟨place, hl⟩ := h.legible group hg
  exact hl.sized

theorem fits_setTracker (h : chronicle.Live) {tracker : ChangeTracker D} (ht : tracker.Fits)
    (name other : Nat) : ((chronicle.setTracker name tracker).trackers other).Fits := by
  rw [Chronicle.setTracker]
  dsimp only
  split
  · exact ht
  · exact h.trackers other

theorem setTracker (h : chronicle.Live) {tracker : ChangeTracker D} (ht : tracker.Fits)
    (name : Nat) : chronicle.Leads [] (chronicle.setTracker name tracker) :=
  ⟨⟨h.stands, h.legible, h.fits_setTracker ht name⟩, .refl _, by simp⟩

/-- Whatever is asked of the manager keeps it live. -/
theorem ask (h : chronicle.Live) (op : Manager.Op D) : chronicle.Leads [] (chronicle.step op) := by
  obtain ⟨base, hl⟩ := h.stands.legible h.legible
  have hinsert : ∀ data id, chronicle.Leads [] { chronicle with
      manager := (chronicle.manager.insert data id chronicle.disk).2.1
      disk := (chronicle.manager.insert data id chronicle.disk).2.2 } := fun data id =>
    .ofRetained h (h.stands.insert data id) (hl.insert_retains data id) h.trackers
  have hupdate : ∀ name, chronicle.Leads [] (chronicle.step (.update name)) := fun name => by
    obtain ⟨hr, ht⟩ := hl.update_retains (h.trackers name)
    exact .ofRetained h (h.stands.update _) hr (h.fits_setTracker ht name)
  cases op with
  | upsert data id name =>
    cases name with
    | none => exact hinsert data id
    | some name =>
      rw [Chronicle.step, Manager.upsert.eq_def]
      dsimp only
      by_cases hk : (chronicle.trackers name).kind = .insert
      · rw [if_pos hk]
        exact (hinsert data id).trans ((hinsert data id).live.setTracker (h.trackers name) name)
      · rw [if_neg hk]
        exact hupdate name
  | newTracker name => exact h.setTracker (ChangeTracker.fits_of_groups rfl) name
  | setBefore name data id =>
    exact h.setTracker (Manager.fits_setBefore (fun _ hg => h.sized hg) data id _) name
  | setAfter name data id =>
    have hfits : ((chronicle.trackers name).setAfter data id).Fits := (h.trackers name).congr rfl
    exact h.setTracker hfits name
  | update name => exact hupdate name
  | delete name =>
    obtain ⟨hr, ht⟩ := hl.delete_retains (h.trackers name)
    exact .ofRetained h (h.stands.delete _) hr (h.fits_setTracker ht name)
  | flush =>
    refine .ofRetained h h.stands.flush (hl.retains _ (fun disk => disk) (fun _ => True)
      (fun group disk _ hl _ => ?_) chronicle.disk rfl trivial).1 h.trackers
    exact ⟨(Group.Runs.step group disk .flush trivial trivial trivial).goes hl, trivial⟩
  | evict =>
    refine .ofRetained h h.stands.evict (hl.retains _ (fun disk => disk) (fun _ => True)
      (fun group disk _ hl _ => ?_) chronicle.disk rfl trivial).1 h.trackers
    exact ⟨(Group.Runs.step group disk .evict trivial trivial trivial).goes hl, trivial⟩
  | readChain source key cancelled =>
    exact .ofRetained h (h.stands.readChain source key cancelled)
      (hl.readChain_retains source key cancelled) h.trackers
  | take clock =>
    have hlead : chronicle.Leads []
        { chronicle with manager := (chronicle.manager.takeCheckpoint .full clock).2 } :=
      .ofRetained h (h.stands.takeCheckpoint .full clock) (hl.take_retains .full clock) h.trackers
    rw [Chronicle.step]
    split <;> rename_i he <;> rw [he] at hlead
    · exact ⟨⟨hlead.live.stands, hlead.live.legible, h.trackers⟩, hlead.grows, by simp⟩
    · exact hlead
  | complete =>
    have hlead : chronicle.Leads [] { chronicle with
        manager := (chronicle.manager.completeCheckpoint chronicle.disk).2.1
        disk := (chronicle.manager.completeCheckpoint chronicle.disk).2.2 } :=
      .ofRetained h h.stands.completeCheckpoint hl.complete_retains h.trackers
    rw [Chronicle.step]
    split <;> rename_i he <;> rw [he] at hlead
    · exact ⟨⟨hlead.live.stands, hlead.live.legible, h.trackers⟩, hlead.grows, by simp⟩
    · exact hlead

theorem register (h : chronicle.Live) (definitions : Definitions D) :
    chronicle.Leads (Manager.Deed.step (.register definitions) chronicle).1
      (Manager.Deed.step (.register definitions) chronicle).2 := by
  have hstands := h.stands.register definitions.type definitions.predicates
  have hspares := Store.spares_open (chronicle.manager.config.groupDir chronicle.manager.nextGroup)
    chronicle.manager.config h.stands.wellFormed
  have hkept : ∀ group ∈ chronicle.manager.groups, ∃ place, group.Legible place
      (Store.open? (chronicle.manager.config.groupDir chronicle.manager.nextGroup)
        chronicle.manager.config chronicle.disk).2 := by
    intro group hg
    obtain ⟨place, hl⟩ := h.legible group hg
    obtain ⟨history, hk, -⟩ := hl.records
    exact ⟨place, hl.frame hspares (h.stands.spares_next hg hk.stands)⟩
  have hr := Manager.registers chronicle.manager definitions.type definitions.predicates chronicle.disk
  rw [Manager.Deed.step]
  generalize chronicle.manager.register definitions.type definitions.predicates chronicle.disk =
    registered at hr hstands ⊢
  cases hr with
  | refused => exact .refl h
  | unopened hc ho =>
    rw [ho] at hkept
    exact ⟨⟨hstands, hkept, h.trackers⟩, ⟨rfl, Nat.le_succ _,
      fun group hg => ⟨group, hg, rfl, rfl⟩, fun _ hf => .inl (List.mem_map_of_mem hf)⟩, by simp⟩
  | opened hc ho =>
    rw [ho] at hkept
    obtain ⟨base, -, hk⟩ := Manager.keeps_opened h.stands.wellFormed ho
    refine ⟨⟨hstands, fun group hg => ?_, h.trackers⟩,
      ⟨rfl, Nat.le_succ _, fun group hg => ?_, fun found hf => ?_⟩, fun r hr => ?_⟩
    · rcases List.mem_append.mp hg with hg | hg
      · exact hkept group hg
      · rw [List.mem_singleton.mp hg]
        exact ⟨_, Manager.sized_of_check hc, [], hk, by simp⟩
    · exact ⟨group, List.mem_append_left _ hg, rfl, rfl⟩
    · rcases List.mem_append.mp hf with hf | hf
      · exact .inl (List.mem_map_of_mem hf)
      · rw [List.mem_singleton.mp hf]
        exact .inr (Nat.le_refl _)
    · exact And.imp_right (fun hid => Nat.le_of_eq hid.symm) (Manager.names_of_handles
        (List.mem_append_right _ List.mem_cons_self) rfl rfl rfl hr)

theorem step (h : chronicle.Live) (deed : Manager.Deed D) :
    chronicle.Leads (Manager.Deed.step deed chronicle).1 (Manager.Deed.step deed chronicle).2 := by
  cases deed with
  | ask op => exact h.ask op
  | register definitions => exact h.register definitions

theorem run (h : chronicle.Live) (deeds : List (Manager.Deed D)) :
    chronicle.Leads (Manager.Deed.run deeds chronicle).1 (Manager.Deed.run deeds chronicle).2 := by
  induction deeds generalizing chronicle with
  | nil => exact .refl h
  | cons deed rest ih => exact (h.step deed).trans (ih (h.step deed).live)

theorem opened {config : Config} {identity : Nat} {manager : Manager D} {disk other : Disk}
    (hw : disk.WellFormed) (h : Manager.open? config identity disk = (.ok manager, other)) :
    Live { manager, disk := other } := by
  have hnew := Manager.New.opened hw h
  obtain ⟨base, hl⟩ := hnew.legible
  exact ⟨hnew.stands, fun group hg => ⟨_, hl.group group hg⟩,
    fun _ => ChangeTracker.fits_of_groups rfl⟩

end Live

end Chronicle

end PredicateIndex
