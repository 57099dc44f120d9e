import PredicateIndex.Proofs.Registration
import PredicateIndex.Proofs.StoreFiles

/-!
# Where the stores of a manager stand

The stores of a manager stand in directories of their own, whatever was done
with them before: an operation on one group may fail or leave its store half
recovered, but it works on the files of that group only.
-/

set_option autoImplicit false

namespace PredicateIndex

namespace Group

variable {D : Type}

structure Stays (place : Path) (group : Group D) (disk : Disk) (after : Group D) (other : Disk) :
    Prop where
  id : after.id = group.id
  predicates : after.predicates = group.predicates
  store : group.store.Stays place disk after.store other

theorem Stays.trans {place : Path} {group middle after : Group D} {disk opened other : Disk}
    (h : group.Stays place disk middle opened) (ha : middle.Stays place opened after other) :
    group.Stays place disk after other :=
  ⟨ha.id.trans h.id, ha.predicates.trans h.predicates, h.store.trans ha.store⟩

variable {group : Group D} {disk : Disk} {place : Path}

theorem stays_refl (h : group.store.Stands disk place) : group.Stays place disk group disk :=
  ⟨rfl, rfl, h.congr rfl rfl⟩

theorem stays_putAll (h : group.store.Stands disk place) (writes : List IndexWrite) :
    group.Stays place disk (putAll writes group disk).2.1 (putAll writes group disk).2.2 := by
  induction writes generalizing group disk with
  | nil => exact stays_refl h
  | cons write rest ih =>
    have hput : group.Stays place disk (group.put write disk).2.1 (group.put write disk).2.2 :=
      ⟨rfl, rfl, h.put write.key write.id write.tombstone⟩
    rw [putAll]
    cases hp : group.put write disk with
    | mk result changed =>
      obtain ⟨after, other⟩ := changed
      rw [hp] at hput
      cases result with
      | error fault => exact hput
      | ok => exact hput.trans (ih hput.store.stands)

theorem stays_insert (h : group.store.Stands disk place) (data : D) (id : RecordId) :
    group.Stays place disk (group.insert data id disk).2.1 (group.insert data id disk).2.2 :=
  stays_putAll h _

theorem stays_update (h : group.store.Stands disk place) (tracker : ChangeTracker D) :
    group.Stays place disk (group.update tracker disk).2.1 (group.update tracker disk).2.2.2 := by
  rw [update]
  split
  · exact stays_refl h
  · rename_i captured _
    split
    · exact stays_refl h
    · rename_i data _ _
      rw [applyAfter]
      split
      · exact stays_refl h
      · rename_i plan _
        have hput := stays_putAll h plan.writes
        cases hp : putAll plan.writes group disk with
        | mk result changed =>
          obtain ⟨after, other⟩ := changed
          rw [hp] at hput
          cases result with
          | error fault => exact hput
          | ok => exact hput

theorem stays_delete (h : group.store.Stands disk place) (tracker : ChangeTracker D) :
    group.Stays place disk (group.delete tracker disk).2.1 (group.delete tracker disk).2.2.2 := by
  rw [delete]
  split
  · exact stays_refl h
  · rename_i captured _
    split
    · exact stays_refl h
    · rename_i before _
      exact ⟨rfl, rfl, h.put before captured.beforeId true⟩
    · exact stays_refl h
    · exact stays_refl h

end Group

namespace Manager

variable {D : Type}

theorem onEach_stays {σ : Type} (operation : Group D → σ → Except Fault Unit × Group D × σ)
    (view : σ → Disk) (base : Path)
    (hop : ∀ (group : Group D) state, group.store.Stands (view state) (groupPlace base group.id) →
      group.Stays (groupPlace base group.id) (view state) (operation group state).2.1
        (view (operation group state).2.2))
    {groups : List (Group D)} (state : σ) (hw : (view state).WellFormed)
    (hd : groups.Pairwise fun g h => g.id ≠ h.id)
    (hs : ∀ group ∈ groups, group.store.Stands (view state) (groupPlace base group.id)) :
    (onEach operation groups state).2.1.map Group.id = groups.map Group.id ∧
      (∀ group ∈ (onEach operation groups state).2.1,
        group.store.Stands (view (onEach operation groups state).2.2) (groupPlace base group.id)) ∧
      Disk.Spares (fun p => ∀ group ∈ groups, Store.Outside (groupPlace base group.id) p)
        (view state) (view (onEach operation groups state).2.2) := by
  induction groups generalizing state with
  | nil => exact ⟨rfl, by simp [onEach], .refl hw⟩
  | cons group rest ih =>
    obtain ⟨hgroup, hrest⟩ := List.pairwise_cons.mp hd
    have hfirst := hop group state (hs group List.mem_cons_self)
    have hkept : ∀ other ∈ rest, other.store.Stands (view (operation group state).2.2)
        (groupPlace base other.id) := fun other ho =>
      (hs other (List.mem_cons_of_mem group ho)).frame hfirst.store.spares
        (outside_of_ne base fun he => hgroup other ho he.symm)
    have hspares := hfirst.store.spares.weaken
      fun p (hp : ∀ other ∈ group :: rest, Store.Outside (groupPlace base other.id) p) =>
        hp group List.mem_cons_self
    rw [onEach]
    cases hresult : operation group state with
    | mk result changed =>
      obtain ⟨first, middle⟩ := changed
      rw [hresult] at hfirst hkept hspares
      dsimp only at hfirst hkept hspares
      have hstands := hfirst.store.stands
      rw [← hfirst.id] at hstands
      cases result with
      | error fault =>
        refine ⟨by simp [hfirst.id], fun other ho => ?_, hspares⟩
        rcases List.mem_cons.mp ho with rfl | ho
        · exact hstands
        · exact hkept other ho
      | ok =>
        obtain ⟨hids, hafter, hlater⟩ := ih middle hspares.wellFormed hrest hkept
        refine ⟨by simp [hfirst.id, hids], fun other ho => ?_, ?_⟩
        · rcases List.mem_cons.mp ho with rfl | ho
          · exact hstands.frame hlater fun later hl =>
              outside_of_ne base fun he => hgroup later hl (hfirst.id.symm.trans he)
          · exact hafter other ho
        · exact hspares.trans (hlater.weaken fun p hp other ho =>
            hp other (List.mem_cons_of_mem group ho))

structure Stands (manager : Manager D) (disk : Disk) : Prop where
  wellFormed : disk.WellFormed
  distinct : manager.groups.Pairwise fun g h => g.id ≠ h.id
  below : ∀ group ∈ manager.groups, group.id < manager.nextGroup
  stores : ∀ group ∈ manager.groups, ∃ base, Disk.Homed disk manager.config.dir base ∧
    group.store.Stands disk (groupPlace base group.id)

theorem wellFormed_close (manager : Manager D) {disk : Disk} (h : disk.WellFormed) :
    (manager.close disk).WellFormed := by
  have hone : ∀ (store : Store) (disk : Disk), disk.WellFormed → (store.close disk).WellFormed :=
    fun store disk h => ⟨h.inRange, h.separate, h.locks.erase _⟩
  rw [close]
  induction manager.groups generalizing disk with
  | nil => exact h
  | cons group rest ih => exact ih (hone group.store disk h)

theorem New.stands {manager : Manager D} {disk : Disk} (h : manager.New disk) :
    manager.Stands disk where
  wellFormed := h.wellFormed
  distinct := h.distinct
  below := h.below
  stores group hg := by
    obtain ⟨-, base, hd, hk⟩ := h.stores group hg
    exact ⟨base, hd, hk.stands⟩

def recoverGroup (index log : Option Token) (group : Group D) (state : Option Token × Disk) :
    Except Fault Unit × Group D × Option Token × Disk :=
  match group.onStore (fun store disk => store.recover index log disk) state.2 with
  | (.error fault, group, disk) => (.error fault, group, state.1, disk)
  | (.ok token, group, disk) =>
    match state.1 with
    | some expected =>
      if expected = token then (.ok (), group, some token, disk)
      else (.error (.groupsDisagree group.id token expected), group, some expected, disk)
    | none => (.ok (), group, some token, disk)

theorem recover_eq (manager : Manager D) (index log : Option Token) (disk : Disk) :
    manager.recover index log disk =
      match manager.onGroups (recoverGroup index log) (none, disk) with
      | (.error fault, manager, _, disk) => (.error fault, manager, disk)
      | (.ok (), manager, none, disk) => (.ok none, manager, disk)
      | (.ok (), manager, some token, disk) =>
        (.ok (some token),
          { manager with
            lastToken := if manager.lastToken.value < token.value then token else manager.lastToken },
          disk) := rfl

theorem stays_recoverGroup {group : Group D} {disk : Disk} {place : Path}
    (h : group.store.Stands disk place) (index log token : Option Token) :
    group.Stays place disk (recoverGroup index log group (token, disk)).2.1
      (recoverGroup index log group (token, disk)).2.2.2 := by
  have hr := h.recover index log
  obtain ⟨result, store, other, he⟩ : ∃ result store other,
    group.store.recover index log disk = (result, store, other) := ⟨_, _, _, rfl⟩
  rw [he] at hr
  simp only [recoverGroup, Group.onStore, he]
  cases result with
  | error fault => exact ⟨rfl, rfl, hr⟩
  | ok found =>
    cases token with
    | none => exact ⟨rfl, rfl, hr⟩
    | some expected =>
      dsimp only
      split <;> exact ⟨rfl, rfl, hr⟩

namespace Stands

variable {manager after : Manager D} {disk other : Disk}

theorem base (h : manager.Stands disk) : ∃ base, ∀ group ∈ manager.groups,
    Disk.Homed disk manager.config.dir base ∧
      group.store.Stands disk (groupPlace base group.id) := by
  cases hg : manager.groups with
  | nil => exact ⟨[], by simp⟩
  | cons first rest =>
    obtain ⟨base, hd, -⟩ := h.stores first (hg ▸ List.mem_cons_self)
    refine ⟨base, fun group hm => ?_⟩
    obtain ⟨place, ho, hs⟩ := h.stores group (hg ▸ hm)
    rw [ho.unique hd] at hs
    exact ⟨hd, hs⟩

theorem ofIds (h : manager.Stands disk) (hsame : manager.SameGroups after) {base : Path}
    (hb : ∀ group ∈ manager.groups, Disk.Homed disk manager.config.dir base)
    (hw : other.WellFormed)
    (hdir : ∀ p, disk.entry? p = some .directory → other.entry? p = some .directory)
    (hs : ∀ group ∈ after.groups, group.store.Stands other (groupPlace base group.id)) :
    after.Stands other := by
  have hids : ∀ group ∈ after.groups, ∃ old ∈ manager.groups, old.id = group.id := by
    intro group hg
    have hm : group.id ∈ manager.groups.map Group.id := hsame.ids ▸ List.mem_map_of_mem hg
    exact List.mem_map.mp hm
  refine ⟨hw, distinct_of_ids hsame.ids h.distinct, fun group hg => ?_, fun group hg => ?_⟩
  · obtain ⟨old, ho, hid⟩ := hids group hg
    rw [← hid, hsame.nextGroup]
    exact h.below old ho
  · obtain ⟨old, ho, -⟩ := hids group hg
    exact ⟨base, hsame.config ▸ (hb old ho).mono hdir, hs group hg⟩

theorem fanOut {σ : Type} (operation : Group D → σ → Except Fault Unit × Group D × σ)
    (view : σ → Disk)
    (hop : ∀ (group : Group D) state place, group.store.Stands (view state) place →
      group.Stays place (view state) (operation group state).2.1
        (view (operation group state).2.2))
    (state : σ) (h : manager.Stands (view state)) :
    manager.SameGroups (manager.onGroups operation state).2.1 ∧
      (manager.onGroups operation state).2.1.Stands (view (manager.onGroups operation state).2.2) := by
  obtain ⟨base, hb⟩ := h.base
  obtain ⟨hids, hafter, hspares⟩ := onEach_stays operation view base
    (fun group state hs => hop group state _ hs) state h.wellFormed h.distinct
    fun group hg => (hb group hg).2
  have hsame : manager.SameGroups (manager.onGroups operation state).2.1 :=
    ⟨rfl, rfl, rfl, rfl, hids⟩
  exact ⟨hsame, h.ofIds hsame (fun group hg => (hb group hg).1) hspares.wellFormed
    hspares.directory hafter⟩

theorem insert (h : manager.Stands disk) (data : D) (id : RecordId) :
    (manager.insert data id disk).2.1.Stands (manager.insert data id disk).2.2 :=
  (fanOut _ (fun disk : Disk => disk) (fun _ _ _ hs => Group.stays_insert hs data id) disk h).2

theorem update (h : manager.Stands disk) (tracker : ChangeTracker D) :
    (manager.update tracker disk).2.1.Stands (manager.update tracker disk).2.2.2 :=
  (fanOut (fun group (state : ChangeTracker D × Disk) => group.update state.1 state.2)
    (fun state => state.2) (fun _ state _ hs => Group.stays_update hs state.1)
    (tracker, disk) h).2

theorem delete (h : manager.Stands disk) (tracker : ChangeTracker D) :
    (manager.delete tracker disk).2.1.Stands (manager.delete tracker disk).2.2.2 :=
  (fanOut (fun group (state : ChangeTracker D × Disk) => group.delete state.1 state.2)
    (fun state => state.2) (fun _ state _ hs => Group.stays_delete hs state.1)
    (tracker.setKind .delete, disk) h).2

theorem upsert (h : manager.Stands disk) (data : D) (id : RecordId)
    (tracker : Option (ChangeTracker D)) :
    (manager.upsert data id tracker disk).2.1.Stands
      (manager.upsert data id tracker disk).2.2.2 := by
  rw [Manager.upsert.eq_def]
  split
  · exact h.insert data id
  · split
    · exact h.insert data id
    · exact h.update _

theorem flush (h : manager.Stands disk) :
    (manager.flush disk).2.1.Stands (manager.flush disk).2.2 :=
  (fanOut _ (fun disk : Disk => disk) (fun _ _ _ hs => ⟨rfl, rfl, hs.flush⟩) disk h).2

theorem evict (h : manager.Stands disk) :
    (manager.evict disk).2.1.Stands (manager.evict disk).2.2 :=
  (fanOut _ (fun disk : Disk => disk) (fun _ _ _ hs => ⟨rfl, rfl, hs.evict⟩) disk h).2

theorem completeCheckpoint (h : manager.Stands disk) :
    (manager.completeCheckpoint disk).2.1.Stands (manager.completeCheckpoint disk).2.2 := by
  refine (fanOut _ (fun state : Option Token × Disk => state.2) (fun group state place hs => ?_)
    (none, disk) h).2
  have hc := hs.complete
  obtain ⟨result, store, other, he⟩ : ∃ result store other,
    group.store.complete state.2 = (result, store, other) := ⟨_, _, _, rfl⟩
  rw [he] at hc
  simp only [Group.onStore, he]
  cases result with
  | error fault => exact ⟨rfl, rfl, hc⟩
  | ok token => exact ⟨rfl, rfl, hc⟩

theorem takeCheckpoint (h : manager.Stands disk) (kind : CheckpointKind) (clock : UInt64) :
    (manager.takeCheckpoint kind clock).2.Stands disk := by
  rw [Manager.takeCheckpoint]
  split
  · exact h
  · obtain ⟨base, hb⟩ := h.base
    obtain ⟨hids, hafter⟩ := startCheckpoint_keeps kind (manager.nextToken clock)
      (fun group captured (hs : group.store.Stands disk (groupPlace base group.id)) =>
        ⟨hs.wellFormed, hs.homed, hs.path, hs.entry⟩) fun group hg => (hb group hg).2
    have hsame : manager.SameGroups { manager with
        groups := (startCheckpoint kind (manager.nextToken clock) manager.groups).2
        lastToken := manager.nextToken clock } := ⟨rfl, rfl, rfl, rfl, hids⟩
    exact h.ofIds hsame (fun group hg => (hb group hg).1) h.wellFormed (fun _ hp => hp) hafter

theorem recover (h : manager.Stands disk) (index log : Option Token) :
    (manager.recover index log disk).2.1.Stands (manager.recover index log disk).2.2 := by
  have hall := (fanOut (recoverGroup index log) (fun state => state.2)
    (fun _ state _ hs => stays_recoverGroup hs index log state.1) (none, disk) h).2
  rw [recover_eq]
  split
  · rename_i he
    rw [he] at hall
    exact hall
  · rename_i he
    rw [he] at hall
    exact hall
  · rename_i he
    rw [he] at hall
    exact ⟨hall.wellFormed, hall.distinct, hall.below, hall.stores⟩

theorem setGroup (h : manager.Stands disk) {group changed : Group D} (hg : group ∈ manager.groups)
    (hc : ∀ place, group.store.Stands disk place → group.Stays place disk changed other) :
    (manager.setGroup changed).Stands other := by
  obtain ⟨base, hb⟩ := h.base
  have hstays := hc _ (hb group hg).2
  have hsame := SameGroups.setGroup manager changed
  refine h.ofIds hsame (fun group hg => (hb group hg).1) hstays.store.stands.wellFormed
    hstays.store.spares.directory fun found hf => ?_
  obtain ⟨old, ho, rfl⟩ := List.mem_map.mp hf
  split
  · rw [hstays.id]
    exact hstays.store.stands
  · rename_i hne
    rw [hstays.id] at hne
    exact (hb old ho).2.frame hstays.store.spares (outside_of_ne base hne)

theorem readChain (h : manager.Stands disk) (source : ChainSource) (key : Bytes)
    (cancelled : Bool) : (manager.readChain source key cancelled disk).2.Stands disk := by
  rw [Manager.readChain]
  split
  · exact h
  · rename_i group hfind
    exact h.setGroup (List.mem_of_find?_eq_some hfind) fun place hs => ⟨rfl, rfl, hs.congr rfl rfl⟩

theorem spares_next (h : manager.Stands disk) {group : Group D} (hg : group ∈ manager.groups)
    {place : Path} (hs : group.store.Stands disk place) :
    Store.SparesOpening (manager.config.groupDir manager.nextGroup)
      (Store.open? (manager.config.groupDir manager.nextGroup) manager.config disk).2
      (place ++ [Log.fileName]) := by
  have hspares :=
    Store.spares_open (manager.config.groupDir manager.nextGroup) manager.config h.wellFormed
  obtain ⟨base, hd, hk⟩ := h.stores group hg
  obtain rfl := hs.homed.unique hk.homed
  refine ⟨?_, fun next hnext he => ?_⟩
  · rw [List.getLast?_concat]
    decide
  · obtain ⟨root, hroot, rfl⟩ := Disk.homed_of_child (Config.plain_groupName _) hnext
    obtain rfl := hroot.unique (hd.mono hspares.directory)
    exact log_ne_log root (Nat.ne_of_lt (h.below group hg)) he

theorem frame (h : manager.Stands disk) :
    let other := (Store.open? (manager.config.groupDir manager.nextGroup) manager.config disk).2
    other.WellFormed ∧ ∀ group ∈ manager.groups, ∃ base,
      Disk.Homed other manager.config.dir base ∧
        group.store.Stands other (groupPlace base group.id) := by
  have hs := Store.spares_open (manager.config.groupDir manager.nextGroup) manager.config h.wellFormed
  refine ⟨hs.wellFormed, fun group hg => ?_⟩
  obtain ⟨base, hd, hk⟩ := h.stores group hg
  exact ⟨base, hd.mono hs.directory, hk.frame hs (h.spares_next hg hk)⟩

theorem register (h : manager.Stands disk) (type : KeyType)
    (definitions : List (String × (D → Option type.Value))) :
    (manager.register type definitions disk).2.1.Stands
      (manager.register type definitions disk).2.2 := by
  obtain ⟨hwell, hstores⟩ := h.frame
  have hr := registers manager type definitions disk
  generalize manager.register type definitions disk = registered at hr ⊢
  cases hr with
  | refused => exact h
  | unopened hc ho =>
    rw [ho] at hwell hstores
    exact ⟨hwell, h.distinct, fun group hg => Nat.lt_succ_of_lt (h.below group hg), hstores⟩
  | opened hc ho =>
    rw [ho] at hwell hstores
    obtain ⟨base, hbase, hk⟩ := keeps_opened h.wellFormed ho
    refine ⟨hwell, distinct_concat h.distinct h.below rfl, below_concat h.below rfl,
      fun group hg => ?_⟩
    rcases List.mem_append.mp hg with hg | hg
    · exact hstores group hg
    · rw [List.mem_singleton.mp hg]
      exact ⟨base, hbase, hk.stands⟩

end Stands

end Manager

end PredicateIndex
