import PredicateIndex.Proofs.FailedChanges
import PredicateIndex.Proofs.QueryResults

/-!
# One group among others

A group that was registered late can be followed on its own, whatever became of
the groups beside it: these may have been recovered by half or still wait for
it. A request that all groups carry out marks the index of the group that is
watched, and it does so without regard to what this index held before. All that
is done with the stores and all that fails leaves the index as it is.
-/

set_option autoImplicit false

namespace PredicateIndex

def changeWrites {D : Type} (predicates : List (Predicate D)) (old new : D × RecordId) :
    List IndexWrite :=
  if new.2 = old.2 then
    (UpdatePlan.inPlace (keyOf predicates old.1) (keyOf predicates new.1) old.2 new.2).writes
  else (UpdatePlan.copy (keyOf predicates old.1) (keyOf predicates new.1) old.2 new.2).writes

theorem ChangeTracker.plan_changeWrites {D : Type} (tracker : ChangeTracker D)
    {old new : D × RecordId} (hb : tracker.before = some old) (ha : tracker.after = some new)
    (hkind : tracker.kind = if new.2 = old.2 then .inPlace else .copy)
    (predicates : List (Predicate D)) :
    ∃ plan, UpdatePlan.ofChange tracker.kind (keyOf predicates old.1) (keyOf predicates new.1)
      tracker.beforeId tracker.afterId = .ok plan ∧ plan.writes = changeWrites predicates old new := by
  rw [beforeId, afterId, hb, ha, hkind, changeWrites]
  split <;> exact ⟨_, rfl, rfl⟩

theorem markAll_changed {D : Type} {predicates : List (Predicate D)} (h : Sized predicates)
    (old new : D) (id : RecordId) (index : Index) (chain : Bytes) (other : RecordId) :
    IndexWrite.markAll (changeWrites predicates (old, id) (new, id)) index chain other =
      if chain ∈ (keyOf predicates new).chains ∧ chain ∉ (keyOf predicates old).chains ∧ id = other
      then true
      else if chain ∈ (keyOf predicates old).chains ∧ chain ∉ (keyOf predicates new).chains ∧
        id = other then false
      else index chain other := by
  have hlength := Sized.length_keyOf predicates
  rw [changeWrites, if_pos rfl]
  exact UpdatePlan.markAll_inPlace (CompositeKey.ordered_ofOutputs _)
    (CompositeKey.ordered_ofOutputs _) (CompositeKey.fresh_ofOutputs _)
    ((hlength old).trans (hlength new).symm) (Nat.le_trans (Nat.le_of_eq (hlength old)) h.count) _ _
    index chain other

theorem markAll_copied {D : Type} {predicates : List (Predicate D)} (h : Sized predicates)
    (old new : D) {id next : RecordId} (hn : next ≠ id) (index : Index) (chain : Bytes)
    (other : RecordId) :
    IndexWrite.markAll (changeWrites predicates (old, id) (new, next)) index chain other =
      if chain ∈ (keyOf predicates new).chains ∧ next = other then true
      else if chain ∈ (keyOf predicates old).chains ∧ id = other then false
      else index chain other := by
  rw [changeWrites, if_neg hn]
  exact UpdatePlan.markAll_copy (CompositeKey.ordered_ofOutputs _)
    (Nat.le_trans (Nat.le_of_eq (Sized.length_keyOf predicates new)) h.count) _ _ index chain other

namespace Group.Reads

variable {D : Type} {group after : Group D} {place : Path} {disk other : Disk}
  {predicates : List (Predicate D)} {index : Index} {tracker last : ChangeTracker D}

theorem indexed (h : group.Reads place disk predicates index)
    (hr : group.store.awaitingRecovery = false) : group.Indexed place disk predicates index :=
  ⟨h.same, h.sized, hr, h.records⟩

theorem stands (h : group.Reads place disk predicates index) : group.store.Stands disk place := by
  obtain ⟨history, hk, -⟩ := h.records
  exact hk.stands

theorem frame {spared : Path → Prop} (h : group.Reads place disk predicates index)
    (hs : Disk.Spares spared disk other) (hp : spared (place ++ [Log.fileName])) :
    group.Reads place other predicates index := by
  obtain ⟨history, hk, ho, hi⟩ := h.records
  exact { h with records := ⟨history, hk.frame hs hp, ho, hi⟩ }

theorem onStore (h : group.Reads place disk predicates index) {store : Store}
    (hk : ∀ history, group.store.Keeps disk place history → store.Keeps other place history) :
    Reads { group with store } place other predicates index := by
  obtain ⟨history, hkeeps, ho, hi⟩ := h.records
  exact ⟨h.same, h.sized, history, hk history hkeeps, ho, hi⟩

theorem put_ok (h : group.Reads place disk predicates index) {write : IndexWrite}
    (hw : write.Fits) (hp : group.put write disk = (.ok (), after, other)) :
    after.Reads place other predicates (write.mark index) := by
  cases hr : group.store.awaitingRecovery with
  | true =>
    obtain ⟨sessions, hrefused⟩ := Store.put_awaiting hr write.key write.id write.tombstone disk
    rw [Group.put, hrefused] at hp
    cases hp
  | false =>
    obtain ⟨changed, next, hput, -, hi, -⟩ := (h.indexed hr).put hw
    rw [hput] at hp
    cases hp
    exact hi.reads

theorem putAll_ok (h : group.Reads place disk predicates index) {writes : List IndexWrite}
    (hw : ∀ write ∈ writes, write.Fits)
    (hp : Group.putAll writes group disk = (.ok (), after, other)) :
    after.Reads place other predicates (IndexWrite.markAll writes index) := by
  induction writes generalizing group disk index with
  | nil =>
    cases hp
    exact h
  | cons write rest ih =>
    rw [Group.putAll] at hp
    rcases hput : group.put write disk with ⟨fault | _, changed, next⟩ <;> rw [hput] at hp
    · cases hp
    · exact ih (h.put_ok (hw write List.mem_cons_self) hput)
        (fun later hl => hw later (List.mem_cons_of_mem write hl)) hp

theorem matching_ok (h : group.Reads place disk predicates index) {write : IndexWrite}
    (hw : write.Fits)
    (hp : Group.putAll (UpdatePlan.matching [write]) group disk = (.ok (), after, other)) :
    after.Reads place other predicates (write.mark index) := by
  have hfits : ∀ found ∈ UpdatePlan.matching [write], found.Fits := fun found hm =>
    List.mem_singleton.mp (List.mem_filter.mp hm).1 ▸ hw
  have hall := h.putAll_ok hfits hp
  rwa [IndexWrite.markAll_matching] at hall

theorem insert_ok (h : group.Reads place disk predicates index) {data : D} {id : RecordId}
    (hi : group.insert data id disk = (.ok (), after, other)) :
    after.Reads place other predicates
      (IndexWrite.mark ⟨keyOf predicates data, id, false⟩ index) := by
  have hsame : group.evaluate data = keyOf predicates data := by rw [← h.same]; rfl
  rw [Group.insert, hsame] at hi
  exact h.matching_ok (h.sized.write data id false) hi

theorem update_ok (h : group.Reads place disk predicates index) {old new : D × RecordId}
    (hc : tracker.Captured group.id (keyOf predicates old.1)) (hb : tracker.before = some old)
    (ha : tracker.after = some new)
    (hkind : tracker.kind = if new.2 = old.2 then .inPlace else .copy)
    (hu : group.update tracker disk = (.ok (), after, last, other)) :
    after.Reads place other predicates
      (IndexWrite.markAll (changeWrites predicates old new) index) := by
  obtain ⟨plan, hp, hwrites⟩ := tracker.plan_changeWrites hb ha hkind predicates
  have hfits := UpdatePlan.fits_writes (h.sized.write old.1 old.2 true)
    (h.sized.write new.1 new.2 true) hp
  have hmeans := Group.plan_captured (h.same.symm ▸ hc) (keyOf predicates new.1)
  rw [h.same, hp] at hmeans
  have hsame : group.evaluate new.1 = keyOf predicates new.1 := by rw [← h.same]; rfl
  obtain ⟨captured, found, carried, hcaptured, hfound, hcarried, hput, -⟩ := Group.update_ok hu
  rw [Indexed.captureBefore hc] at hcaptured
  cases hcaptured
  cases ha.symm.trans hfound
  rw [hsame, hmeans] at hcarried
  cases hcarried
  exact hwrites ▸ h.putAll_ok hfits hput

theorem delete_ok (h : group.Reads place disk predicates index) {data : D} {old : RecordId}
    (hc : tracker.Captured group.id (keyOf predicates data)) (hb : tracker.before = some (data, old))
    (hd : group.delete tracker disk = (.ok (), after, last, other)) :
    after.Reads place other predicates
      (IndexWrite.mark ⟨keyOf predicates data, old, true⟩ index) := by
  have hid : tracker.beforeId = old := by rw [ChangeTracker.beforeId, hb]; rfl
  rw [Indexed.delete_captured hc, hid] at hd
  rcases hput : Group.putAll (UpdatePlan.matching [⟨keyOf predicates data, old, true⟩]) group disk with
    ⟨result, changed, next⟩
  rw [hput] at hd
  cases hd
  exact h.matching_ok (h.sized.write data old true) hput

end Group.Reads

theorem Group.update_tracker {D : Type} {group after : Group D} {disk other : Disk}
    {tracker last : ChangeTracker D} (ht : tracker.capturedThrough.isSome)
    (hu : group.update tracker disk = (.ok (), after, last, other)) :
    ∃ key changes, last = tracker.setAfterKeys group.id key changes := by
  obtain ⟨captured, new, plan, hc, -, -, -, hlast⟩ := Group.update_ok hu
  rw [captureBefore, ChangeTracker.needsBefore_through ht] at hc
  cases hc
  exact ⟨plan.after, plan.hasChanges, hlast⟩

theorem Group.delete_tracker {D : Type} {group after : Group D} {disk other : Disk}
    {tracker last : ChangeTracker D} (ht : tracker.capturedThrough.isSome)
    (hd : group.delete tracker disk = (.ok (), after, last, other)) : last = tracker := by
  rw [Group.delete, captureBefore, ChangeTracker.needsBefore_through ht] at hd
  simp only [Bool.false_eq_true, if_false] at hd
  split at hd
  · cases hd
  · simp only [Prod.mk.injEq] at hd
    exact hd.2.2.1.symm
  · cases hd
    rfl
  · cases hd
    rfl

namespace Manager

variable {D : Type}

theorem onEach_all {σ : Type} (operation : Group D → σ → Except Fault Unit × Group D × σ)
    (before after : Group D → σ → Prop)
    (hstep : ∀ group state changed next, before group state →
      operation group state = (.ok (), changed, next) → changed.id = group.id ∧
        after changed next ∧ ∀ other : Group D, other.id ≠ group.id →
          (before other state → before other next) ∧ (after other state → after other next))
    {groups changed : List (Group D)} {state last : σ}
    (hd : groups.Pairwise fun g h => g.id ≠ h.id) (hb : ∀ group ∈ groups, before group state)
    (h : onEach operation groups state = (.ok (), changed, last)) :
    (∀ group ∈ changed, after group last) ∧
      ∀ other : Group D, (∀ group ∈ groups, other.id ≠ group.id) → after other state →
        after other last := by
  induction groups generalizing state changed with
  | nil =>
    cases h
    exact ⟨by simp, fun _ _ hother => hother⟩
  | cons group rest ih =>
    obtain ⟨hgroup, hrest⟩ := List.pairwise_cons.mp hd
    rw [onEach] at h
    rcases hop : operation group state with ⟨fault | _, first, middle⟩ <;> rw [hop] at h
    · cases h
    · dsimp only at h
      rcases hr : onEach operation rest middle with ⟨result, others, final⟩
      rw [hr] at h
      cases h
      obtain ⟨hid, hfirst, hframe⟩ :=
        hstep group state first middle (hb group List.mem_cons_self) hop
      have hkept : ∀ other ∈ rest, before other middle := fun other ho =>
        (hframe other fun he => hgroup other ho he.symm).1
          (hb other (List.mem_cons_of_mem group ho))
      obtain ⟨hafter, hspare⟩ := ih hrest hkept hr
      refine ⟨fun other ho => ?_, fun other ho hother => ?_⟩
      · rcases List.mem_cons.mp ho with rfl | ho
        · exact hspare other (fun later hl => hid ▸ hgroup later hl) hfirst
        · exact hafter other ho
      · exact hspare other (fun later hl => ho later (List.mem_cons_of_mem group hl))
          ((hframe other (ho group List.mem_cons_self)).2 hother)

def Seen (base : Path) (id : Nat) (predicates : List (Predicate D)) (index : Index) (disk : Disk)
    (group : Group D) : Prop :=
  group.store.Stands disk (groupPlace base group.id) ∧
    (group.id = id → group.Reads (groupPlace base group.id) disk predicates index)

theorem Seen.frame {base : Path} {id place : Nat} {predicates : List (Predicate D)} {index : Index}
    {disk other : Disk} {group : Group D} (h : Seen base id predicates index disk group)
    (hs : Disk.Spares (Store.Outside (groupPlace base place)) disk other) (hn : group.id ≠ place) :
    Seen base id predicates index other group :=
  ⟨h.1.frame hs (outside_of_ne base hn), fun hid => (h.2 hid).frame hs (outside_of_ne base hn)⟩

structure Watches (manager : Manager D) (disk : Disk) (owner id : Nat)
    (predicates : List (Predicate D)) (index : Index) : Prop where
  stands : manager.Stands disk
  identity : manager.identity = owner
  group : ∃ group ∈ manager.groups, group.id = id ∧ ∃ place, group.Reads place disk predicates index

namespace Watches

variable {manager after : Manager D} {disk other : Disk} {owner id : Nat}
  {predicates : List (Predicate D)} {index final : Index}

theorem sized (h : manager.Watches disk owner id predicates index) : Sized predicates := by
  obtain ⟨_, -, -, _, hreads⟩ := h.group
  exact hreads.sized

theorem seen (h : manager.Watches disk owner id predicates index) :
    ∃ base, ∀ group ∈ manager.groups, Seen base id predicates index disk group := by
  obtain ⟨base, hbase⟩ := h.stands.base
  obtain ⟨watched, hw, hid, place, hreads⟩ := h.group
  obtain rfl := hreads.stands.homed.unique (hbase watched hw).2.homed
  refine ⟨base, fun group hg => ⟨(hbase group hg).2, fun hn => ?_⟩⟩
  have hfound := find?_of_distinct h.stands.distinct hg
  rw [hn, ← hid, find?_of_distinct h.stands.distinct hw] at hfound
  obtain rfl := Option.some.inj hfound
  exact hreads

theorem ofSeen (h : manager.Watches disk owner id predicates index)
    (hsame : manager.SameGroups after) (hstands : after.Stands other) (base : Path)
    (hs : ∀ group ∈ after.groups, Seen base id predicates final other group) :
    after.Watches other owner id predicates final := by
  obtain ⟨watched, hw, hid, -⟩ := h.group
  have hm : watched.id ∈ after.groups.map Group.id := hsame.ids.symm ▸ List.mem_map_of_mem hw
  obtain ⟨found, hf, he⟩ := List.mem_map.mp hm
  exact ⟨hstands, hsame.identity.trans h.identity, found, hf, he.trans hid, _,
    (hs found hf).2 (he.trans hid)⟩

section

variable {σ : Type} {operation : Group D → σ → Except Fault Unit × Group D × σ} (view : σ → Disk)
  {state next : σ}

/-- An operation that all groups carry out does to the watched group what it does to it alone. -/
theorem carried (h : manager.Watches (view state) owner id predicates index)
    (tells : Nat → σ → Prop)
    (hstays : ∀ (group : Group D) state place, group.store.Stands (view state) place →
      group.Stays place (view state) (operation group state).2.1 (view (operation group state).2.2))
    (htells : ∀ group state changed next, tells group.id state →
      operation group state = (.ok (), changed, next) →
        ∀ other, other ≠ group.id → tells other state → tells other next)
    (hreads : ∀ (group : Group D) state changed next place, group.id = id → tells id state →
      operation group state = (.ok (), changed, next) →
        group.Reads place (view state) predicates index →
          changed.Reads place (view next) predicates final)
    (hall : ∀ group ∈ manager.groups, tells group.id state)
    (hok : manager.onGroups operation state = (.ok (), after, next)) :
    after.Watches (view next) owner id predicates final := by
  obtain ⟨base, hseen⟩ := h.seen
  have hstands := Stands.fanOut operation view hstays state h.stands
  rw [hok] at hstands
  refine h.ofSeen hstands.1 hstands.2 base ?_
  rw [onGroups] at hok
  rcases he : onEach operation manager.groups state with ⟨result, changed, last⟩
  rw [he] at hok
  cases hok
  refine (onEach_all operation
    (fun group state => Seen base id predicates index (view state) group ∧ tells group.id state)
    (fun group state => Seen base id predicates final (view state) group)
    (fun group state changed next hb hop => ?_) h.stands.distinct
    (fun group hg => ⟨hseen group hg, hall group hg⟩) he).1
  obtain ⟨hs, ht⟩ := hb
  have hstay := hstays group state _ hs.1
  rw [hop] at hstay
  refine ⟨hstay.id, ⟨?_, fun hid => ?_⟩, fun other hn => ⟨fun ho => ?_, fun ho => ?_⟩⟩
  · rw [hstay.id]
    exact hstay.store.stands
  · have hwatched := hstay.id.symm.trans hid
    rw [hstay.id]
    exact hreads group state changed next _ hwatched (hwatched ▸ ht) hop (hs.2 hwatched)
  · exact ⟨ho.1.frame hstay.store.spares hn, htells group state changed next ht hop other.id hn ho.2⟩
  · exact ho.frame hstay.store.spares hn

theorem kept (h : manager.Watches (view state) owner id predicates index)
    (hstays : ∀ (group : Group D) state place, group.store.Stands (view state) place →
      group.Stays place (view state) (operation group state).2.1 (view (operation group state).2.2))
    (hreads : ∀ (group : Group D) state place, group.Reads place (view state) predicates index →
      (operation group state).2.1.Reads place (view (operation group state).2.2) predicates index) :
    (manager.onGroups operation state).2.1.Watches (view (manager.onGroups operation state).2.2)
      owner id predicates index := by
  obtain ⟨base, hseen⟩ := h.seen
  have hstands := Stands.fanOut operation view hstays state h.stands
  refine h.ofSeen hstands.1 hstands.2 base (onEach_keeps operation
    (fun group state => Seen base id predicates index (view state) group)
    (fun group state hs => ?_) state h.stands.distinct hseen).2.1
  have hstay := hstays group state _ hs.1
  refine ⟨hstay.id, ⟨?_, fun hid => ?_⟩, fun other hn ho => ho.frame hstay.store.spares hn⟩
  · rw [hstay.id]
    exact hstay.store.stands
  · rw [hstay.id]
    exact hreads group state _ (hs.2 (hstay.id.symm.trans hid))

end

theorem insert_ok (h : manager.Watches disk owner id predicates index) {data : D} {new : RecordId}
    (hi : manager.insert data new disk = (.ok (), after, other)) :
    after.Watches other owner id predicates
      (IndexWrite.mark ⟨keyOf predicates data, new, false⟩ index) :=
  carried (fun disk : Disk => disk) h (fun _ _ => True)
    (fun _ _ _ hs => Group.stays_insert hs data new) (fun _ _ _ _ _ _ _ _ _ => trivial)
    (fun _ _ _ _ _ _ _ hop hr => hr.insert_ok hop) (fun _ _ => trivial) hi

theorem captured (h : manager.Watches disk owner id predicates index) (data : D)
    (old : RecordId) : (manager.beginUpdate data old).before = some (data, old) ∧
      (manager.beginUpdate data old).Captured id (keyOf predicates data) := by
  obtain ⟨hbefore, hkeys⟩ := Request.captured h.stands data old
  obtain ⟨group, hg, hid, place, hreads⟩ := h.group
  have hcaptured := hkeys group hg
  rw [schema_eq h.stands.distinct hg, hreads.same, hid] at hcaptured
  exact ⟨hbefore, hcaptured⟩

theorem update_ok (h : manager.Watches disk owner id predicates index) {old new : D × RecordId}
    {last : ChangeTracker D} (hu : manager.update
      ((manager.beginUpdate old.1 old.2).setAfter new.1 new.2) disk = (.ok (), after, last, other)) :
    after.Watches other owner id predicates
      (IndexWrite.markAll (changeWrites predicates old new) index) := by
  obtain ⟨hbefore, hcaptured⟩ := h.captured old.1 old.2
  have hkind : ((manager.beginUpdate old.1 old.2).setAfter new.1 new.2).kind =
      if new.2 = old.2 then .inPlace else .copy := by
    simp only [ChangeTracker.setAfter, hbefore]
  refine carried (fun state : ChangeTracker D × Disk => state.2) h
    (fun group state => state.1.before = some old ∧ state.1.after = some new ∧
      state.1.kind = (if new.2 = old.2 then .inPlace else .copy) ∧
      state.1.capturedThrough.isSome ∧
      (group = id → state.1.Captured id (keyOf predicates old.1)))
    (fun _ state _ hs => Group.stays_update hs state.1)
    (fun group state changed next ht hop another hn ho => ?_)
    (fun group state changed next place hid ht hop hr => ?_)
    (fun _ _ => ⟨hbefore, rfl, hkind, hcaptured.through,
      fun _ => ⟨hcaptured.through, hcaptured.keys⟩⟩) hu
  · obtain ⟨key, changes, hlast⟩ := Group.update_tracker ht.2.2.2.1 hop
    obtain ⟨hb, ha, hk, hthrough, hkeys⟩ := ho
    rw [hlast]
    exact ⟨hb, ha, hk, hthrough, fun he => (hkeys he).setAfterKeys (he ▸ hn) key changes⟩
  · obtain ⟨hb, ha, hk, -, hkeys⟩ := ht
    exact hr.update_ok (hid ▸ hkeys rfl) hb ha hk hop

theorem delete_ok (h : manager.Watches disk owner id predicates index) {data : D} {old : RecordId}
    {last : ChangeTracker D}
    (hd : manager.delete (manager.beginUpdate data old) disk = (.ok (), after, last, other)) :
    after.Watches other owner id predicates
      (IndexWrite.mark ⟨keyOf predicates data, old, true⟩ index) := by
  obtain ⟨hbefore, hcaptured⟩ := h.captured data old
  refine carried (fun state : ChangeTracker D × Disk => state.2) h
    (fun _ state => state.1.before = some (data, old) ∧ state.1.Captured id (keyOf predicates data))
    (fun _ state _ hs => Group.stays_delete hs state.1)
    (fun group state changed next ht hop another hn ho => ?_)
    (fun group state changed next place hid ht hop hr => hr.delete_ok (hid ▸ ht.2) ht.1 hop)
    (fun _ _ => ⟨hbefore, hcaptured.through, hcaptured.keys⟩) hd
  rw [Group.delete_tracker ht.2.through hop]
  exact ho

theorem flush (h : manager.Watches disk owner id predicates index) :
    (manager.flush disk).2.1.Watches (manager.flush disk).2.2 owner id predicates index :=
  kept (fun disk : Disk => disk) h (fun _ _ _ hs => ⟨rfl, rfl, hs.flush⟩)
    fun _ _ _ hr => hr.onStore fun _ hk => hk.flush

theorem evict (h : manager.Watches disk owner id predicates index) :
    (manager.evict disk).2.1.Watches (manager.evict disk).2.2 owner id predicates index :=
  kept (fun disk : Disk => disk) h (fun _ _ _ hs => ⟨rfl, rfl, hs.evict⟩)
    fun _ _ _ hr => hr.onStore fun _ hk => hk.evict

theorem completeCheckpoint (h : manager.Watches disk owner id predicates index) :
    (manager.completeCheckpoint disk).2.1.Watches (manager.completeCheckpoint disk).2.2 owner id
      predicates index := by
  refine kept (fun state : Option Token × Disk => state.2) h (fun group state place hs => ?_)
    fun group state place hr => ?_
  · have hc := hs.complete
    obtain ⟨result, store, other, he⟩ : ∃ result store other,
      group.store.complete state.2 = (result, store, other) := ⟨_, _, _, rfl⟩
    rw [he] at hc
    simp only [Group.onStore, he]
    cases result <;> exact ⟨rfl, rfl, hc⟩
  · have hc := hr.onStore fun _ hk => hk.complete.1
    obtain ⟨result, store, other, he⟩ : ∃ result store other,
      group.store.complete state.2 = (result, store, other) := ⟨_, _, _, rfl⟩
    rw [he] at hc
    simp only [Group.onStore, he]
    cases result <;> exact hc

theorem takeCheckpoint (h : manager.Watches disk owner id predicates index)
    (kind : CheckpointKind) (clock : UInt64) :
    (manager.takeCheckpoint kind clock).2.Watches disk owner id predicates index := by
  have hstands := h.stands.takeCheckpoint kind clock
  rw [Manager.takeCheckpoint] at hstands ⊢
  split
  · exact h
  · rename_i hfree
    rw [if_neg hfree] at hstands
    obtain ⟨base, hseen⟩ := h.seen
    obtain ⟨hids, hafter⟩ := startCheckpoint_keeps kind (manager.nextToken clock)
      (fun group captured (hs : Seen base id predicates index disk group) =>
        ⟨⟨hs.1.wellFormed, hs.1.homed, hs.1.path, hs.1.entry⟩,
          fun hid => (hs.2 hid).onStore fun _ hk => hk.congr rfl rfl rfl⟩) hseen
    exact h.ofSeen ⟨rfl, rfl, rfl, rfl, hids⟩ hstands base hafter

theorem setGroup (h : manager.Watches disk owner id predicates index) {group : Group D}
    (hg : group ∈ manager.groups) {store : Store} (hdir : store.dir = group.store.dir)
    (hlog : store.log = group.store.log) (hheads : store.heads = group.store.heads) :
    (manager.setGroup { group with store }).Watches disk owner id predicates index := by
  have hstays : ∀ place, group.store.Stands disk place →
      group.Stays place disk { group with store } disk := fun _ hs => ⟨rfl, rfl, hs.congr hdir hlog⟩
  have hstands := h.stands.setGroup hg hstays
  obtain ⟨base, hseen⟩ := h.seen
  refine h.ofSeen (SameGroups.setGroup manager _) hstands base fun changed hc => ?_
  obtain ⟨old, ho, rfl⟩ := List.mem_map.mp hc
  by_cases he : old.id = group.id
  · rw [if_pos he]
    exact ⟨((hseen group hg).1.congr hdir hlog).stands,
      fun hid => ((hseen group hg).2 hid).onStore fun _ hk => hk.congr hdir hlog hheads⟩
  · rw [if_neg he]
    exact hseen old ho

theorem readChain (h : manager.Watches disk owner id predicates index) (source : ChainSource)
    (key : Bytes) (cancelled : Bool) :
    (manager.readChain source key cancelled disk).2.Watches disk owner id predicates index := by
  rw [Manager.readChain]
  split
  · exact h
  · rename_i group hfind
    exact h.setGroup (List.mem_of_find?_eq_some hfind) rfl rfl rfl

theorem register (h : manager.Watches disk owner id predicates index) (type : KeyType)
    (definitions : List (String × (D → Option type.Value))) :
    (manager.register type definitions disk).2.1.Watches
      (manager.register type definitions disk).2.2 owner id predicates index := by
  have hstands := h.stands.register type definitions
  obtain ⟨group, hg, hid, place, hreads⟩ := h.group
  have hframe := hreads.frame (Store.spares_open _ _ h.stands.wellFormed)
    (h.stands.spares_next hg hreads.stands)
  have hr := registers manager type definitions disk
  generalize manager.register type definitions disk = registered at hr hstands ⊢
  cases hr with
  | refused => exact h
  | unopened hc ho =>
    rw [ho] at hframe
    exact ⟨hstands, h.identity, group, hg, hid, place, hframe⟩
  | opened hc ho =>
    rw [ho] at hframe
    exact ⟨hstands, h.identity, group, List.mem_append_left _ hg, hid, place, hframe⟩

theorem registered (hs : manager.Stands disk) {type : KeyType}
    {definitions : List (String × (D → Option type.Value))} {handles : List (Handle type)}
    (hr : manager.register type definitions disk = (.ok handles, after, other)) :
    after.Watches other manager.identity manager.nextGroup
        (definitions.map fun definition => ⟨definition.1, type, definition.2⟩) (fun _ _ => false) ∧
      handles = Manager.handles type manager.nextGroup manager.identity 0
        (definitions.map (·.1)) := by
  have hstands := hs.register type definitions
  rw [hr] at hstands
  have hregisters := registers manager type definitions disk
  rw [hr] at hregisters
  cases hregisters with
  | opened hc ho =>
    obtain ⟨base, -, hk⟩ := keeps_opened hs.wellFormed ho
    exact ⟨⟨hstands, rfl, _, List.mem_append_right _ List.mem_cons_self, rfl, _, rfl,
      sized_of_check hc, [], hk, by simp, Store.indexOf_nil⟩, rfl⟩

end Watches

end Manager

end PredicateIndex
