import PredicateIndex.Manager.Checkpointing
import PredicateIndex.Manager.Queries
import PredicateIndex.Proofs.GroupIndex

/-!
# The indexes of a manager

The groups of a manager have directories of their own, so an operation on one
group leaves the logs of the others alone. Going through all groups therefore
gives every group the effect that the operation has on it alone.
-/

set_option autoImplicit false

namespace PredicateIndex

namespace Config

def groupName (group : Nat) : String := s!"group-{group}"

theorem groupName_eq (group : Nat) : groupName group = "group-" ++ group.repr := rfl

theorem groupName_injective {m n : Nat} (h : groupName m = groupName n) : m = n := by
  rw [groupName_eq, groupName_eq, String.append_right_inj, Nat.repr_eq_ofList_toDigits,
    Nat.repr_eq_ofList_toDigits, String.ofList_inj] at h
  have hn := congrArg (Nat.ofDigitChars 10 · 0) h
  simpa using hn

theorem plain_groupName (group : Nat) : Path.Plain (groupName group) := by
  have hl : ∃ rest, (groupName group).toList = 'g' :: 'r' :: 'o' :: rest := by
    rw [groupName_eq, String.toList_append]
    exact ⟨_, rfl⟩
  obtain ⟨rest, hl⟩ := hl
  refine ⟨fun h => ?_, fun h => ?_, fun h => ?_⟩ <;>
  · rw [h] at hl
    cases hl

end Config

namespace Manager

variable {D : Type}

def groupPlace (base : Path) (group : Nat) : Path := base ++ [Config.groupName group]

theorem log_ne_log (base : Path) {group other : Nat} (h : other ≠ group) :
    groupPlace base other ++ [Log.fileName] ≠ groupPlace base group ++ [Log.fileName] := by
  intro he
  have hname := (List.append_inj' (List.append_inj' he rfl).1 rfl).2
  exact h (Config.groupName_injective (List.cons.inj hname).1)

theorem outside_of_ne (base : Path) {group other : Nat} (h : other ≠ group) :
    Store.Outside (groupPlace base group) (groupPlace base other ++ [Log.fileName]) :=
  ⟨log_ne_log base h, Store.apart_log _⟩

/-- What holds of every group before an operation turns into what the operation makes hold, if it
leaves both alone for the other groups. -/
theorem onEach_ok {σ : Type} (operation : Group D → σ → Except Fault Unit × Group D × σ)
    (before after : Group D → σ → Prop)
    (hstep : ∀ group state, before group state → ∃ changed next,
      operation group state = (.ok (), changed, next) ∧ changed.id = group.id ∧
        after changed next ∧ ∀ other : Group D, other.id ≠ group.id →
          (before other state → before other next) ∧ (after other state → after other next))
    {groups : List (Group D)} (state : σ) (hd : groups.Pairwise fun g h => g.id ≠ h.id)
    (hb : ∀ group ∈ groups, before group state) :
    ∃ changed next, onEach operation groups state = (.ok (), changed, next) ∧
      changed.map Group.id = groups.map Group.id ∧ (∀ group ∈ changed, after group next) ∧
      ∀ other : Group D, (∀ group ∈ groups, other.id ≠ group.id) → after other state →
        after other next := by
  induction groups generalizing state with
  | nil => exact ⟨[], state, rfl, rfl, by simp, fun _ _ h => h⟩
  | cons group rest ih =>
    obtain ⟨hgroup, hrest⟩ := List.pairwise_cons.mp hd
    obtain ⟨first, middle, hop, hid, hfirst, hframe⟩ :=
      hstep group state (hb group List.mem_cons_self)
    have hkept : ∀ other ∈ rest, before other middle := fun other ho =>
      (hframe other fun he => hgroup other ho he.symm).1 (hb other (List.mem_cons_of_mem group ho))
    obtain ⟨others, next, hothers, hids, hafter, hspare⟩ := ih _ hrest hkept
    refine ⟨first :: others, next, ?_, ?_, fun other ho => ?_, fun other ho hother => ?_⟩
    · rw [onEach, hop]
      simp only [hothers]
    · rw [List.map_cons, hid, hids, List.map_cons]
    · rcases List.mem_cons.mp ho with rfl | ho
      · exact hspare other (fun later hl => hid ▸ hgroup later hl) hfirst
      · exact hafter other ho
    · exact hspare other (fun later hl => ho later (List.mem_cons_of_mem group hl))
        ((hframe other (ho group List.mem_cons_self)).2 hother)

theorem onEach_keeps {σ : Type} (operation : Group D → σ → Except Fault Unit × Group D × σ)
    (inv : Group D → σ → Prop)
    (hstep : ∀ group state, inv group state → (operation group state).2.1.id = group.id ∧
      inv (operation group state).2.1 (operation group state).2.2 ∧
      ∀ other : Group D, other.id ≠ group.id → inv other state →
        inv other (operation group state).2.2)
    {groups : List (Group D)} (state : σ) (hd : groups.Pairwise fun g h => g.id ≠ h.id)
    (hi : ∀ group ∈ groups, inv group state) :
    (onEach operation groups state).2.1.map Group.id = groups.map Group.id ∧
      (∀ group ∈ (onEach operation groups state).2.1, inv group (onEach operation groups state).2.2) ∧
      ∀ other : Group D, (∀ group ∈ groups, other.id ≠ group.id) → inv other state →
        inv other (onEach operation groups state).2.2 := by
  induction groups generalizing state with
  | nil => exact ⟨rfl, by simp [onEach], fun _ _ h => h⟩
  | cons group rest ih =>
    obtain ⟨hgroup, hrest⟩ := List.pairwise_cons.mp hd
    obtain ⟨hid, hfirst, hframe⟩ := hstep group state (hi group List.mem_cons_self)
    have hkept : ∀ other ∈ rest, inv other (operation group state).2.2 := fun other ho =>
      hframe other (fun he => hgroup other ho he.symm) (hi other (List.mem_cons_of_mem group ho))
    rw [onEach]
    cases hop : operation group state with
    | mk result changed =>
      obtain ⟨first, middle⟩ := changed
      rw [hop] at hid hfirst hframe hkept
      dsimp only at hid hfirst hframe hkept
      cases result with
      | error fault =>
        refine ⟨by simp [hid], fun other ho => ?_, fun other ho hother => ?_⟩
        · rcases List.mem_cons.mp ho with rfl | ho
          · exact hfirst
          · exact hkept other ho
        · exact hframe other (ho group List.mem_cons_self) hother
      | ok =>
        obtain ⟨hids, hafter, hspare⟩ := ih _ hrest hkept
        refine ⟨by simp [hid, hids], fun other ho => ?_, fun other ho hother => ?_⟩
        · rcases List.mem_cons.mp ho with rfl | ho
          · exact hspare other (fun later hl => hid ▸ hgroup later hl) hfirst
          · exact hafter other ho
        · exact hspare other (fun later hl => ho later (List.mem_cons_of_mem group hl))
            (hframe other (ho group List.mem_cons_self) hother)

theorem distinct_of_ids {groups changed : List (Group D)}
    (h : changed.map Group.id = groups.map Group.id) (hd : groups.Pairwise fun g h => g.id ≠ h.id) :
    changed.Pairwise fun g h => g.id ≠ h.id := by
  have hids : (groups.map Group.id).Pairwise (· ≠ ·) := List.pairwise_map.mpr hd
  rw [← h] at hids
  exact List.pairwise_map.mp hids

theorem find?_of_distinct {groups : List (Group D)} (hd : groups.Pairwise fun g h => g.id ≠ h.id)
    {group : Group D} (hg : group ∈ groups) :
    groups.find? (fun other => other.id = group.id) = some group := by
  induction groups with
  | nil => cases hg
  | cons first rest ih =>
    obtain ⟨hfirst, hrest⟩ := List.pairwise_cons.mp hd
    rcases List.mem_cons.mp hg with rfl | hg
    · simp
    · rw [List.find?_cons_of_neg (by simpa using hfirst group hg)]
      exact ih hrest hg

structure Indexed (manager : Manager D) (disk : Disk) (base : Path)
    (schema : Nat → List (Predicate D)) (index : Nat → Index) : Prop where
  distinct : manager.groups.Pairwise fun g h => g.id ≠ h.id
  group : ∀ group ∈ manager.groups,
    group.Indexed (groupPlace base group.id) disk (schema group.id) (index group.id)

structure SameGroups (manager after : Manager D) : Prop where
  config : after.config = manager.config
  identity : after.identity = manager.identity
  names : after.names = manager.names
  nextGroup : after.nextGroup = manager.nextGroup
  ids : after.groups.map Group.id = manager.groups.map Group.id

namespace SameGroups

variable {manager middle after : Manager D}

theorem refl (manager : Manager D) : manager.SameGroups manager := ⟨rfl, rfl, rfl, rfl, rfl⟩

theorem trans (h : manager.SameGroups middle) (ha : middle.SameGroups after) :
    manager.SameGroups after :=
  ⟨ha.config.trans h.config, ha.identity.trans h.identity, ha.names.trans h.names,
    ha.nextGroup.trans h.nextGroup, ha.ids.trans h.ids⟩

theorem setGroup (manager : Manager D) (group : Group D) :
    manager.SameGroups (manager.setGroup group) := by
  refine ⟨rfl, rfl, rfl, rfl, ?_⟩
  rw [Manager.setGroup, List.map_map]
  apply List.map_congr_left
  intro other _
  show Group.id (if other.id = group.id then group else other) = other.id
  split
  · rename_i he
    exact he.symm
  · rfl

end SameGroups

namespace Indexed

variable {manager : Manager D} {disk other : Disk} {base : Path}
  {schema : Nat → List (Predicate D)} {index : Nat → Index}

/-- An operation that every group carries out as some writes, given what is known of the state for
it, marks each index by the writes of the group. -/
theorem carries {σ : Type} (h : manager.Indexed disk base schema index)
    (operation : Group D → σ → Except Fault Unit × Group D × σ) (view : σ → Disk)
    (knows : Nat → σ → Prop) (writes : Nat → List IndexWrite)
    (hop : ∀ (group : Group D) state place, knows group.id state →
      group.Indexed place (view state) (schema group.id) (index group.id) →
      ∃ after next, operation group state = (.ok (), after, next) ∧ after.id = group.id ∧
        after.Indexed place (view next) (schema group.id)
          (IndexWrite.markAll (writes group.id) (index group.id)) ∧
        Disk.Spares (· ≠ place ++ [Log.fileName]) (view state) (view next) ∧
        ∀ other, other ≠ group.id → knows other state → knows other next)
    (state : σ) (hv : view state = disk) (hk : ∀ group ∈ manager.groups, knows group.id state) :
    ∃ after next, manager.onGroups operation state = (.ok (), after, next) ∧
      manager.SameGroups after ∧ after.Indexed (view next) base schema fun group =>
        IndexWrite.markAll (writes group) (index group) := by
  obtain ⟨changed, next, heach, hids, ha, -⟩ := onEach_ok operation
    (fun group state => knows group.id state ∧
      group.Indexed (groupPlace base group.id) (view state) (schema group.id) (index group.id))
    (fun group state => group.Indexed (groupPlace base group.id) (view state) (schema group.id)
      (IndexWrite.markAll (writes group.id) (index group.id)))
    (fun group state hg => by
      obtain ⟨after, next, hrun, hid, hafter, hs, hstay⟩ := hop group state _ hg.1 hg.2
      refine ⟨after, next, hrun, hid, hid ▸ hafter, fun other hn => ⟨fun hb => ?_, fun hb => ?_⟩⟩
      · exact ⟨hstay other.id hn hb.1, hb.2.frame hs (log_ne_log base hn)⟩
      · exact hb.frame hs (log_ne_log base hn))
    state h.distinct fun group hg => ⟨hk group hg, hv ▸ h.group group hg⟩
  refine ⟨{ manager with groups := changed }, next, ?_, ⟨rfl, rfl, rfl, rfl, hids⟩,
    distinct_of_ids hids h.distinct, ha⟩
  rw [onGroups, heach]

theorem insert (h : manager.Indexed disk base schema index) (data : D) (id : RecordId) :
    ∃ after other, manager.insert data id disk = (.ok (), after, other) ∧
      manager.SameGroups after ∧ after.Indexed other base schema fun group =>
        IndexWrite.mark ⟨keyOf (schema group) data, id, false⟩ (index group) :=
  h.carries (fun group disk => group.insert data id disk) (fun disk => disk) (fun _ _ => True)
    (fun group => [⟨keyOf (schema group) data, id, false⟩])
    (fun group disk place _ hg => by
      obtain ⟨after, other, hi, hid, hafter, hs⟩ := hg.insert data id
      exact ⟨after, other, hi, hid, hafter, hs, fun _ _ _ => trivial⟩)
    disk rfl fun _ _ => trivial

theorem update (h : manager.Indexed disk base schema index) {tracker : ChangeTracker D}
    {old new : D × RecordId} (hb : tracker.before = some old) (ha : tracker.after = some new)
    (hc : ∀ group ∈ manager.groups, tracker.Captured group.id (keyOf (schema group.id) old.1))
    {plan : Nat → UpdatePlan}
    (hp : ∀ group, UpdatePlan.ofChange tracker.kind (keyOf (schema group) old.1)
      (keyOf (schema group) new.1) old.2 new.2 = .ok (plan group)) :
    ∃ after changed other, manager.update tracker disk = (.ok (), after, changed, other) ∧
      manager.SameGroups after ∧ after.Indexed other base schema fun group =>
        IndexWrite.markAll (plan group).writes (index group) := by
  obtain ⟨after, next, hu, hsame, hafter⟩ := h.carries
    (fun group (state : ChangeTracker D × Disk) => group.update state.1 state.2)
    (fun state => state.2)
    (fun group state => state.1.before = some old ∧ state.1.after = some new ∧
      state.1.kind = tracker.kind ∧ state.1.Captured group (keyOf (schema group) old.1))
    (fun group => (plan group).writes)
    (fun group state place hg hindexed => by
      obtain ⟨hold, hnew, hkind, hcaptured⟩ := hg
      have hplan := hp group.id
      have hbid : state.1.beforeId = old.2 := by rw [ChangeTracker.beforeId, hold]; rfl
      have haid : state.1.afterId = new.2 := by rw [ChangeTracker.afterId, hnew]; rfl
      rw [← hkind, ← hbid, ← haid] at hplan
      obtain ⟨after, other, hu, hid, hafter, hs⟩ := hindexed.update hcaptured hnew hplan
      refine ⟨after, _, hu, hid, hafter, hs, fun another hn hother => ?_⟩
      exact ⟨hother.1, hother.2.1, hother.2.2.1, hother.2.2.2.setAfterKeys hn _ _⟩)
    (tracker, disk) rfl fun group hg => ⟨hb, ha, rfl, hc group hg⟩
  exact ⟨after, next.1, next.2, hu, hsame, hafter⟩

theorem delete (h : manager.Indexed disk base schema index) {tracker : ChangeTracker D}
    {old : D × RecordId} (hb : tracker.before = some old)
    (hc : ∀ group ∈ manager.groups, tracker.Captured group.id (keyOf (schema group.id) old.1)) :
    ∃ after changed other, manager.delete tracker disk = (.ok (), after, changed, other) ∧
      manager.SameGroups after ∧ after.Indexed other base schema fun group =>
        IndexWrite.mark ⟨keyOf (schema group) old.1, old.2, true⟩ (index group) := by
  obtain ⟨after, next, hd, hsame, hafter⟩ := h.carries
    (fun group (state : ChangeTracker D × Disk) => group.delete state.1 state.2)
    (fun state => state.2)
    (fun group state => state.1.before = some old ∧
      state.1.Captured group (keyOf (schema group) old.1))
    (fun group => [⟨keyOf (schema group) old.1, old.2, true⟩])
    (fun group state place hg hindexed => by
      obtain ⟨hold, hcaptured⟩ := hg
      have hbid : state.1.beforeId = old.2 := by rw [ChangeTracker.beforeId, hold]; rfl
      obtain ⟨after, other, hd, hid, hafter, hs⟩ := hindexed.delete hcaptured
      rw [hbid] at hafter
      exact ⟨after, _, hd, hid, hafter, hs, fun another hn hother => hother⟩)
    (tracker.setKind .delete, disk) rfl
    fun group hg => ⟨hb, (hc group hg).through, (hc group hg).keys⟩
  exact ⟨after, next.1, next.2, hd, hsame, hafter⟩

theorem onStores {σ : Type} (h : manager.Indexed disk base schema index)
    (operation : Group D → σ → Except Fault Unit × Group D × σ) (view : σ → Disk) {state : σ}
    (hv : view state = disk)
    (hop : ∀ group state place index, group.Indexed place (view state) (schema group.id) index →
      (operation group state).2.1.id = group.id ∧
      (operation group state).2.1.Indexed place (view (operation group state).2.2)
        (schema group.id) index ∧
      Disk.Spares (Store.Outside place) (view state) (view (operation group state).2.2)) :
    manager.SameGroups (manager.onGroups operation state).2.1 ∧
      (manager.onGroups operation state).2.1.Indexed (view (manager.onGroups operation state).2.2)
        base schema index := by
  obtain ⟨hids, ha, -⟩ := onEach_keeps operation
    (fun group state =>
      group.Indexed (groupPlace base group.id) (view state) (schema group.id) (index group.id))
    (fun group state hg => by
      obtain ⟨hid, hi, hs⟩ := hop group state _ _ hg
      refine ⟨hid, ?_, fun other hn ho => ho.frame hs (outside_of_ne base hn)⟩
      rw [hid]
      exact hi)
    state h.distinct (fun group hg => hv ▸ h.group group hg)
  exact ⟨⟨rfl, rfl, rfl, rfl, hids⟩, distinct_of_ids hids h.distinct, ha⟩

theorem flush (h : manager.Indexed disk base schema index) :
    manager.SameGroups (manager.flush disk).2.1 ∧
      (manager.flush disk).2.1.Indexed (manager.flush disk).2.2 base schema index := by
  apply h.onStores _ (fun disk : Disk => disk) rfl
  intro group state place index hg
  obtain ⟨history, hk, -⟩ := hg.records
  exact ⟨rfl, hg.onStore rfl fun _ hk => hk.flush, hk.spares_flush.weaken fun p hp => hp.1⟩

theorem evict (h : manager.Indexed disk base schema index) :
    manager.SameGroups (manager.evict disk).2.1 ∧
      (manager.evict disk).2.1.Indexed (manager.evict disk).2.2 base schema index := by
  apply h.onStores _ (fun disk : Disk => disk) rfl
  intro group state place index hg
  obtain ⟨history, hk, -⟩ := hg.records
  exact ⟨rfl, hg.onStore rfl fun _ hk => hk.evict, hk.spares_evict.weaken fun p hp => hp.1⟩

theorem completeCheckpoint (h : manager.Indexed disk base schema index) :
    manager.SameGroups (manager.completeCheckpoint disk).2.1 ∧
      (manager.completeCheckpoint disk).2.1.Indexed (manager.completeCheckpoint disk).2.2 base
        schema index := by
  apply h.onStores _ (fun state : Option Token × Disk => state.2) rfl
  intro group state place index hg
  obtain ⟨history, hk, -⟩ := hg.records
  have hs := hk.complete.2
  have hi := hg.onStore (Store.awaitingRecovery_complete group.store state.2)
    fun _ hk => hk.complete.1
  obtain ⟨result, store, other, hc⟩ : ∃ result store other,
    group.store.complete state.2 = (result, store, other) := ⟨_, _, _, rfl⟩
  rw [hc] at hs hi
  simp only [Group.onStore, hc]
  cases result with
  | error fault => exact ⟨rfl, hi, hs⟩
  | ok token => exact ⟨rfl, hi, hs⟩

end Indexed

theorem startCheckpoint_keeps (kind : CheckpointKind) (token : Token) {inv : Group D → Prop}
    (hinv : ∀ group captured, inv group →
      inv { group with store := { group.store with captured } })
    {groups : List (Group D)} (h : ∀ group ∈ groups, inv group) :
    (startCheckpoint kind token groups).2.map Group.id = groups.map Group.id ∧
      ∀ group ∈ (startCheckpoint kind token groups).2, inv group := by
  induction groups with
  | nil => exact ⟨rfl, h⟩
  | cons group rest ih =>
    obtain ⟨hids, hrest⟩ := ih fun other ho => h other (List.mem_cons_of_mem group ho)
    have hgroup := h group List.mem_cons_self
    rw [startCheckpoint]
    cases ht : group.store.take kind token with
    | error fault => exact ⟨rfl, h⟩
    | ok taken =>
      obtain ⟨started, store⟩ := taken
      obtain ⟨captured, rfl⟩ := Store.take_captured ht
      cases started with
      | false => exact ⟨rfl, h⟩
      | true =>
        have hcons : ∀ changed : Group D, changed.id = group.id → inv changed →
            (changed :: (startCheckpoint kind token rest).2).map Group.id =
              (group :: rest).map Group.id ∧
            ∀ other ∈ changed :: (startCheckpoint kind token rest).2, inv other := by
          intro changed hid hchanged
          refine ⟨by rw [List.map_cons, hid, hids, List.map_cons], fun other ho => ?_⟩
          rcases List.mem_cons.mp ho with rfl | ho
          · exact hchanged
          · exact hrest other ho
        obtain ⟨aborted, -, hab⟩ := Store.abort_captured { group.store with captured } token
        dsimp only
        split
        · rename_i others hs
          rw [hs] at hcons
          exact hcons _ rfl (hinv group captured hgroup)
        · rename_i outcome others _ hs
          rw [hs] at hcons
          rw [hab]
          exact hcons _ rfl (hinv group aborted hgroup)

namespace Indexed

variable {manager : Manager D} {disk : Disk} {base : Path} {schema : Nat → List (Predicate D)}
  {index : Nat → Index}

theorem takeCheckpoint (h : manager.Indexed disk base schema index) (kind : CheckpointKind)
    (clock : UInt64) : manager.SameGroups (manager.takeCheckpoint kind clock).2 ∧
      (manager.takeCheckpoint kind clock).2.Indexed disk base schema index := by
  rw [Manager.takeCheckpoint]
  split
  · exact ⟨⟨rfl, rfl, rfl, rfl, rfl⟩, h⟩
  · obtain ⟨hids, ha⟩ := startCheckpoint_keeps kind (manager.nextToken clock)
      (fun group captured hg => hg.onStore rfl fun _ hk => hk.congr rfl rfl rfl) h.group
    exact ⟨⟨rfl, rfl, rfl, rfl, hids⟩, distinct_of_ids hids h.distinct, ha⟩

theorem setGroup (h : manager.Indexed disk base schema index) {group : Group D}
    (hg : group.Indexed (groupPlace base group.id) disk (schema group.id) (index group.id)) :
    manager.SameGroups (manager.setGroup group) ∧
      (manager.setGroup group).Indexed disk base schema index := by
  have hsame := SameGroups.setGroup manager group
  refine ⟨hsame, distinct_of_ids hsame.ids h.distinct, fun changed hc => ?_⟩
  obtain ⟨other, ho, rfl⟩ := List.mem_map.mp hc
  split
  · exact hg
  · exact h.group other ho

theorem readChain (h : manager.Indexed disk base schema index) (source : ChainSource)
    (key : Bytes) (cancelled : Bool) :
    manager.SameGroups (manager.readChain source key cancelled disk).2 ∧
      (manager.readChain source key cancelled disk).2.Indexed disk base schema index := by
  rw [Manager.readChain]
  split
  · exact ⟨⟨rfl, rfl, rfl, rfl, rfl⟩, h⟩
  · rename_i group hfind
    apply h.setGroup
    have hg := h.group group (List.mem_of_find?_eq_some hfind)
    exact hg.onStore rfl fun _ hk => hk.congr rfl rfl rfl

end Indexed

theorem setBeforeKeys_fold (data : D) {schema : Nat → List (Predicate D)} {groups : List (Group D)}
    (h : ∀ group ∈ groups, group.evaluate data = keyOf (schema group.id) data)
    (tracker : ChangeTracker D) (group : Nat) :
    let captured := groups.foldl
      (fun tracker group => tracker.setBeforeKeys group.id (group.evaluate data)) tracker
    captured.before = tracker.before ∧
      captured.groupKeys? group = if group ∈ groups.map Group.id then
        some { before := .ofKey (keyOf (schema group) data) } else tracker.groupKeys? group := by
  induction groups generalizing tracker with
  | nil => exact ⟨rfl, rfl⟩
  | cons first rest ih =>
    obtain ⟨hb, hk⟩ := ih (fun other ho => h other (List.mem_cons_of_mem first ho))
      (tracker.setBeforeKeys first.id (first.evaluate data))
    refine ⟨hb, hk.trans ?_⟩
    rw [ChangeTracker.setBeforeKeys, ChangeTracker.groupKeys?_setGroup,
      h first List.mem_cons_self]
    by_cases hf : group = first.id
    · simp [hf]
    · simp [hf]

theorem captured_beginUpdate {manager : Manager D} {schema : Nat → List (Predicate D)} {data : D}
    (h : ∀ group ∈ manager.groups, group.evaluate data = keyOf (schema group.id) data)
    (id : RecordId) :
    (manager.beginUpdate data id).before = some (data, id) ∧
      ∀ group ∈ manager.groups,
        (manager.beginUpdate data id).Captured group.id (keyOf (schema group.id) data) := by
  have hf := setBeforeKeys_fold data h (ChangeTracker.setBefore data id {})
  refine ⟨(hf 0).1, fun group hg => ⟨rfl, ?_⟩⟩
  have hk := (hf group.id).2
  rw [if_pos (List.mem_map_of_mem hg)] at hk
  have hkeys : (manager.beginUpdate data id).groupKeys? group.id = _ := hk
  rw [ChangeTracker.beforeKeys?, hkeys]

theorem Indexed.beginUpdate {manager : Manager D} {disk : Disk} {base : Path}
    {schema : Nat → List (Predicate D)} {index : Nat → Index}
    (h : manager.Indexed disk base schema index) (data : D) (id : RecordId) :
    (manager.beginUpdate data id).before = some (data, id) ∧
      ∀ group ∈ manager.groups,
        (manager.beginUpdate data id).Captured group.id (keyOf (schema group.id) data) :=
  captured_beginUpdate (fun group hg => (h.group group hg).evaluate data) id

/-- An update that a tracker begins and ends puts the new record in the place of the old one in the
index of every group that knew the old one. -/
theorem Indexed.change {manager : Manager D} {disk : Disk} {base : Path}
    {schema : Nat → List (Predicate D)} {index : Nat → Index}
    (h : manager.Indexed disk base schema index) (old new : D × RecordId)
    (hold : ∀ group ∈ manager.groups, ∀ chain, index group.id chain old.2 = true ↔
      chain ∈ (keyOf (schema group.id) old.1).chains)
    (hnew : new.2 ≠ old.2 → ∀ group ∈ manager.groups, ∀ chain, index group.id chain new.2 = false) :
    let tracker := (manager.beginUpdate old.1 old.2).setAfter new.1 new.2
    tracker.kind ≠ .insert ∧
      ∃ after last other, manager.update tracker disk = (.ok (), after, last, other) ∧
        manager.SameGroups after ∧ after.Indexed other base schema fun group chain id =>
          if id = new.2 then decide (chain ∈ (keyOf (schema group) new.1).chains)
          else if id = old.2 then false else index group chain id := by
  intro tracker
  obtain ⟨hbefore, hcaptured⟩ := h.beginUpdate old.1 old.2
  have hkind : tracker.kind = if new.2 = old.2 then .inPlace else .copy := by
    simp only [tracker, ChangeTracker.setAfter, hbefore]
  have hplan : ∀ group, ∃ plan, UpdatePlan.ofChange tracker.kind (keyOf (schema group) old.1)
      (keyOf (schema group) new.1) old.2 new.2 = .ok plan := by
    intro group
    rw [hkind]
    split <;> exact ⟨_, rfl⟩
  have hfirst : tracker.before = some old := hbefore
  have hlast : tracker.after = some new := rfl
  obtain ⟨plan, hp⟩ := Classical.axiomOfChoice hplan
  refine ⟨by rw [hkind]; split <;> decide, ?_⟩
  obtain ⟨after, last, other, hu, hsame, hafter⟩ := h.update hfirst hlast
    (fun group hg => ⟨(hcaptured group hg).through, (hcaptured group hg).keys⟩) hp
  refine ⟨after, last, other, hu, hsame, hafter.distinct, fun group hg => ?_⟩
  have hid : group.id ∈ manager.groups.map Group.id := hsame.ids ▸ List.mem_map_of_mem hg
  obtain ⟨known, hk, he⟩ := List.mem_map.mp hid
  have hgroup := hafter.group group hg
  have hpg := hp group.id
  rw [hkind] at hpg
  have hmark := UpdatePlan.markAll_change (CompositeKey.ordered_ofOutputs _)
    (CompositeKey.ordered_ofOutputs _) (CompositeKey.fresh_ofOutputs _)
    (by rw [← keyOf, ← keyOf, Sized.length_keyOf, Sized.length_keyOf])
    (by rw [← keyOf, Sized.length_keyOf]; exact hgroup.sized.count) hpg
    (he ▸ hold known hk) (fun hn => he ▸ hnew hn known hk)
  have hsame : IndexWrite.markAll (plan group.id).writes (index group.id) = fun chain id =>
      if id = new.2 then decide (chain ∈ (keyOf (schema group.id) new.1).chains)
      else if id = old.2 then false else index group.id chain id := by
    funext chain id
    exact hmark chain id
  exact hsame ▸ hgroup

end Manager

end PredicateIndex
