import PredicateIndex.Proofs.Chronicles

/-!
# Starting a checkpoint of all groups

A start goes from group to group and can be refused by any of them. Aborting
undoes what a start did to a group, so a refused start has changed no group; and
as a start that succeeds finds nothing captured anywhere, all that is captured
at one time has one token. Nothing else captures, apart from a checkpoint that
is started on a single group.
-/

set_option autoImplicit false

namespace PredicateIndex

namespace Store

variable {store : Store} {disk : Disk}

theorem captured_put (store : Store) (key : CompositeKey) (id : RecordId) (tombstone : Bool)
    (disk : Disk) : (store.put key id tombstone disk).2.1.captured = store.captured := by
  obtain ⟨session, returned, hrun⟩ := store.put_run key id tombstone disk
  rw [hrun]
  exact captured_upsert store.acquire.2 session key id tombstone disk

theorem captured_recover (store : Store) (index log : Option Token) (disk : Disk) :
    (store.recover index log disk).2.1.captured = store.captured := by
  rw [recover]
  split
  · rfl
  · split
    · rfl
    · split
      · rfl
      · simp only [replayFrom]
        split <;> rfl

theorem captured_of_open {dir : Path} {config : Config} {other : Disk}
    (h : open? dir config disk = (.ok store, other)) : store.captured = none := by
  rw [open?] at h
  repeat' split at h
  all_goals cases h
  rename_i hopen
  simp only [openLocked] at hopen
  repeat' split at hopen
  all_goals cases hopen
  all_goals rfl

theorem complete_cases (store : Store) (disk : Disk) :
    (store.complete disk).1 = .ok (store.captured.map CapturedCheckpoint.token) ∧
      (store.complete disk).2.1.captured = none ∨
    ∃ fault, (store.complete disk).1 = .error fault ∧
      (store.complete disk).2.1.captured = store.captured := by
  cases hc : store.captured with
  | none => exact Or.inl ⟨by rw [complete, hc]; rfl, by rw [complete, hc]; exact hc⟩
  | some captured =>
    have hflush : (if captured.log.isSome then store.flush disk else (store, disk)).1.captured =
        some captured := by
      split <;> exact hc
    simp only [complete, hc]
    split
    · exact Or.inr ⟨_, rfl, hflush⟩
    · split
      · exact Or.inr ⟨_, rfl, hflush⟩
      · exact Or.inl ⟨rfl, rfl⟩

theorem captured_step {op : Op} (ho : op.token? = none) (store : Store) (disk : Disk) :
    ∀ captured ∈ (step op (store, disk)).1.captured, captured ∈ store.captured := by
  have hd := does_step op store disk
  generalize step op (store, disk) = after at hd ⊢
  cases hd with
  | written =>
    rw [evictIfFull]
    split <;> exact fun _ h => h
  | take => cases ho
  | abort h =>
    rcases h with rfl | rfl
    · exact fun _ h => by cases h
    · exact fun _ h => h
  | complete =>
    rcases store.complete_cases disk with ⟨-, hc⟩ | ⟨fault, -, hc⟩ <;> rw [hc]
    · exact fun _ h => by cases h
    · exact fun _ h => h
  | _ => exact fun _ h => h

theorem captured_take (store : Store) (kind : CheckpointKind) (token : Token) (disk : Disk) :
    ∀ captured ∈ (step (.take kind token) (store, disk)).1.captured,
      captured ∈ store.captured ∨ captured.token = token := by
  have hd := does_step (.take kind token) store disk
  generalize step (.take kind token) (store, disk) = after at hd ⊢
  cases hd with
  | take h =>
    rcases h with rfl | ⟨-, rfl⟩
    · exact fun _ h => Or.inl h
    · rintro captured h
      cases h
      exact Or.inr rfl

theorem take_of_none (kind : CheckpointKind) (token : Token) (h : store.captured = none) :
    (∃ fault, store.take kind token = .error fault) ∨
      store.take kind token =
        .ok (true, { store with captured := some (store.capture kind token) }) := by
  rw [take, h]
  cases store.checkRecovered with
  | error fault => exact Or.inl ⟨fault, rfl⟩
  | ok => exact Or.inr rfl

theorem abort_take {kind : CheckpointKind} {token : Token} (h : store.captured = none) :
    abort { store with captured := some (store.capture kind token) } token = store := by
  have htoken : (store.capture kind token).token = token := rfl
  rw [abort]
  dsimp only
  rw [if_pos htoken, ← h]

end Store

namespace Group

variable {D : Type}

theorem captured_putAll (writes : List IndexWrite) (group : Group D) (disk : Disk) :
    (putAll writes group disk).2.1.store.captured = group.store.captured := by
  induction writes generalizing group disk with
  | nil => rfl
  | cons write rest ih =>
    have hput : (group.put write disk).2.1.store.captured = group.store.captured :=
      Store.captured_put _ _ _ _ _
    rw [putAll]
    split
    · rename_i hp
      rw [hp] at hput
      exact hput
    · rename_i hp
      rw [hp] at hput
      exact (ih _ _).trans hput

theorem captured_update (group : Group D) (tracker : ChangeTracker D) (disk : Disk) :
    (group.update tracker disk).2.1.store.captured = group.store.captured := by
  rw [update]
  split
  · rfl
  · split
    · rfl
    · rw [applyAfter]
      split
      · rfl
      · rename_i plan _
        have hput := captured_putAll plan.writes group disk
        split <;> rename_i hp <;> rw [hp] at hput <;> exact hput

theorem captured_delete (group : Group D) (tracker : ChangeTracker D) (disk : Disk) :
    (group.delete tracker disk).2.1.store.captured = group.store.captured := by
  rw [delete]
  split
  · rfl
  · split
    · rfl
    · exact Store.captured_put _ _ _ _ _
    · rfl
    · rfl

def capturing (kind : CheckpointKind) (token : Token) (group : Group D) : Group D :=
  { group with
    store := { group.store with captured := some (group.store.capture kind token) } }

end Group

namespace Manager

variable {D : Type} {manager : Manager D}

def captures (manager : Manager D) : List CapturedCheckpoint :=
  manager.groups.filterMap fun group => group.store.captured

theorem mem_captures {captured : CapturedCheckpoint} :
    captured ∈ manager.captures ↔ ∃ group ∈ manager.groups, group.store.captured = some captured :=
  List.mem_filterMap

/-- A start either captures a checkpoint of every group or changes none. -/
theorem startCheckpoint_cases (kind : CheckpointKind) (token : Token) {groups : List (Group D)}
    (h : ∀ group ∈ groups, group.store.captured = none) :
    startCheckpoint kind token groups = (.ok true, groups.map (Group.capturing kind token)) ∨
      ∃ fault, startCheckpoint kind token groups = (.error fault, groups) := by
  induction groups with
  | nil => exact Or.inl rfl
  | cons group rest ih =>
    have hnone := h group List.mem_cons_self
    rw [startCheckpoint]
    obtain ⟨fault, ht⟩ | ht := Store.take_of_none kind token hnone <;> rw [ht]
    · exact Or.inr ⟨fault, rfl⟩
    · rcases ih fun other ho => h other (List.mem_cons_of_mem group ho) with hs | ⟨fault, hs⟩
      · left
        simp only [hs]
        rfl
      · right
        refine ⟨fault, ?_⟩
        simp only [hs, Store.abort_take hnone]

theorem takeCheckpoint_cases (manager : Manager D) (kind : CheckpointKind) (clock : UInt64) :
    (∃ token, (manager.takeCheckpoint kind clock).1 = .ok (some token) ∧
      (manager.takeCheckpoint kind clock).2.groups =
        manager.groups.map (Group.capturing kind token)) ∨
    (∀ token, (manager.takeCheckpoint kind clock).1 ≠ .ok (some token)) ∧
      (manager.takeCheckpoint kind clock).2.groups = manager.groups := by
  by_cases hidle : manager.groups.any fun group => group.store.checkpointInProgress
  · have htake : manager.takeCheckpoint kind clock = (.ok none, manager) := if_pos hidle
    rw [htake]
    exact Or.inr ⟨(fun _ h => by cases h), rfl⟩
  · have hnone : ∀ group ∈ manager.groups, group.store.captured = none := by
      intro group hg
      have hprogress : group.store.checkpointInProgress = false := by
        by_contra hp
        exact hidle (List.any_eq_true.mpr ⟨group, hg, by simpa using hp⟩)
      exact Option.isNone_iff_eq_none.mp (by simpa [Store.checkpointInProgress] using hprogress)
    rw [takeCheckpoint, if_neg hidle]
    rcases startCheckpoint_cases kind (manager.nextToken clock) hnone with hs | ⟨fault, hs⟩
    · simp only [hs]
      exact Or.inl ⟨_, rfl, rfl⟩
    · simp only [hs]
      exact Or.inr ⟨(fun _ h => by cases h), trivial⟩

def Agrees (manager : Manager D) : Prop :=
  ∀ captured ∈ manager.captures, ∀ other ∈ manager.captures, captured.token = other.token

theorem Agrees.takeCheckpoint (h : manager.Agrees) (kind : CheckpointKind) (clock : UInt64) :
    (manager.takeCheckpoint kind clock).2.Agrees := by
  rcases manager.takeCheckpoint_cases kind clock with ⟨token, -, hgroups⟩ | ⟨-, hgroups⟩
  · have htoken : ∀ captured ∈ (manager.takeCheckpoint kind clock).2.captures,
        captured.token = token := by
      intro captured hc
      obtain ⟨group, hg, hcaptured⟩ := mem_captures.mp hc
      rw [hgroups] at hg
      obtain ⟨before, -, rfl⟩ := List.mem_map.mp hg
      cases hcaptured
      rfl
    exact fun captured hc other ho => (htoken captured hc).trans (htoken other ho).symm
  · rw [Agrees, captures, hgroups]
    exact h

def CapturesNothing (manager after : Manager D) : Prop :=
  ∀ captured ∈ after.captures, captured ∈ manager.captures

theorem Agrees.mono (h : manager.Agrees) {after : Manager D} (hn : manager.CapturesNothing after) :
    after.Agrees :=
  fun captured hc other ho => h captured (hn captured hc) other (hn other ho)

section

variable {σ : Type} {operation : Group D → σ → Except Fault Unit × Group D × σ}

theorem capturesNothing_onGroups
    (hop : ∀ group state, ∀ captured ∈ (operation group state).2.1.store.captured,
      captured ∈ group.store.captured) (manager : Manager D) (state : σ) :
    manager.CapturesNothing (manager.onGroups operation state).2.1 := by
  have heach : ∀ groups state, ∀ after ∈ (onEach operation groups state).2.1,
      ∀ captured ∈ after.store.captured, ∃ group ∈ groups, captured ∈ group.store.captured := by
    intro groups
    induction groups with
    | nil => exact fun _ _ h => by cases h
    | cons group rest ih =>
      intro state after ha captured hc
      have hgroup := hop group state
      rw [onEach] at ha
      rcases hfirst : operation group state with ⟨fault | _, changed, next⟩ <;>
        rw [hfirst] at ha hgroup <;> rcases List.mem_cons.mp ha with rfl | ha
      · exact ⟨group, List.mem_cons_self, hgroup captured hc⟩
      · exact ⟨after, List.mem_cons_of_mem group ha, hc⟩
      · exact ⟨group, List.mem_cons_self, hgroup captured hc⟩
      · obtain ⟨before, hb, hcaptured⟩ := ih next after ha captured hc
        exact ⟨before, List.mem_cons_of_mem group hb, hcaptured⟩
  intro captured hc
  obtain ⟨after, ha, hcaptured⟩ := mem_captures.mp hc
  exact mem_captures.mpr (heach manager.groups state after ha captured hcaptured)

end

theorem capturesNothing_insert (manager : Manager D) (data : D) (id : RecordId) (disk : Disk) :
    manager.CapturesNothing (manager.insert data id disk).2.1 :=
  capturesNothing_onGroups (fun _ _ _ h => by rwa [Group.insert, Group.captured_putAll] at h) _ _

theorem capturesNothing_update (manager : Manager D) (tracker : ChangeTracker D) (disk : Disk) :
    manager.CapturesNothing (manager.update tracker disk).2.1 :=
  capturesNothing_onGroups (fun _ _ _ h => by rwa [Group.captured_update] at h) _ _

theorem capturesNothing_delete (manager : Manager D) (tracker : ChangeTracker D) (disk : Disk) :
    manager.CapturesNothing (manager.delete tracker disk).2.1 :=
  capturesNothing_onGroups (fun _ _ _ h => by rwa [Group.captured_delete] at h) _ _

theorem capturesNothing_upsert (manager : Manager D) (data : D) (id : RecordId)
    (tracker : Option (ChangeTracker D)) (disk : Disk) :
    manager.CapturesNothing (manager.upsert data id tracker disk).2.1 := by
  rw [upsert.eq_def]
  split
  · exact capturesNothing_insert manager data id disk
  · split
    · exact capturesNothing_insert manager data id disk
    · exact capturesNothing_update manager _ disk

theorem store_completeGroup (group : Group D) (state : Option Token × Disk) :
    (completeGroup group state).2.1.store = (group.store.complete state.2).2.1 := by
  rcases hc : group.store.complete state.2 with ⟨fault | token, store, disk⟩ <;>
    simp only [completeGroup, Group.onStore, hc]

theorem capturesNothing_completeCheckpoint (manager : Manager D) (disk : Disk) :
    manager.CapturesNothing (manager.completeCheckpoint disk).2.1 := by
  rw [completeCheckpoint_eq]
  refine capturesNothing_onGroups (fun group state captured h => ?_) manager (none, disk)
  rw [store_completeGroup] at h
  have hnothing : (Store.Op.complete).token? = none := rfl
  exact Store.captured_step hnothing group.store state.2 captured h

theorem store_recoverGroup (index log : Option Token) (group : Group D)
    (state : Option Token × Disk) : (recoverGroup index log group state).2.1.store =
      (group.store.recover index log state.2).2.1 := by
  rcases hr : group.store.recover index log state.2 with ⟨fault | token, store, disk⟩ <;>
    simp only [recoverGroup, Group.onStore, hr]
  split
  · split <;> rfl
  · rfl

theorem groups_recover (manager : Manager D) (index log : Option Token) (disk : Disk) :
    (manager.recover index log disk).2.1.groups =
      (onEach (recoverGroup index log) manager.groups (none, disk)).2.1 := by
  rw [recover_eq]
  split <;> rename_i h <;> exact (congrArg (fun result => result.2.1.groups) h).symm

theorem capturesNothing_recover (manager : Manager D) (index log : Option Token) (disk : Disk) :
    manager.CapturesNothing (manager.recover index log disk).2.1 := by
  have hnothing : manager.CapturesNothing
      (manager.onGroups (recoverGroup index log) (none, disk)).2.1 := by
    refine capturesNothing_onGroups (fun group state captured h => ?_) manager (none, disk)
    rwa [store_recoverGroup, Store.captured_recover] at h
  rw [CapturesNothing, captures, groups_recover]
  exact hnothing

theorem capturesNothing_register (manager : Manager D) (type : KeyType)
    (definitions : List (String × (D → Option type.Value))) (disk : Disk) :
    manager.CapturesNothing (manager.register type definitions disk).2.1 := by
  have hr := registers manager type definitions disk
  generalize manager.register type definitions disk = registered at hr ⊢
  cases hr with
  | refused | unopened => exact fun _ h => h
  | opened hc ho =>
    intro captured hcaptured
    obtain ⟨after, ha, hcaptured⟩ := mem_captures.mp hcaptured
    rcases List.mem_append.mp ha with ha | ha
    · exact mem_captures.mpr ⟨after, ha, hcaptured⟩
    · rw [List.mem_singleton.mp ha, Store.captured_of_open ho] at hcaptured
      cases hcaptured

theorem mem_captures_setGroup {group : Group D} {captured : CapturedCheckpoint}
    (h : captured ∈ (manager.setGroup group).captures) :
    captured ∈ manager.captures ∨ captured ∈ group.store.captured := by
  obtain ⟨after, ha, hc⟩ := mem_captures.mp h
  obtain ⟨before, hb, rfl⟩ := List.mem_map.mp ha
  by_cases hid : before.id = group.id
  · rw [if_pos hid] at hc
    exact Or.inr hc
  · rw [if_neg hid] at hc
    exact Or.inl (mem_captures.mpr ⟨before, hb, hc⟩)

theorem completeGroup_ok {group : Group D} {state : Option Token × Disk}
    (h : (completeGroup group state).1 = .ok ()) :
    (completeGroup group state).2.1.store.captured = none ∧
      (completeGroup group state).2.2.1 =
        (group.store.captured.map CapturedCheckpoint.token).or state.1 := by
  rw [store_completeGroup]
  rcases group.store.complete_cases state.2 with ⟨htoken, hnone⟩ | ⟨fault, hf, -⟩
  · refine ⟨hnone, ?_⟩
    rcases hc : group.store.complete state.2 with ⟨result, store, disk⟩
    rw [hc] at htoken
    subst htoken
    simp only [completeGroup, Group.onStore, hc]
  · rcases hc : group.store.complete state.2 with ⟨result, store, disk⟩
    rw [hc] at hf
    subst hf
    simp only [completeGroup, Group.onStore, hc] at h
    cases h

theorem onEach_completeGroup_ok {groups : List (Group D)} {state : Option Token × Disk}
    (h : (onEach completeGroup groups state).1 = .ok ()) :
    (∀ group ∈ (onEach completeGroup groups state).2.1, group.store.captured = none) ∧
      ((∀ group ∈ groups, group.store.captured = none) ∧
          (onEach completeGroup groups state).2.2.1 = state.1 ∨
        ∃ group ∈ groups, ∃ captured ∈ group.store.captured,
          (onEach completeGroup groups state).2.2.1 = some captured.token) := by
  induction groups generalizing state with
  | nil => exact ⟨by simp [onEach], Or.inl ⟨by simp, rfl⟩⟩
  | cons group rest ih =>
    have hgroup := @completeGroup_ok _ group state
    rw [onEach] at h ⊢
    rcases hfirst : completeGroup group state with ⟨fault | _, changed, next⟩ <;>
      rw [hfirst] at h hgroup
    · cases h
    · obtain ⟨hnone, htoken⟩ := hgroup rfl
      obtain ⟨hrest, hlast⟩ := ih h
      refine ⟨List.forall_mem_cons.mpr ⟨hnone, hrest⟩, ?_⟩
      rcases hlast with ⟨hothers, hsame⟩ | ⟨last, hl, captured, hc, hlast⟩
      · cases hcaptured : group.store.captured with
        | none =>
          rw [hcaptured] at htoken
          exact Or.inl ⟨List.forall_mem_cons.mpr ⟨hcaptured, hothers⟩, hsame.trans htoken⟩
        | some captured =>
          rw [hcaptured] at htoken
          exact Or.inr ⟨group, List.mem_cons_self, captured, hcaptured, hsame.trans htoken⟩
      · exact Or.inr ⟨last, List.mem_cons_of_mem group hl, captured, hc, hlast⟩

theorem completeCheckpoint_ok {disk : Disk} {token : Option Token}
    (h : (manager.completeCheckpoint disk).1 = .ok token) :
    (manager.completeCheckpoint disk).2.1.captures = [] ∧
      (manager.captures = [] ∧ token = none ∨
        ∃ captured ∈ manager.captures, token = some captured.token) := by
  have hcaptures : ∀ {groups : List (Group D)}, (∀ group ∈ groups, group.store.captured = none) →
      groups.filterMap (fun group => group.store.captured) = [] :=
    fun hnone => List.filterMap_eq_nil_iff.mpr hnone
  rw [completeCheckpoint_eq, onGroups] at h ⊢
  rcases hall : onEach completeGroup manager.groups (none, disk) with
    ⟨fault | _, groups, last, other⟩
  · rw [hall] at h
    cases h
  · obtain ⟨hnone, htoken⟩ := onEach_completeGroup_ok (congrArg Prod.fst hall)
    rw [hall] at h hnone htoken
    cases h
    refine ⟨hcaptures hnone, ?_⟩
    rcases htoken with ⟨hidle, hl⟩ | ⟨group, hg, captured, hc, hl⟩
    · exact Or.inl ⟨hcaptures hidle, hl⟩
    · exact Or.inr ⟨captured, mem_captures.mpr ⟨group, hg, hc⟩, hl⟩

inductive Act (D : Type) where
  | register (type : KeyType) (definitions : List (String × (D → Option type.Value))) (disk : Disk)
  | upsert (data : D) (id : RecordId) (tracker : Option (ChangeTracker D)) (disk : Disk)
  | update (tracker : ChangeTracker D) (disk : Disk)
  | delete (tracker : ChangeTracker D) (disk : Disk)
  | flush (disk : Disk)
  | evict (disk : Disk)
  | readChain (source : ChainSource) (key : Bytes) (cancelled : Bool) (disk : Disk)
  | take (kind : CheckpointKind) (clock : UInt64)
  | complete (disk : Disk)
  | recover (index log : Option Token) (disk : Disk)
  | write (group : Nat) (write : IndexWrite) (disk : Disk)
  | onStore (group : Nat) (op : Store.Op) (disk : Disk)
  | recoverStore (group : Nat) (index log : Option Token) (disk : Disk)

def onStoreOf (id : Nat) (operation : Store → Store) (manager : Manager D) : Manager D :=
  match manager.groups.find? fun group => group.id = id with
  | some group => manager.setGroup { group with store := operation group.store }
  | none => manager

def act : Act D → Manager D → Manager D
  | .register type definitions disk, manager => (manager.register type definitions disk).2.1
  | .upsert data id tracker disk, manager => (manager.upsert data id tracker disk).2.1
  | .update tracker disk, manager => (manager.update tracker disk).2.1
  | .delete tracker disk, manager => (manager.delete tracker disk).2.1
  | .flush disk, manager => (manager.flush disk).2.1
  | .evict disk, manager => (manager.evict disk).2.1
  | .readChain source key cancelled disk, manager => (manager.readChain source key cancelled disk).2
  | .take kind clock, manager => (manager.takeCheckpoint kind clock).2
  | .complete disk, manager => (manager.completeCheckpoint disk).2.1
  | .recover index log disk, manager => (manager.recover index log disk).2.1
  | .write group write disk, manager =>
    manager.onStoreOf group fun store => (store.put write.key write.id write.tombstone disk).2.1
  | .onStore group op disk, manager =>
    manager.onStoreOf group fun store => (Store.step op (store, disk)).1
  | .recoverStore group index log disk, manager =>
    manager.onStoreOf group fun store => (store.recover index log disk).2.1

def actAll (acts : List (Act D)) (manager : Manager D) : Manager D :=
  acts.foldl (fun manager action => act action manager) manager

def Act.token? : Act D → Option Token
  | .onStore _ op _ => op.token?
  | _ => none

/-- A checkpoint that is started on a single group has the token of those that are captured. -/
def Coordinated : List (Act D) → Manager D → Prop
  | [], _ => True
  | action :: acts, manager =>
    (∀ token ∈ action.token?, ∀ captured ∈ manager.captures, captured.token = token) ∧
      Coordinated acts (act action manager)

instance decidableCoordinated : (acts : List (Act D)) → (manager : Manager D) →
    Decidable (Coordinated acts manager)
  | [], _ => isTrue trivial
  | action :: acts, manager =>
    have := decidableCoordinated acts (act action manager)
    inferInstanceAs (Decidable
      ((∀ token ∈ action.token?, ∀ captured ∈ manager.captures, captured.token = token) ∧
        Coordinated acts (act action manager)))

theorem capturesNothing_onStoreOf {operation : Store → Store}
    (h : ∀ store, ∀ captured ∈ (operation store).captured, captured ∈ store.captured) (id : Nat)
    (manager : Manager D) : manager.CapturesNothing (manager.onStoreOf id operation) := by
  intro captured hc
  rw [onStoreOf] at hc
  split at hc
  · rename_i group hf
    rcases mem_captures_setGroup hc with hc | hc
    · exact hc
    · exact mem_captures.mpr ⟨group, List.mem_of_find?_eq_some hf, h group.store captured hc⟩
  · exact hc

theorem Agrees.act (h : manager.Agrees) {action : Act D}
    (hc : ∀ token ∈ action.token?, ∀ captured ∈ manager.captures, captured.token = token) :
    (Manager.act action manager).Agrees := by
  cases action with
  | register type definitions disk => exact h.mono (capturesNothing_register _ _ _ _)
  | upsert data id tracker disk => exact h.mono (capturesNothing_upsert _ _ _ _ _)
  | update tracker disk => exact h.mono (capturesNothing_update _ _ _)
  | delete tracker disk => exact h.mono (capturesNothing_delete _ _ _)
  | flush disk => exact h.mono (capturesNothing_onGroups (fun _ _ _ hc => hc) _ _)
  | evict disk => exact h.mono (capturesNothing_onGroups (fun _ _ _ hc => hc) _ _)
  | readChain source key cancelled disk =>
    refine h.mono fun captured hr => ?_
    rw [Manager.act, Manager.readChain] at hr
    split at hr
    · exact hr
    · rename_i group hf
      rcases mem_captures_setGroup hr with hr | hr
      · exact hr
      · exact mem_captures.mpr ⟨group, List.mem_of_find?_eq_some hf, hr⟩
  | take kind clock => exact h.takeCheckpoint kind clock
  | complete disk => exact h.mono (capturesNothing_completeCheckpoint _ _)
  | recover index log disk => exact h.mono (capturesNothing_recover _ _ _ _)
  | write group write disk =>
    refine h.mono (capturesNothing_onStoreOf (fun store captured hp => ?_) _ _)
    rwa [Store.captured_put] at hp
  | onStore group op disk =>
    cases ho : op.token? with
    | none =>
      exact h.mono (capturesNothing_onStoreOf (fun store => Store.captured_step ho store disk) _ _)
    | some token =>
      cases op <;> cases ho
      rename_i kind
      -- what was captured before has the token of the start, and what it captures has it too
      have htoken : ∀ captured ∈ (manager.act (.onStore group (.take kind token) disk)).captures,
          captured.token = token := by
        intro captured hm
        rw [Manager.act, onStoreOf] at hm
        split at hm
        · rename_i found hf
          rcases mem_captures_setGroup hm with hm | hm
          · exact hc token rfl captured hm
          · rcases Store.captured_take found.store kind token disk captured hm with hm | hm
            · exact hc token rfl captured
                (mem_captures.mpr ⟨found, List.mem_of_find?_eq_some hf, hm⟩)
            · exact hm
        · exact hc token rfl captured hm
      exact fun captured hc other ho => (htoken captured hc).trans (htoken other ho).symm
  | recoverStore group index log disk =>
    refine h.mono (capturesNothing_onStoreOf (fun store captured hr => ?_) _ _)
    rwa [Store.captured_recover] at hr

theorem Agrees.actAll {acts : List (Act D)} (h : manager.Agrees) (hc : Coordinated acts manager) :
    (actAll acts manager).Agrees := by
  induction acts generalizing manager with
  | nil => exact h
  | cons action acts ih => exact ih (h.act hc.1) hc.2

/-- Whatever is done to a manager and its groups, all checkpoints that are captured have one token,
as long as those started on single groups have it too. Starting a checkpoint of all groups captures
one of every group, or else changes no group; completing it forgets them all and gives the token. -/
theorem checkpoints_of_run {config : Config} {identity : Nat} {disk other : Disk}
    {manager : Manager D} (hopen : Manager.open? config identity disk = (.ok manager, other))
    {acts : List (Act D)} (hc : Coordinated acts manager) :
    let reached := actAll acts manager
    (∀ captured ∈ reached.captures, ∀ other ∈ reached.captures, captured.token = other.token) ∧
    (∀ kind clock,
      (∀ token, (reached.takeCheckpoint kind clock).1 = .ok (some token) →
        (reached.takeCheckpoint kind clock).2.groups =
            reached.groups.map (Group.capturing kind token) ∧
          ∀ group ∈ (reached.takeCheckpoint kind clock).2.groups,
            ∃ captured ∈ group.store.captured, captured.token = token) ∧
      ((∀ token, (reached.takeCheckpoint kind clock).1 ≠ .ok (some token)) →
        (reached.takeCheckpoint kind clock).2.groups = reached.groups)) ∧
    ∀ disk token, (reached.completeCheckpoint disk).1 = .ok token →
      (reached.completeCheckpoint disk).2.1.captures = [] ∧
        (reached.captures = [] → token = none) ∧
        ∀ captured ∈ reached.captures, token = some captured.token := by
  intro reached
  have hstart : manager.captures = [] := by
    rw [Manager.open?] at hopen
    split at hopen <;> cases hopen
    rfl
  have hnone : manager.Agrees := by
    intro captured hm
    rw [hstart] at hm
    cases hm
  have hagrees : reached.Agrees := hnone.actAll hc
  refine ⟨hagrees, fun kind clock => ⟨fun token ht => ?_, fun hno => ?_⟩,
    fun disk token hcomplete => ?_⟩
  · rcases reached.takeCheckpoint_cases kind clock with ⟨issued, hissued, hgroups⟩ | ⟨hno, -⟩
    · obtain rfl := Option.some.inj (Except.ok.inj (hissued.symm.trans ht))
      refine ⟨hgroups, fun group hg => ?_⟩
      rw [hgroups] at hg
      obtain ⟨before, -, rfl⟩ := List.mem_map.mp hg
      exact ⟨_, rfl, rfl⟩
    · exact (hno token ht).elim
  · rcases reached.takeCheckpoint_cases kind clock with ⟨issued, hissued, -⟩ | ⟨-, hgroups⟩
    · exact (hno issued hissued).elim
    · exact hgroups
  · obtain ⟨hempty, htoken⟩ := completeCheckpoint_ok hcomplete
    refine ⟨hempty, fun hidle => ?_, fun captured hm => ?_⟩
    · rcases htoken with ⟨-, hnothing⟩ | ⟨captured, hm, -⟩
      · exact hnothing
      · rw [hidle] at hm
        cases hm
    · rcases htoken with ⟨hidle, -⟩ | ⟨last, hl, hlast⟩
      · rw [hidle] at hm
        cases hm
      · rw [hlast, hagrees last hl captured hm]

def twoGroups (between : List (Act Nat)) (disk : Disk) : List (Act Nat) :=
  .register .bool [("even", fun n => some (n % 2 == 0))] disk :: between ++
    [.register .bool [("large", fun n => if 3 < n then some true else none)] disk]

def joining (disk : Disk) : List (Act Nat) :=
  twoGroups [.take .full 5] disk ++ [.onStore 1 (.take .log ⟨5⟩) disk]

def joiningCaptures : Bool :=
  match Manager.open? (D := Nat) { dir := ["db"] } 0 {} with
  | (.ok manager, disk) =>
    decide (Coordinated (joining disk) manager ∧
      (actAll (joining disk) manager).captures.length = 2)
  | (.error _, _) => false

theorem checkpoints_of_joining : ∃ (manager : Manager Nat) (disk : Disk),
    Manager.open? { dir := ["db"] } 0 {} = (.ok manager, disk) ∧
      Coordinated (joining disk) manager ∧
      (actAll (joining disk) manager).captures.length = 2 ∧
      ∀ captured ∈ (actAll (joining disk) manager).captures,
        ∀ other ∈ (actAll (joining disk) manager).captures, captured.token = other.token := by
  have hfacts : joiningCaptures = true := by decide +kernel
  unfold joiningCaptures at hfacts
  split at hfacts
  · rename_i manager disk hopen
    obtain ⟨hc, hlength⟩ := of_decide_eq_true hfacts
    obtain ⟨htokens, -, -⟩ := checkpoints_of_run hopen hc
    exact ⟨manager, disk, hopen, hc, hlength, htokens⟩
  · cases hfacts

def startedApart (disk : Disk) : List (Act Nat) :=
  twoGroups [] disk ++ [.onStore 0 (.take .full ⟨1⟩) disk, .onStore 1 (.take .full ⟨2⟩) disk]

def startedApartTokens : Bool :=
  match Manager.open? (D := Nat) { dir := ["db"] } 0 {} with
  | (.ok manager, disk) =>
    decide ((actAll (startedApart disk) manager).captures.map CapturedCheckpoint.token = [⟨1⟩, ⟨2⟩])
  | (.error _, _) => false

/-- Groups take checkpoints on their own too, and then they need not have the same token. -/
theorem checkpoints_startedApart : ¬ ∀ (config : Config) (identity : Nat) (disk other : Disk)
    (manager : Manager Nat) (acts : List (Act Nat)),
    Manager.open? config identity disk = (.ok manager, other) →
    ∀ captured ∈ (actAll acts manager).captures, ∀ other ∈ (actAll acts manager).captures,
      captured.token = other.token := by
  have hfacts : startedApartTokens = true := by decide +kernel
  unfold startedApartTokens at hfacts
  intro h
  split at hfacts
  · rename_i manager disk hopen
    have htokens := of_decide_eq_true hfacts
    have hmem : ∀ token : Token, token ∈ ([⟨1⟩, ⟨2⟩] : List Token) →
        ∃ captured ∈ (actAll (startedApart disk) manager).captures, captured.token = token := by
      intro token ht
      rw [← htokens] at ht
      exact List.mem_map.mp ht
    obtain ⟨first, hfirst, hone⟩ := hmem ⟨1⟩ (by simp)
    obtain ⟨second, hsecond, htwo⟩ := hmem ⟨2⟩ (by simp)
    have hsame := h _ _ _ _ _ _ hopen first hfirst second hsecond
    rw [hone, htwo] at hsame
    exact absurd hsame (by decide)
  · cases hfacts

end Manager

end PredicateIndex
