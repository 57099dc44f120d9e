import PredicateIndex.Proofs.GroupRecovery
import PredicateIndex.Proofs.TokenOrder

/-!
# A manager at work

A chronicle is a manager with its disk and the trackers that updates are made
with, and with notes: the snapshots that were taken and completed, and what
happened to tokens. Mutations change the stores of the groups, checkpoints are
taken and completed at any time between them, and the notes stay right.
-/

set_option autoImplicit false

namespace PredicateIndex

variable {D : Type}

/-- What is asked of a manager. Trackers are named; a new one is had under any name. -/
inductive Manager.Op (D : Type) where
  | upsert (data : D) (id : RecordId) (tracker : Option Nat)
  | newTracker (tracker : Nat)
  | setBefore (tracker : Nat) (data : D) (id : RecordId)
  | setAfter (tracker : Nat) (data : D) (id : RecordId)
  | update (tracker : Nat)
  | delete (tracker : Nat)
  | flush
  | evict
  | readChain (source : ChainSource) (key : Bytes) (cancelled : Bool)
  /-- Takes a full checkpoint at a reading of the clock. -/
  | take (clock : UInt64)
  | complete

/-- A manager in the middle of its life. Events are listed newest first. -/
structure Chronicle (D : Type) where
  manager : Manager D
  disk : Disk
  trackers : Nat → ChangeTracker D := fun _ => {}
  notes : Notes D := {}
  events : List Event := []

namespace Chronicle

def setTracker (name : Nat) (tracker : ChangeTracker D) (chronicle : Chronicle D) : Chronicle D :=
  { chronicle with
    trackers := fun other => if other = name then tracker else chronicle.trackers other }

def step (op : Manager.Op D) (chronicle : Chronicle D) : Chronicle D :=
  match op with
  | .upsert data id none =>
    let (_, manager, _, disk) := chronicle.manager.upsert data id none chronicle.disk
    { chronicle with manager, disk }
  | .upsert data id (some name) =>
    match chronicle.manager.upsert data id (some (chronicle.trackers name)) chronicle.disk with
    | (_, manager, some tracker, disk) => setTracker name tracker { chronicle with manager, disk }
    | (_, manager, none, disk) => { chronicle with manager, disk }
  | .newTracker name => chronicle.setTracker name {}
  | .setBefore name data id =>
    chronicle.setTracker name (chronicle.manager.setBefore data id (chronicle.trackers name))
  | .setAfter name data id =>
    chronicle.setTracker name ((chronicle.trackers name).setAfter data id)
  | .update name =>
    let (_, manager, tracker, disk) :=
      chronicle.manager.update (chronicle.trackers name) chronicle.disk
    setTracker name tracker { chronicle with manager, disk }
  | .delete name =>
    let (_, manager, tracker, disk) :=
      chronicle.manager.delete (chronicle.trackers name) chronicle.disk
    setTracker name tracker { chronicle with manager, disk }
  | .flush =>
    let (_, manager, disk) := chronicle.manager.flush chronicle.disk
    { chronicle with manager, disk }
  | .evict =>
    let (_, manager, disk) := chronicle.manager.evict chronicle.disk
    { chronicle with manager, disk }
  | .readChain source key cancelled =>
    { chronicle with
      manager := (chronicle.manager.readChain source key cancelled chronicle.disk).2 }
  | .take clock =>
    match chronicle.manager.takeCheckpoint .full clock with
    | (.ok (some token), manager) =>
      { chronicle with
        manager
        notes := { chronicle.notes with taken := some ⟨token, chronicle.manager, chronicle.disk⟩ }
        events := .issued token :: chronicle.events }
    | (_, manager) => { chronicle with manager }
  | .complete =>
    match chronicle.manager.completeCheckpoint chronicle.disk with
    | (.ok _, manager, disk) =>
      { chronicle with
        manager, disk
        notes := chronicle.notes.complete
        events := chronicle.notes.taken.toList.map (fun snapshot => .completed snapshot.token) ++
          chronicle.events }
    | (.error _, manager, disk) => { chronicle with manager, disk }

def run : List (Manager.Op D) → Chronicle D → Chronicle D
  | [], chronicle => chronicle
  | op :: ops, chronicle => run ops (chronicle.step op)

structure Sound (chronicle : Chronicle D) (plan : Plan D) : Prop where
  follows : chronicle.manager.Follows plan
  noted : ∀ group ∈ chronicle.manager.groups, group.Noted plan chronicle.notes chronicle.disk
  snapshots : ∀ snapshot ∈ chronicle.notes.snapshots, snapshot.manager.Follows plan
  trackers : ∀ name, (chronicle.trackers name).Fits
  dated : Dated chronicle.events chronicle.notes chronicle.manager.lastToken

end Chronicle

namespace Manager

variable {plan : Plan D} {notes : Notes D} {manager : Manager D}

theorem startCheckpoint_ok (kind : CheckpointKind) (token : Token) (after : Group D → Prop)
    {groups : List (Group D)}
    (h : ∀ group ∈ groups, ∃ store, group.store.take kind token = .ok (true, store) ∧
      after { group with store }) :
    ∃ changed, startCheckpoint kind token groups = (.ok true, changed) ∧
      changed.map Group.id = groups.map Group.id ∧ ∀ group ∈ changed, after group := by
  induction groups with
  | nil => exact ⟨[], rfl, rfl, by simp⟩
  | cons group rest ih =>
    obtain ⟨store, htake, hafter⟩ := h group List.mem_cons_self
    obtain ⟨others, hothers, hids, hrest⟩ :=
      ih fun other ho => h other (List.mem_cons_of_mem group ho)
    refine ⟨{ group with store } :: others, ?_, by simp [hids], fun other ho => ?_⟩
    · rw [startCheckpoint, htake]
      simp only [hothers]
    · rcases List.mem_cons.mp ho with rfl | ho
      · exact hafter
      · exact hrest other ho

def completeGroup (group : Group D) (state : Option Token × Disk) :
    Except Fault Unit × Group D × Option Token × Disk :=
  match group.onStore Store.complete state.2 with
  | (.error fault, group, disk) => (.error fault, group, state.1, disk)
  | (.ok token, group, disk) => (.ok (), group, token.or state.1, disk)

theorem completeCheckpoint_eq (manager : Manager D) (disk : Disk) :
    manager.completeCheckpoint disk =
      match manager.onGroups completeGroup (none, disk) with
      | (result, manager, token, disk) => (result.map fun _ => token, manager, disk) := rfl

theorem fits_setBefore (h : ∀ group ∈ manager.groups, Sized group.predicates) (data : D)
    (id : RecordId) (tracker : ChangeTracker D) : (manager.setBefore data id tracker).Fits := by
  have hfold : ∀ (groups : List (Group D)) (tracker : ChangeTracker D),
      (∀ group ∈ groups, Sized group.predicates) → tracker.Fits →
        (groups.foldl (fun tracker group => tracker.setBeforeKeys group.id (group.evaluate data))
          tracker).Fits := by
    intro groups
    induction groups with
    | nil => exact fun _ _ ht => ht
    | cons group rest ih =>
      intro tracker hs ht
      exact ih _ (fun other ho => hs other (List.mem_cons_of_mem group ho))
        (ht.setBeforeKeys ((hs group List.mem_cons_self).write data id false) group.id)
  have hstart : (tracker.setBefore data id).Fits := ChangeTracker.fits_of_groups rfl
  exact (hfold manager.groups _ h hstart).congr rfl

theorem Follows.ofNoted {after : Manager D} {disk : Disk} (h : manager.Follows plan)
    (hc : after.config = manager.config)
    (hids : after.groups.map Group.id = manager.groups.map Group.id)
    (hn : ∀ group ∈ after.groups, group.Noted plan notes disk) : after.Follows plan :=
  ⟨by rw [hc, h.dir], hids.trans h.ids, fun group hg => (hn group hg).mem⟩

end Manager

namespace Chronicle

variable {chronicle : Chronicle D} {plan : Plan D}

theorem Sound.sized (h : chronicle.Sound plan) {group : Group D}
    (hg : group ∈ chronicle.manager.groups) : Sized group.predicates :=
  plan.sized _ (h.follows.planned group hg)

/-- Going through the groups with something that their stores are asked for. -/
theorem Sound.fanOut {σ : Type} (h : chronicle.Sound plan)
    (operation : Group D → σ → Except Fault Unit × Group D × σ) (view : σ → Disk) (good : σ → Prop)
    (hop : ∀ (group : Group D) state, Sized group.predicates → good state →
      group.Runs (view state) (operation group state).2.1 (view (operation group state).2.2) ∧
        good (operation group state).2.2)
    (state : σ) (hv : view state = chronicle.disk) (hgood : good state) :
    Sound { chronicle with
        manager := (chronicle.manager.onGroups operation state).2.1
        disk := view (chronicle.manager.onGroups operation state).2.2 } plan ∧
      good (chronicle.manager.onGroups operation state).2.2 := by
  obtain ⟨hids, hall, -⟩ := Manager.onEach_keeps operation
    (fun group state => group.Noted plan chronicle.notes (view state) ∧ good state)
    (fun group state hg => by
      obtain ⟨hnoted, hstate⟩ := hg
      obtain ⟨hruns, hafter⟩ := hop group state (plan.sized _ hnoted.mem) hstate
      obtain ⟨hkept, hworks⟩ := hnoted.runs hruns
      exact ⟨hruns.id, ⟨hkept, hafter⟩, fun other hne ho => ⟨ho.1.frame hworks hne, hafter⟩⟩)
    state h.follows.distinct fun group hg => ⟨hv ▸ h.noted group hg, hgood⟩
  have hfollows : (chronicle.manager.onGroups operation state).2.1.Follows plan :=
    h.follows.ofNoted rfl hids fun group hg => (hall group hg).1
  obtain ⟨group, hg⟩ := hfollows.exists_group
  exact ⟨⟨hfollows, fun group hg => (hall group hg).1, h.snapshots, h.trackers, h.dated⟩,
    (hall group hg).2⟩

theorem Sound.setTracker (h : chronicle.Sound plan) {tracker : ChangeTracker D}
    (ht : tracker.Fits) (name : Nat) : (chronicle.setTracker name tracker).Sound plan := by
  refine ⟨h.follows, h.noted, h.snapshots, fun other => ?_, h.dated⟩
  rw [Chronicle.setTracker]
  dsimp only
  split
  · exact ht
  · exact h.trackers other

theorem Sound.insert (h : chronicle.Sound plan) (data : D) (id : RecordId) :
    Sound { chronicle with
        manager := (chronicle.manager.insert data id chronicle.disk).2.1
        disk := (chronicle.manager.insert data id chronicle.disk).2.2 } plan :=
  (h.fanOut (fun group disk => group.insert data id disk) (fun disk => disk) (fun _ => True)
    (fun group disk hs _ => ⟨.insert group hs data id disk, trivial⟩) chronicle.disk rfl trivial).1

theorem Sound.update (h : chronicle.Sound plan) (name : Nat) :
    (Chronicle.setTracker name
      (chronicle.manager.update (chronicle.trackers name) chronicle.disk).2.2.1
      { chronicle with
        manager := (chronicle.manager.update (chronicle.trackers name) chronicle.disk).2.1
        disk := (chronicle.manager.update (chronicle.trackers name) chronicle.disk).2.2.2 }).Sound
      plan := by
  obtain ⟨hsound, hfits⟩ := h.fanOut
    (fun group (state : ChangeTracker D × Disk) => group.update state.1 state.2)
    (fun state => state.2) (fun state => state.1.Fits)
    (fun group state hs ht => Group.Runs.update group hs ht state.2)
    (chronicle.trackers name, chronicle.disk) rfl (h.trackers name)
  exact hsound.setTracker hfits name

theorem Sound.delete (h : chronicle.Sound plan) (name : Nat) :
    (Chronicle.setTracker name
      (chronicle.manager.delete (chronicle.trackers name) chronicle.disk).2.2.1
      { chronicle with
        manager := (chronicle.manager.delete (chronicle.trackers name) chronicle.disk).2.1
        disk := (chronicle.manager.delete (chronicle.trackers name) chronicle.disk).2.2.2 }).Sound
      plan := by
  obtain ⟨hsound, hfits⟩ := h.fanOut
    (fun group (state : ChangeTracker D × Disk) => group.delete state.1 state.2)
    (fun state => state.2) (fun state => state.1.Fits)
    (fun group state hs ht => Group.Runs.delete group hs ht state.2)
    ((chronicle.trackers name).setKind .delete, chronicle.disk) rfl
    ((h.trackers name).congr rfl)
  exact hsound.setTracker hfits name

theorem Sound.readChain (h : chronicle.Sound plan) (source : ChainSource) (key : Bytes)
    (cancelled : Bool) : Sound { chronicle with
      manager := (chronicle.manager.readChain source key cancelled chronicle.disk).2 } plan := by
  rw [Manager.readChain]
  cases hfind : chronicle.manager.groups.find? fun group => group.id = source.group with
  | none => exact h
  | some group =>
    have hg := List.mem_of_find?_eq_some hfind
    have hread := Group.Runs.readChain group source.ordinal key cancelled chronicle.disk []
    have hnoted := ((h.noted group hg).runs hread).1
    have hsame := Manager.SameGroups.setGroup chronicle.manager
      (group.readChain source.ordinal key cancelled chronicle.disk []).2.1
    have hall : ∀ other ∈ (chronicle.manager.setGroup
        (group.readChain source.ordinal key cancelled chronicle.disk []).2.1).groups,
        other.Noted plan chronicle.notes chronicle.disk := by
      intro other ho
      obtain ⟨old, hold, rfl⟩ := List.mem_map.mp ho
      split
      · exact hnoted
      · exact h.noted old hold
    exact ⟨h.follows.ofNoted hsame.config hsame.ids hall, hall, h.snapshots, h.trackers, h.dated⟩

theorem Sound.checkpointInProgress (h : chronicle.Sound plan) {group : Group D}
    (hg : group ∈ chronicle.manager.groups) :
    group.store.checkpointInProgress = chronicle.notes.taken.isSome := by
  rw [Store.checkpointInProgress, (h.noted group hg).captured]
  cases ht : chronicle.notes.taken with
  | none => rfl
  | some snapshot =>
    have hfollows := h.snapshots snapshot (List.mem_append_left _ (Option.mem_toList.mpr ht))
    obtain ⟨old, ho, -, hid, -⟩ := hfollows.find? (h.follows.planned group hg)
    have hmoment := Snapshot.moment?_eq hfollows ho
    rw [hid] at hmoment
    rw [Option.bind_some, hmoment]
    rfl

theorem Sound.any_inProgress (h : chronicle.Sound plan) :
    (chronicle.manager.groups.any fun group => group.store.checkpointInProgress) =
      chronicle.notes.taken.isSome := by
  obtain ⟨group, hg⟩ := h.follows.exists_group
  rw [Bool.eq_iff_iff, List.any_eq_true]
  constructor
  · rintro ⟨other, ho, hin⟩
    exact h.checkpointInProgress ho ▸ hin
  · exact fun hin => ⟨group, hg, (h.checkpointInProgress hg).trans hin⟩

theorem Sound.take (h : chronicle.Sound plan) (hb : Event.Bounded chronicle.events)
    (clock : UInt64) : (chronicle.step (.take clock)).Sound plan := by
  rw [Chronicle.step, Manager.takeCheckpoint, h.any_inProgress]
  cases ht : chronicle.notes.taken with
  | some snapshot => exact h
  | none =>
    have hlt := chronicle.manager.lt_nextToken clock (h.dated.bounded hb)
    -- the snapshot is named first, as what is noted of each group speaks of it
    obtain ⟨snapshot, hsnapshot⟩ : ∃ snapshot : Snapshot D, snapshot =
      ⟨chronicle.manager.nextToken clock, chronicle.manager, chronicle.disk⟩ := ⟨_, rfl⟩
    have htoken : snapshot.token = chronicle.manager.nextToken clock := by rw [hsnapshot]
    have hfollows : snapshot.manager.Follows plan := by
      rw [hsnapshot]
      exact h.follows
    have htake : ∀ group ∈ chronicle.manager.groups, ∃ store,
        group.store.take .full snapshot.token = .ok (true, store) ∧
          { group with store }.Noted plan { chronicle.notes with taken := some snapshot }
            chronicle.disk := by
      intro group hg
      refine (h.noted group hg).take ht ?_ fun earlier he => ?_
      · subst hsnapshot
        exact Snapshot.moment?_eq hfollows hg
      · rw [htoken]
        exact UInt64.lt_of_le_of_lt (h.dated.latest earlier (List.mem_append_right _ he)) hlt
    obtain ⟨groups, hstart, hids, hall⟩ := Manager.startCheckpoint_ok .full snapshot.token
      (fun group => group.Noted plan { chronicle.notes with taken := some snapshot }
        chronicle.disk) htake
    rw [htoken] at hstart
    simp only [Option.isSome_none, Bool.false_eq_true, if_false, hstart, Except.map, if_true]
    rw [← hsnapshot, ← htoken]
    refine ⟨?_, hall, fun other ho => ?_, h.trackers, h.dated.take ht (htoken ▸ hlt)⟩
    · exact h.follows.ofNoted rfl hids hall
    · rcases List.mem_cons.mp ho with rfl | ho
      · exact hfollows
      · exact h.snapshots other (List.mem_append_right _ ho)

theorem Sound.complete (h : chronicle.Sound plan) : (chronicle.step .complete).Sound plan := by
  obtain ⟨groups, next, hall, hids, hnoted, -⟩ := Manager.onEach_ok Manager.completeGroup
    (fun group (state : Option Token × Disk) => group.Noted plan chronicle.notes state.2)
    (fun group (state : Option Token × Disk) => group.Noted plan chronicle.notes.complete state.2)
    (fun group state hg => by
      obtain ⟨token, store, other, hcomplete, hafter, hworks⟩ := hg.complete
      refine ⟨{ group with store }, (token.or state.1, other), ?_, rfl, hafter, fun another hne =>
        ⟨fun hbefore => hbefore.frame hworks hne, fun hdone => hdone.frame hworks hne⟩⟩
      simp only [Manager.completeGroup, Group.onStore, hcomplete])
    (none, chronicle.disk) h.follows.distinct h.noted
  rw [Chronicle.step, Manager.completeCheckpoint_eq, Manager.onGroups, hall]
  exact ⟨h.follows.ofNoted rfl hids hnoted, hnoted, h.snapshots, h.trackers, h.dated.complete⟩

/-- Whatever is asked of the manager keeps the notes right. -/
theorem Sound.step (h : chronicle.Sound plan) (hb : Event.Bounded chronicle.events)
    (op : Manager.Op D) : (chronicle.step op).Sound plan := by
  cases op with
  | upsert data id name =>
    cases name with
    | none => exact h.insert data id
    | some name =>
      rw [Chronicle.step, Manager.upsert.eq_def]
      dsimp only
      by_cases hk : (chronicle.trackers name).kind = .insert
      · rw [if_pos hk]
        exact (h.insert data id).setTracker (h.trackers name) name
      · rw [if_neg hk]
        exact h.update name
  | newTracker name => exact h.setTracker (ChangeTracker.fits_of_groups rfl) name
  | setBefore name data id =>
    exact h.setTracker (Manager.fits_setBefore (fun _ hg => h.sized hg) data id _) name
  | setAfter name data id =>
    have hfits : ((chronicle.trackers name).setAfter data id).Fits := (h.trackers name).congr rfl
    exact h.setTracker hfits name
  | update name => exact h.update name
  | delete name => exact h.delete name
  | flush =>
    exact (h.fanOut _ (fun disk => disk) (fun _ => True)
      (fun group disk _ _ => ⟨.step group disk .flush trivial trivial trivial, trivial⟩)
      chronicle.disk rfl trivial).1
  | evict =>
    exact (h.fanOut _ (fun disk => disk) (fun _ => True)
      (fun group disk _ _ => ⟨.step group disk .evict trivial trivial trivial, trivial⟩)
      chronicle.disk rfl trivial).1
  | readChain source key cancelled => exact h.readChain source key cancelled
  | take clock => exact h.take hb clock
  | complete => exact h.complete

theorem grows_step (op : Manager.Op D) (chronicle : Chronicle D) :
    chronicle.events <:+ (chronicle.step op).events ∧
      chronicle.notes.completed <:+ (chronicle.step op).notes.completed := by
  cases op with
  | upsert data id name =>
    cases name with
    | none => exact ⟨List.suffix_refl _, List.suffix_refl _⟩
    | some name =>
      rw [step]
      split <;> exact ⟨List.suffix_refl _, List.suffix_refl _⟩
  | take clock =>
    rw [step]
    split
    · exact ⟨List.suffix_cons _ _, List.suffix_refl _⟩
    · exact ⟨List.suffix_refl _, List.suffix_refl _⟩
  | complete =>
    rw [step]
    split
    · exact ⟨List.suffix_append _ _, List.suffix_append _ _⟩
    · exact ⟨List.suffix_refl _, List.suffix_refl _⟩
  | _ => exact ⟨List.suffix_refl _, List.suffix_refl _⟩

theorem grows_run (ops : List (Manager.Op D)) (chronicle : Chronicle D) :
    chronicle.events <:+ (chronicle.run ops).events ∧
      chronicle.notes.completed <:+ (chronicle.run ops).notes.completed := by
  induction ops generalizing chronicle with
  | nil => exact ⟨List.suffix_refl _, List.suffix_refl _⟩
  | cons op ops ih =>
    obtain ⟨hevents, hcompleted⟩ := grows_step op chronicle
    obtain ⟨hlater, hmore⟩ := ih (chronicle.step op)
    exact ⟨hevents.trans hlater, hcompleted.trans hmore⟩

theorem Sound.run (h : chronicle.Sound plan) {ops : List (Manager.Op D)}
    (hb : Event.Bounded (chronicle.run ops).events) : (chronicle.run ops).Sound plan := by
  induction ops generalizing chronicle with
  | nil => exact h
  | cons op ops ih =>
    apply ih (h.step (fun token ht => hb token ?_) op) hb
    exact ((grows_run (op :: ops) chronicle).1).subset ht

end Chronicle

end PredicateIndex
