import PredicateIndex.Proofs.BooleanQueries
import PredicateIndex.Proofs.ManagerFiles

/-!
# Requests that a group refuses

A request goes through the groups of a manager until one refuses it. A group
refuses a request only because its store awaits recovery, and before it has
written anything: the groups before it have carried the request out, and itself
and those behind it answer all queries as before.
-/

set_option autoImplicit false

namespace PredicateIndex

namespace Store

variable {store : Store}

theorem put_awaiting (hr : store.awaitingRecovery = true) (key : CompositeKey) (id : RecordId)
    (tombstone : Bool) (disk : Disk) : ∃ sessions, store.put key id tombstone disk =
      (.error (.awaitingRecovery store.dir), { store with sessions }, disk) := by
  have hu : store.acquire.2.upsert store.acquire.1 key id tombstone disk =
      .error (.awaitingRecovery store.dir) :=
    upsert_awaiting (show store.acquire.2.awaitingRecovery = true from hr) _ key id tombstone disk
  rw [put]
  simp only [hu]
  exact ⟨_, rfl⟩

theorem put_ready (hr : store.awaitingRecovery = false) (key : CompositeKey) (id : RecordId)
    (tombstone : Bool) (disk : Disk) : ∃ after other,
      store.put key id tombstone disk = (.ok (), after, other) ∧ after.awaitingRecovery = false := by
  obtain ⟨session, borrowed, hb⟩ : ∃ session borrowed, store.acquire = (session, borrowed) :=
    ⟨_, _, rfl⟩
  have hready : borrowed.awaitingRecovery = false := by
    rw [acquire] at hb
    obtain ⟨-, rfl⟩ := Prod.mk.inj hb
    exact hr
  have hu : borrowed.upsert session key id tombstone disk =
      .ok (borrowed.log.tail, session.completeWrite,
        (borrowed.write key id tombstone).evictIfFull disk) := by
    rw [upsert, checkRecovered, hready]
    rfl
  have hsame := (step_same (.upsert session key id tombstone) borrowed disk).awaitingRecovery
  rw [step_upsert hready] at hsame
  refine ⟨release session.completeWrite ((borrowed.write key id tombstone).evictIfFull disk).1,
    ((borrowed.write key id tombstone).evictIfFull disk).2, ?_, hsame.trans hready⟩
  rw [put, hb]
  simp only [hu]

end Store

namespace Group

variable {D : Type}

structure Refuses (group : Group D) (fault : Fault) (after : Group D) : Prop where
  awaiting : group.store.awaitingRecovery = true
  cause : fault = .awaitingRecovery group.store.dir
  same : ∃ sessions, after = { group with store := { group.store with sessions } }

variable {group after : Group D} {disk other : Disk} {fault : Fault}

theorem putAll_error {writes : List IndexWrite}
    (h : putAll writes group disk = (.error fault, after, other)) :
    group.Refuses fault after ∧ other = disk := by
  cases hr : group.store.awaitingRecovery with
  | true =>
    cases writes with
    | nil => cases h
    | cons write rest =>
      obtain ⟨sessions, hp⟩ := Store.put_awaiting hr write.key write.id write.tombstone disk
      rw [putAll, put, hp] at h
      cases h
      exact ⟨⟨hr, rfl, sessions, rfl⟩, rfl⟩
  | false =>
    exfalso
    induction writes generalizing group disk with
    | nil => cases h
    | cons write rest ih =>
      obtain ⟨store, middle, hp, hready⟩ :=
        Store.put_ready hr write.key write.id write.tombstone disk
      rw [putAll, put, hp] at h
      exact ih h hready

theorem id_putAll (writes : List IndexWrite) (group : Group D) (disk : Disk) :
    (putAll writes group disk).2.1.id = group.id := by
  induction writes generalizing group disk with
  | nil => rfl
  | cons write rest ih =>
    rw [putAll]
    rcases hp : group.put write disk with ⟨cause | _, after, other⟩
    · exact congrArg (fun state => state.2.1.id) hp.symm
    · exact (ih after other).trans (congrArg (fun state => state.2.1.id) hp.symm)

theorem captureBefore_carries {tracker captured : ChangeTracker D}
    (h : group.captureBefore tracker = .ok captured) :
    captured.before = tracker.before ∧ captured.after = tracker.after ∧
      captured.kind = tracker.kind := by
  rw [captureBefore] at h
  split at h
  · split at h <;> cases h
    exact ⟨rfl, rfl, rfl⟩
  · cases h
    exact ⟨rfl, rfl, rfl⟩

theorem update_ok {tracker last : ChangeTracker D}
    (hu : group.update tracker disk = (.ok (), after, last, other)) :
    ∃ captured new plan, group.captureBefore tracker = .ok captured ∧ captured.after = some new ∧
      group.plan (group.evaluate new.1) captured = .ok plan ∧
      putAll plan.writes group disk = (.ok (), after, other) ∧
      last = captured.setAfterKeys group.id plan.after plan.hasChanges := by
  rw [update] at hu
  cases hc : group.captureBefore tracker with
  | error fault =>
    rw [hc] at hu
    cases hu
  | ok captured =>
    cases ha : captured.after with
    | none => simp [hc, ha] at hu
    | some new =>
      simp only [hc, ha, applyAfter] at hu
      cases hp : group.plan (group.evaluate new.1) captured with
      | error fault => simp [hp] at hu
      | ok plan =>
        have hid := id_putAll plan.writes group disk
        rcases hput : putAll plan.writes group disk with ⟨fault | _, changed, next⟩ <;>
          simp only [hp, hput] at hu <;> cases hu
        rw [hput] at hid
        exact ⟨captured, new, plan, rfl, ha, hp, hput, by rw [hid]⟩

end Group

inductive Request (D : Type) where
  | insert (data : D) (id : RecordId)
  | update (tracker : ChangeTracker D)
  | delete (tracker : ChangeTracker D)

namespace Request

variable {D : Type}

def tracker : Request D → ChangeTracker D
  | insert _ _ => {}
  | update tracker => tracker
  | delete tracker => tracker.setKind .delete

def work (request : Request D) (group : Group D) (state : ChangeTracker D × Disk) :
    Except Fault Unit × Group D × ChangeTracker D × Disk :=
  match request with
  | insert data id =>
    let (result, group, disk) := group.insert data id state.2
    (result, group, state.1, disk)
  | update _ => group.update state.1 state.2
  | delete _ => group.delete state.1 state.2

def Tells (request : Request D) (group : Nat) (tracker : ChangeTracker D) : Prop :=
  match request with
  | insert _ _ => True
  | update _ => (∃ key, tracker.Captured group key) ∧ tracker.after.isSome ∧
      (tracker.kind = .inPlace ∨ tracker.kind = .copy)
  | delete _ => ∃ key, tracker.Captured group key

variable {request : Request D} {group after : Group D} {disk other : Disk} {fault : Fault}
  {tracker last : ChangeTracker D} {key : CompositeKey}

theorem work_stays {place : Path} (request : Request D) (h : group.store.Stands disk place)
    (tracker : ChangeTracker D) :
    group.Stays place disk (request.work group (tracker, disk)).2.1
      (request.work group (tracker, disk)).2.2.2 := by
  cases request with
  | insert data id => exact Group.stays_insert h data id
  | update => exact Group.stays_update h tracker
  | delete => exact Group.stays_delete h tracker

theorem plan_ok (h : tracker.Captured group.id key)
    (hk : tracker.kind = .inPlace ∨ tracker.kind = .copy) (after : CompositeKey) :
    ∃ plan, group.plan after tracker = .ok plan := by
  rw [Group.plan, h.keys, BeforeKeys.ofKey]
  cases key.anyMatch <;> rcases hk with hk | hk <;> rw [hk] <;> exact ⟨_, rfl⟩

theorem update_eq {data : D} {id : RecordId} (h : tracker.Captured group.id key)
    (hk : tracker.kind = .inPlace ∨ tracker.kind = .copy) (ha : tracker.after = some (data, id)) :
    ∃ plan : UpdatePlan, group.update tracker disk =
      match Group.putAll plan.writes group disk with
      | (.error fault, group, disk) => (.error fault, group, tracker, disk)
      | (.ok (), group, disk) =>
        (.ok (), group, tracker.setAfterKeys group.id plan.after plan.hasChanges, disk) := by
  obtain ⟨plan, hp⟩ := plan_ok h hk (group.evaluate data)
  refine ⟨plan, ?_⟩
  rw [Group.update, Group.Indexed.captureBefore h]
  rcases hputs : Group.putAll plan.writes group disk with ⟨fault | _, changed, other⟩ <;>
    simp only [ha, Group.applyAfter, hp, hputs]

/-- A group that has been told everything refuses a request only because it awaits recovery. -/
theorem work_error (ht : request.Tells group.id tracker)
    (h : request.work group (tracker, disk) = (.error fault, after, last, other)) :
    group.Refuses fault after ∧ other = disk := by
  cases request with
  | insert data id =>
    rw [work, Group.insert] at h
    rcases hp : Group.putAll (UpdatePlan.matching [⟨group.evaluate data, id, false⟩]) group disk with
      ⟨result, changed, next⟩
    rw [hp] at h
    cases h
    exact Group.putAll_error hp
  | update =>
    obtain ⟨⟨key, hc⟩, ha, hk⟩ := ht
    obtain ⟨⟨data, id⟩, ha⟩ := Option.isSome_iff_exists.mp ha
    obtain ⟨plan, he⟩ := @update_eq D group disk tracker key data id hc hk ha
    rw [work, he] at h
    rcases hp : Group.putAll plan.writes group disk with ⟨cause | _, changed, next⟩ <;> rw [hp] at h
    · cases h
      exact Group.putAll_error hp
    · cases h
  | delete =>
    obtain ⟨key, hc⟩ := ht
    rw [work, Group.Indexed.delete_captured hc] at h
    rcases hp : Group.putAll (UpdatePlan.matching [⟨key, tracker.beforeId, true⟩]) group disk with
      ⟨result, changed, next⟩
    rw [hp] at h
    cases h
    exact Group.putAll_error hp

theorem work_ok (ht : request.Tells group.id tracker)
    (h : request.work group (tracker, disk) = (.ok (), after, last, other)) {id : Nat}
    (hn : id ≠ group.id) (hi : request.Tells id tracker) : request.Tells id last := by
  cases request with
  | insert data id => trivial
  | update =>
    obtain ⟨⟨key, hc⟩, ha, hk⟩ := ht
    obtain ⟨⟨data, place⟩, ha⟩ := Option.isSome_iff_exists.mp ha
    obtain ⟨plan, he⟩ := @update_eq D group disk tracker key data place hc hk ha
    rw [work, he] at h
    rcases hp : Group.putAll plan.writes group disk with ⟨cause | _, changed, next⟩ <;> rw [hp] at h
    · cases h
    · cases h
      obtain ⟨⟨known, hknown⟩, hafter, hkind⟩ := hi
      have hid := Group.id_putAll plan.writes group disk
      rw [hp] at hid
      exact ⟨⟨known, hknown.setAfterKeys (fun he => hn (he.trans hid)) _ _⟩, hafter, hkind⟩
  | delete =>
    obtain ⟨key, hc⟩ := ht
    rw [work, Group.Indexed.delete_captured hc] at h
    rcases hp : Group.putAll (UpdatePlan.matching [⟨key, tracker.beforeId, true⟩]) group disk with
      ⟨result, changed, next⟩
    rw [hp] at h
    cases h
    exact hi

end Request

namespace Manager

variable {D : Type}

theorem onEach_error {σ : Type} (operation : Group D → σ → Except Fault Unit × Group D × σ)
    (inv : Nat → σ → Prop)
    (hstep : ∀ group state after next, inv group.id state →
      operation group state = (.ok (), after, next) → ∀ id, id ≠ group.id → inv id state →
        inv id next)
    {groups changed : List (Group D)} {state last : σ} {fault : Fault}
    (hd : groups.Pairwise fun g h => g.id ≠ h.id) (hi : ∀ group ∈ groups, inv group.id state)
    (h : onEach operation groups state = (.error fault, changed, last)) :
    ∃ front group rest carried refused middle, groups = front ++ group :: rest ∧
      changed = carried ++ refused :: rest ∧
      onEach operation front state = (.ok (), carried, middle) ∧ inv group.id middle ∧
      operation group middle = (.error fault, refused, last) := by
  induction groups generalizing state changed with
  | nil => cases h
  | cons first others ih =>
    obtain ⟨hfirst, hothers⟩ := List.pairwise_cons.mp hd
    have hinv := hi first List.mem_cons_self
    rw [onEach] at h
    rcases ho : operation first state with ⟨cause | _, after, next⟩ <;> rw [ho] at h
    · cases h
      exact ⟨[], first, others, [], after, state, rfl, rfl, rfl, hinv, ho⟩
    · dsimp only at h
      rcases hr : onEach operation others next with ⟨result, later, final⟩
      rw [hr] at h
      cases h
      have hnext : ∀ group ∈ others, inv group.id next := fun group hg =>
        hstep first state after next hinv ho group.id (fun he => hfirst group hg he.symm)
          (hi group (List.mem_cons_of_mem first hg))
      obtain ⟨front, group, rest, carried, refused, middle, rfl, rfl, hfront, hgroup, herror⟩ :=
        ih hothers hnext hr
      refine ⟨first :: front, group, rest, after :: carried, refused, middle, rfl, rfl, ?_, hgroup,
        herror⟩
      rw [onEach, ho]
      simp only [hfront]

end Manager

structure Group.Alike {D : Type} (group : Group D) (disk : Disk) (other : Group D) (after : Disk) :
    Prop where
  id : other.id = group.id
  predicates : other.predicates = group.predicates
  reads : group.store.ReadsAlike disk other.store after

theorem Group.alike_of_spares {D : Type} {group : Group D} {disk other : Disk} {place : Path}
    {spared : Path → Prop} (h : group.store.Stands disk place)
    (hs : Disk.Spares spared disk other) (hp : spared (place ++ [Log.fileName]))
    (sessions : SessionPool) :
    group.Alike disk { group with store := { group.store with sessions } } other :=
  ⟨rfl, rfl, rfl, rfl, h.readAt_frame hs hp⟩

namespace Manager

variable {D : Type} {manager after : Manager D} {disk other : Disk}

def answer {type : KeyType} (manager : Manager D) (disk : Disk) (handle : Handle type)
    (keys : List type.Value) (startAfter : Option RecordId) : Except Fault (List RecordId) :=
  match manager.query handle keys { startAfter } with
  | .error fault => .error fault
  | .ok query => (query.collect { manager, disk }).1

def AlikeAt (manager : Manager D) (disk : Disk) (after : Manager D) (other : Disk) (id : Nat) :
    Prop :=
  (manager.groups.find? (fun group => group.id = id) = none ∧
      after.groups.find? (fun group => group.id = id) = none) ∨
    ∃ group changed, manager.groups.find? (fun group => group.id = id) = some group ∧
      after.groups.find? (fun group => group.id = id) = some changed ∧
      group.Alike disk changed other

section

variable {type : KeyType} {handle : Handle type}

theorem group_of_source {keys : List type.Value} {source : ChainSource}
    (h : manager.source (handle, keys) = .ok source) : source.group = handle.group := by
  rw [source_eq] at h
  repeat' split at h
  all_goals cases h
  rfl

theorem AlikeAt.source (h : manager.AlikeAt disk after other handle.group)
    (hi : after.identity = manager.identity) (keys : List type.Value) :
    after.source (handle, keys) = manager.source (handle, keys) := by
  rw [source_eq, source_eq, hi]
  rcases h with ⟨hn, ha⟩ | ⟨group, changed, hg, hc, halike⟩
  · rw [hn, ha]
  · have hname : changed.name? handle.ordinal = group.name? handle.ordinal := by
      rw [Group.name?, Group.name?, Group.names, Group.names, halike.predicates]
    simp only [hg, hc, hname]

theorem AlikeAt.chainsOf {source : ChainSource}
    (h : manager.AlikeAt disk after other source.group) :
    after.chainsOf other source = manager.chainsOf disk source := by
  have hread : ∀ key, (after.readChain source key false other).1 =
      (manager.readChain source key false disk).1 := by
    intro key
    rw [readChain, readChain]
    rcases h with ⟨hn, ha⟩ | ⟨group, changed, hg, hc, halike⟩
    · rw [hn, ha]
    · rw [hg, hc]
      exact halike.reads.readChain _ _ _ _
  rw [Manager.chainsOf, Manager.chainsOf, funext hread]

theorem answer_congr (h : manager.AlikeAt disk after other handle.group)
    (hi : after.identity = manager.identity) (keys : List type.Value)
    (startAfter : Option RecordId) :
    after.answer other handle keys startAfter = manager.answer disk handle keys startAfter := by
  have hsource := h.source hi keys
  cases hs : manager.source (handle, keys) with
  | error fault =>
    have hquery : ∀ manager : Manager D, manager.source (handle, keys) = .error fault →
        manager.query handle keys { startAfter } = .error fault := by
      intro manager he
      rw [query, prepare, sources, sourcesOf, he]
      rfl
    rw [answer, answer, hquery manager hs, hquery after (hsource.trans hs)]
  | ok source =>
    have hprepared : ∀ manager : Manager D, manager.source (handle, keys) = .ok source →
        manager.query handle keys { startAfter } =
          .ok ⟨[[source]], startAfter, callbacks none { startAfter }⟩ := by
      intro manager he
      rw [query, prepare, sources, sourcesOf, he]
      rfl
    rw [answer, answer, hprepared manager hs, hprepared after (hsource.trans hs)]
    rw [← group_of_source hs] at h
    exact collect_congr startAfter h.chainsOf

end

theorem alikeAt_append {front carried rest : List (Group D)} {group refused : Group D} {id : Nat}
    (hg : manager.groups = front ++ group :: rest) (ha : after.groups = carried ++ refused :: rest)
    (hids : carried.map Group.id = front.map Group.id) (hid : id ∉ front.map Group.id)
    (hgroup : group.Alike disk refused other) (hrest : ∀ group ∈ rest, group.Alike disk group other) :
    manager.AlikeAt disk after other id := by
  have hnone : ∀ groups : List (Group D), id ∉ groups.map Group.id →
      groups.find? (fun group => group.id = id) = none := by
    intro groups hn
    simp only [List.find?_eq_none, decide_eq_true_eq]
    rintro group hm rfl
    exact hn (List.mem_map_of_mem hm)
  rw [AlikeAt, hg, ha, List.find?_append, List.find?_append, hnone front hid,
    hnone carried (hids ▸ hid), Option.none_or, Option.none_or, List.find?_cons, List.find?_cons,
    hgroup.id]
  by_cases he : group.id = id
  · simp only [he, decide_true]
    exact Or.inr ⟨group, refused, rfl, rfl, hgroup⟩
  · simp only [he, decide_false]
    cases hf : rest.find? fun group => group.id = id with
    | none => exact Or.inl ⟨rfl, rfl⟩
    | some found => exact Or.inr ⟨found, found, rfl, rfl, hrest found (List.mem_of_find?_eq_some hf)⟩

end Manager

/-- How a request fails: the groups in front of one that awaits recovery have carried it out, and
queries of all the others answer as before. -/
structure Request.StopsAt {D : Type} (request : Request D) (manager : Manager D) (disk : Disk)
    (front : List (Group D)) (group : Group D) (fault : Fault) (after : Manager D) (other : Disk) :
    Prop where
  awaiting : group.store.awaitingRecovery = true
  cause : fault = .awaitingRecovery group.store.dir
  groups : ∃ rest carried refused tracker, manager.groups = front ++ group :: rest ∧
    after.groups = carried ++ refused :: rest ∧
    Manager.onEach request.work front (request.tracker, disk) = (.ok (), carried, tracker, other)
  answers : ∀ {type : KeyType} (handle : Handle type) (keys : List type.Value)
    (startAfter : Option RecordId), handle.group ∉ front.map Group.id →
      after.answer other handle keys startAfter = manager.answer disk handle keys startAfter

/-- A request fails only at a group that awaits recovery. -/
theorem Request.stopsAt {D : Type} {request : Request D} {manager after : Manager D}
    {disk other : Disk} {last : ChangeTracker D} {fault : Fault} (h : manager.Stands disk)
    (ht : ∀ group ∈ manager.groups, request.Tells group.id request.tracker)
    (he : manager.onGroups request.work (request.tracker, disk) =
      (.error fault, after, last, other)) :
    ∃ front group, request.StopsAt manager disk front group fault after other := by
  rcases hr : Manager.onEach request.work manager.groups (request.tracker, disk) with
    ⟨result, changed, final⟩
  rw [Manager.onGroups, hr] at he
  cases he
  obtain ⟨front, group, rest, carried, refused, ⟨tracker, middle⟩, hg, rfl, hfront, hgroup, herror⟩ :=
    Manager.onEach_error request.work (fun id state => request.Tells id state.1)
      (fun group state changed next hi ho id hn hid => work_ok hi ho hn hid) h.distinct ht hr
  obtain ⟨hrefuses, rfl⟩ := work_error hgroup herror
  obtain ⟨base, hb⟩ := h.base
  have hdistinct := h.distinct
  rw [hg] at hb hdistinct
  obtain ⟨hd, -, hapart⟩ := List.pairwise_append.mp hdistinct
  -- The groups in front work on their own files, so those of the other groups are spared.
  obtain ⟨hids, -, hspares⟩ := Manager.onEach_stays request.work (fun state => state.2) base
    (fun group state hs => request.work_stays hs state.1) (request.tracker, disk) h.wellFormed hd
    fun group hm => (hb group (List.mem_append_left _ hm)).2
  rw [hfront] at hids hspares
  have halike : ∀ group' ∈ group :: rest, ∀ sessions, group'.Alike disk
      { group' with store := { group'.store with sessions } } other := fun group' hm sessions =>
    Group.alike_of_spares (hb group' (List.mem_append_right _ hm)).2 hspares
      (fun first hf => Manager.outside_of_ne base fun hc => hapart first hf group' hm hc.symm) sessions
  obtain ⟨sessions, hsame⟩ := hrefuses.same
  refine ⟨front, group, hrefuses.awaiting, hrefuses.cause,
    ⟨rest, carried, _, tracker, hg, rfl, hfront⟩, fun handle keys startAfter hn => ?_⟩
  have hat : manager.AlikeAt disk { manager with groups := carried ++ refused :: rest } other
      handle.group :=
    Manager.alikeAt_append hg rfl hids hn (hsame ▸ halike group List.mem_cons_self sessions)
      fun other hm => halike other (List.mem_cons_of_mem group hm) other.store.sessions
  exact Manager.answer_congr hat rfl keys startAfter

end PredicateIndex
