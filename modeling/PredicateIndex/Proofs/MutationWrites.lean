import PredicateIndex.Proofs.Dispatches
import PredicateIndex.Proofs.EqualIndexes
import PredicateIndex.Proofs.ReachedManagers

/-!
# The writes of mutations

Mutations of the records of a manager, and what trackers are told between them,
come to writes that depend on the predicates of the groups and on the trackers
alone. A run of mutations has each group append the records of its writes, in
their order.
-/

set_option autoImplicit false

namespace PredicateIndex

variable {D : Type}

structure Group.SamePart (group changed : Group D) : Prop where
  id : changed.id = group.id
  predicates : changed.predicates = group.predicates
  awaiting : changed.store.awaitingRecovery = group.store.awaitingRecovery

theorem Group.SamePart.evaluate {group changed : Group D} (h : group.SamePart changed) (data : D) :
    changed.evaluate data = group.evaluate data := by
  rw [Group.evaluate, Group.evaluate, h.predicates]

theorem Request.spread_congr (request : Request D) {groups changed : List (Group D)}
    (h : List.Forall₂ Group.SamePart groups changed) (tracker : ChangeTracker D) :
    request.spread changed tracker = request.spread groups tracker := by
  induction h generalizing tracker with
  | nil => rfl
  | cons hfirst _ ih =>
    rw [spread, spread, effect_congr request tracker hfirst.id hfirst.predicates hfirst.awaiting,
      hfirst.id]
    simp only [ih]

namespace Manager

variable {manager after : Manager D} {base : Path} {groups middle changed : List (Group D)}
  {disk opened other : Disk} {writes others : Nat → List IndexWrite}

theorem setBefore_congr (h : List.Forall₂ Group.SamePart manager.groups after.groups) (data : D)
    (id : RecordId) (tracker : ChangeTracker D) :
    after.setBefore data id tracker = manager.setBefore data id tracker := by
  have hfold : ∀ (groups changed : List (Group D)) (tracker : ChangeTracker D),
      List.Forall₂ Group.SamePart groups changed →
      changed.foldl (fun tracker group => tracker.setBeforeKeys group.id (group.evaluate data))
          tracker =
        groups.foldl (fun tracker group => tracker.setBeforeKeys group.id (group.evaluate data))
          tracker := by
    intro groups changed tracker h
    induction h generalizing tracker with
    | nil => rfl
    | cons hfirst _ ih => rw [List.foldl_cons, List.foldl_cons, hfirst.id, hfirst.evaluate, ih]
  have hids : after.groups.map Group.id = manager.groups.map Group.id := by
    generalize manager.groups = groups, after.groups = changed at h
    induction h with
    | nil => rfl
    | cons hfirst _ ih => rw [List.map_cons, List.map_cons, hfirst.id, ih]
  have hlast : ∀ manager : Manager D, manager.groupBound =
      ((manager.groups.map Group.id).getLast?.map (· + 1)).getD 0 := fun manager => by
    rw [groupBound, List.getLast?_map]
    cases manager.groups.getLast? <;> rfl
  have hbound : after.groupBound = manager.groupBound := by rw [hlast, hlast, hids]
  rw [setBefore, setBefore, hfold _ _ _ h, hbound]

namespace Appends

theorem parts (h : Appends groups base disk writes changed other) :
    List.Forall₂ Group.SamePart groups changed :=
  List.Forall₂.imp (fun _ _ hg => ⟨hg.id, hg.predicates, hg.awaiting⟩) h

theorem ids (h : Appends groups base disk writes changed other) :
    changed.map Group.id = groups.map Group.id := by
  induction h with
  | nil => rfl
  | cons hfirst _ ih => rw [List.map_cons, List.map_cons, hfirst.id, ih]

theorem legible (h : Appends groups base disk writes changed other)
    (hl : ∀ group ∈ groups, group.Legible (groupPlace base group.id) disk) :
    ∀ group ∈ changed, group.Legible (groupPlace base group.id) other := by
  induction h with
  | nil => exact nofun
  | @cons group after rest later hfirst _ ih =>
    intro found hf
    rcases List.mem_cons.mp hf with rfl | hf
    · rw [hfirst.id]
      exact hfirst.legible (hl group List.mem_cons_self)
    · exact ih (fun other ho => hl other (List.mem_cons_of_mem group ho)) found hf

theorem refl (groups : List (Group D)) (base : Path) (disk : Disk) :
    Appends groups base disk (fun _ => []) groups disk :=
  List.forall₂_same.mpr fun group _ => .refl group _ disk

theorem trans (h : Appends groups base disk writes middle opened)
    (ha : Appends middle base opened others changed other) :
    Appends groups base disk (fun id => writes id ++ others id) changed other := by
  induction h generalizing changed with
  | nil =>
    cases ha
    exact .nil
  | cons hfirst _ ih =>
    cases ha with
    | cons hsecond hrest =>
      rw [hfirst.id] at hsecond
      exact .cons (hfirst.trans hsecond) (ih hrest)

theorem ofSpares (hs : Disk.Spares
      (fun path => ∀ group ∈ middle, Store.Outside (groupPlace base group.id) path) disk other)
    (hd : ∀ group ∈ groups, ∀ first ∈ middle, group.id ≠ first.id) :
    Appends groups base disk (fun _ => []) groups other :=
  List.forall₂_same.mpr fun group hg => .ofSessions group group.store.sessions hs
    fun first hf => outside_of_ne base (hd group hg first hf)

end Appends

/-- Two managers that have come from one by writes answer alike if, in each group, these make the
same of every index and are on the same chains. -/
theorem answersAlike_of_appends {first second : Manager D} {final : Disk}
    (hl : ∀ group ∈ groups, group.Legible (groupPlace base group.id) disk)
    (h : Appends groups base disk writes first.groups other)
    (hs : Appends groups base disk others second.groups final)
    (hmarks : ∀ group ∈ groups, ∀ index,
      IndexWrite.markAll (others group.id) index = IndexWrite.markAll (writes group.id) index)
    (hchains : ∀ group ∈ groups, ∀ chain,
      (∃ write ∈ others group.id, chain ∈ write.key.chains) ↔
        ∃ write ∈ writes group.id, chain ∈ write.key.chains)
    (hf : ∀ group ∈ first.groups, group.store.log.Fits)
    (hfs : ∀ group ∈ second.groups, group.store.log.Fits) :
    first.AnswersAlike other second final := by
  apply answersAlike_of_groups
  generalize first.groups = lefts, second.groups = rights at h hs hf hfs
  induction h generalizing rights with
  | nil =>
    cases hs
    exact .nil
  | @cons group left rest lefts hfirst _ ih =>
    cases hs with
    | @cons _ right _ rights hsecond hrest =>
      refine .cons ?_ (ih (fun other ho => hl other (List.mem_cons_of_mem group ho))
        (fun other ho => hmarks other (List.mem_cons_of_mem group ho))
        (fun other ho => hchains other (List.mem_cons_of_mem group ho)) rights hrest
        (fun other ho => hf other (List.mem_cons_of_mem left ho))
        (fun other ho => hfs other (List.mem_cons_of_mem right ho)))
      exact hfirst.sameReads (hl group List.mem_cons_self) hsecond
        (hmarks group List.mem_cons_self) (hchains group List.mem_cons_self)
        (hf left List.mem_cons_self) (hfs right List.mem_cons_self)

namespace Op

def tracker? : Op D → Option Nat
  | .upsert _ _ name => name
  | .newTracker name | .setBefore name _ _ | .setAfter name _ _ | .update name | .delete name =>
    some name
  | _ => none

def mutates : Op D → Bool
  | .upsert .. | .update _ | .delete _ => true
  | _ => false

def begins : Op D → Bool
  | .newTracker _ | .setBefore .. | .setAfter .. => true
  | op => op.mutates

def given (op : Op D) (trackers : Nat → ChangeTracker D) : ChangeTracker D :=
  (op.tracker?.map trackers).getD {}

def leaves (op : Op D) (trackers : Nat → ChangeTracker D) (tracker : ChangeTracker D) :
    Nat → ChangeTracker D :=
  fun name => if op.tracker? = some name then tracker else trackers name

def effect (op : Op D) (manager : Manager D) (tracker : ChangeTracker D) :
    (Nat → List IndexWrite) × ChangeTracker D :=
  match op with
  | .upsert data id none => (((Request.insert data id).spread manager.groups {}).1, tracker)
  | .upsert data id (some _) =>
    if tracker.kind = .insert then
      (((Request.insert data id).spread manager.groups {}).1, tracker)
    else (Request.update tracker).spread manager.groups tracker
  | .newTracker _ => (fun _ => [], {})
  | .setBefore _ data id => (fun _ => [], manager.setBefore data id tracker)
  | .setAfter _ data id => (fun _ => [], tracker.setAfter data id)
  | .update _ => (Request.update tracker).spread manager.groups tracker
  | .delete _ => (Request.delete tracker).spread manager.groups (tracker.setKind .delete)
  | _ => (fun _ => [], tracker)

theorem effect_congr {manager after : Manager D} (op : Op D)
    (h : List.Forall₂ Group.SamePart manager.groups after.groups) (tracker : ChangeTracker D) :
    op.effect after tracker = op.effect manager tracker := by
  cases op with
  | upsert data id name => cases name <;> simp only [effect, Request.spread_congr _ h]
  | setBefore name data id => rw [effect, effect, setBefore_congr h]
  | update name => exact Request.spread_congr _ h _
  | delete name => exact Request.spread_congr _ h _
  | _ => rfl

theorem writes_effect (op : Op D) (tracker : ChangeTracker D) :
    (∀ manager : Manager D, (op.effect manager tracker).1 = fun _ => []) ∨
      ∃ (request : Request D) (carried : ChangeTracker D), ∀ manager : Manager D,
        (op.effect manager tracker).1 = (request.spread manager.groups carried).1 := by
  cases op with
  | upsert data id name =>
    cases name with
    | none => exact .inr ⟨.insert data id, {}, fun _ => rfl⟩
    | some name =>
      by_cases hk : tracker.kind = .insert
      · exact .inr ⟨.insert data id, {}, fun _ => by rw [effect, if_pos hk]⟩
      · exact .inr ⟨.update tracker, tracker, fun _ => by rw [effect, if_neg hk]⟩
  | update name => exact .inr ⟨.update tracker, tracker, fun _ => rfl⟩
  | delete name => exact .inr ⟨.delete tracker, tracker.setKind .delete, fun _ => rfl⟩
  | _ => exact .inl fun _ => rfl

theorem settled_effect (op : Op D) (manager : Manager D) {tracker : ChangeTracker D}
    (h : tracker.Settled) : (op.effect manager tracker).2.Settled := by
  cases op with
  | upsert data id name =>
    cases name with
    | none => exact h
    | some name =>
      rw [effect]
      split
      · exact h
      · exact Request.settled_spread _ _ h
  | newTracker name => exact ChangeTracker.settled_new
  | setBefore name data id => exact ChangeTracker.settled_setBefore manager data id tracker
  | setAfter name data id => exact h.setAfter data id
  | update name => exact Request.settled_spread _ _ h
  | delete name => exact Request.settled_spread _ _ (h.setKind .delete)
  | _ => exact h

theorem fits_effect (op : Op D) {manager : Manager D}
    (hs : ∀ group ∈ manager.groups, Sized group.predicates) {tracker : ChangeTracker D}
    (h : tracker.Fits) : (op.effect manager tracker).2.Fits := by
  cases op with
  | upsert data id name =>
    cases name with
    | none => exact h
    | some name =>
      rw [effect]
      split
      · exact h
      · exact Request.fits_spread _ hs h
  | newTracker name => exact ChangeTracker.fits_of_groups rfl
  | setBefore name data id => exact Manager.fits_setBefore hs data id tracker
  | setAfter name data id => exact h.congr rfl
  | update name => exact Request.fits_spread _ hs h
  | delete name => exact Request.fits_spread _ hs (h.congr rfl)
  | _ => exact h

end Op

end Manager

namespace Chronicle

variable {chronicle : Chronicle D} {base : Path}

structure Ready (chronicle : Chronicle D) (base : Path) : Prop where
  wellFormed : chronicle.disk.WellFormed
  legible : chronicle.manager.Legible chronicle.disk base
  fits : ∀ name, (chronicle.trackers name).Fits
  settled : ∀ name, (chronicle.trackers name).Settled

structure Comes (chronicle : Chronicle D) (op : Manager.Op D) (base : Path) (next : Chronicle D) :
    Prop where
  appends : Manager.Appends chronicle.manager.groups base chronicle.disk
    (op.effect chronicle.manager (op.given chronicle.trackers)).1 next.manager.groups next.disk
  trackers : next.trackers = op.leaves chronicle.trackers
    (op.effect chronicle.manager (op.given chronicle.trackers)).2
  spares : Disk.Spares (fun path => ∀ group ∈ chronicle.manager.groups,
    Store.Outside (Manager.groupPlace base group.id) path) chronicle.disk next.disk

namespace Ready

theorem request (h : chronicle.Ready base) (request : Request D) (ht : request.tracker.Fits)
    (hs : request.tracker.Settled) : ∃ result changed other,
      chronicle.manager.onGroups request.work (request.tracker, chronicle.disk) =
        (result, { chronicle.manager with groups := changed },
          (request.spread chronicle.manager.groups request.tracker).2, other) ∧
      Manager.Appends chronicle.manager.groups base chronicle.disk
        (request.spread chronicle.manager.groups request.tracker).1 changed other ∧
      Disk.Spares (fun path => ∀ group ∈ chronicle.manager.groups,
        Store.Outside (Manager.groupPlace base group.id) path) chronicle.disk other := by
  obtain ⟨result, changed, other, heach, happends, hspares⟩ :=
    Manager.onEach_spread request h.wellFormed h.legible.distinct h.legible.group ht hs
  refine ⟨result, changed, other, ?_, happends, hspares⟩
  rw [Manager.onGroups, heach]

theorem insert (h : chronicle.Ready base) (data : D) (id : RecordId) : ∃ result changed other,
    chronicle.manager.insert data id chronicle.disk =
      (result, { chronicle.manager with groups := changed }, other) ∧
    Manager.Appends chronicle.manager.groups base chronicle.disk
      ((Request.insert data id).spread chronicle.manager.groups {}).1 changed other ∧
    Disk.Spares (fun path => ∀ group ∈ chronicle.manager.groups,
      Store.Outside (Manager.groupPlace base group.id) path) chronicle.disk other := by
  obtain ⟨result, changed, other, hwork, happends, hspares⟩ :=
    h.request (.insert data id) (ChangeTracker.fits_of_groups rfl) ChangeTracker.settled_new
  refine ⟨result, changed, other, ?_, happends, hspares⟩
  rw [Manager.onGroups, Request.onEach_insert] at hwork
  simp only [Prod.mk.injEq] at hwork
  rw [Manager.insert, Manager.onGroups]
  simp only [hwork]

theorem mutated {op : Manager.Op D} {name : Nat} (hn : op.tracker? = some name)
    {tracker : ChangeTracker D} {changed : List (Group D)} {other : Disk}
    (ht : (op.effect chronicle.manager (chronicle.trackers name)).2 = tracker)
    (ha : Manager.Appends chronicle.manager.groups base chronicle.disk
      (op.effect chronicle.manager (chronicle.trackers name)).1 changed other)
    (hs : Disk.Spares (fun path => ∀ group ∈ chronicle.manager.groups,
      Store.Outside (Manager.groupPlace base group.id) path) chronicle.disk other) :
    chronicle.Comes op base (setTracker name tracker
      { chronicle with
        manager := { chronicle.manager with groups := changed }, disk := other }) := by
  have hgiven : op.given chronicle.trackers = chronicle.trackers name := by
    rw [Manager.Op.given, hn]
    rfl
  refine ⟨hgiven ▸ ha, ?_, hs⟩
  funext found
  rw [Chronicle.setTracker, Manager.Op.leaves, hgiven, ht, hn]
  simp only [Option.some.injEq, eq_comm]

theorem told (h : chronicle.Ready base) {op : Manager.Op D} {name : Nat}
    (hn : op.tracker? = some name)
    (ho : (op.effect chronicle.manager (chronicle.trackers name)).1 = fun _ => []) :
    chronicle.Comes op base (chronicle.setTracker name
      (op.effect chronicle.manager (chronicle.trackers name)).2) :=
  mutated hn rfl (ho ▸ .refl _ base _) (.refl h.wellFormed)

/-- What is asked comes to what it comes to by the predicates and the trackers. -/
theorem comes (h : chronicle.Ready base) {op : Manager.Op D} (ho : op.begins = true) :
    chronicle.Comes op base (chronicle.step op) := by
  cases op with
  | upsert data id name =>
    obtain ⟨result, changed, other, hinsert, happends, hspares⟩ := h.insert data id
    cases name with
    | none =>
      refine ⟨?_, ?_, ?_⟩ <;> simp only [Chronicle.step, Manager.upsert, hinsert]
      · exact happends
      · rfl
      · exact hspares
    | some name =>
      by_cases hk : (chronicle.trackers name).kind = .insert
      · simp only [Chronicle.step, Manager.upsert_of_insert hk, hinsert]
        refine mutated rfl ?_ ?_ hspares <;> rw [Manager.Op.effect, if_pos hk]
        exact happends
      · obtain ⟨_, changed, other, hupdate, happends, hspares⟩ :=
          h.request (.update (chronicle.trackers name)) (h.fits name) (h.settled name)
        have hu : chronicle.manager.update (chronicle.trackers name) chronicle.disk = _ := hupdate
        simp only [Chronicle.step, Manager.upsert_of_update hk, hu]
        refine mutated rfl ?_ ?_ hspares <;> rw [Manager.Op.effect, if_neg hk]
        · rfl
        · exact happends
  | newTracker name => exact h.told rfl rfl
  | setBefore name data id => exact h.told rfl rfl
  | setAfter name data id => exact h.told rfl rfl
  | update name =>
    obtain ⟨result, changed, other, hupdate, happends, hspares⟩ :=
      h.request (.update (chronicle.trackers name)) (h.fits name) (h.settled name)
    have hu : chronicle.manager.update (chronicle.trackers name) chronicle.disk = _ := hupdate
    simp only [Chronicle.step, hu]
    exact mutated rfl rfl happends hspares
  | delete name =>
    have hfits : ((chronicle.trackers name).setKind .delete).Fits := (h.fits name).congr rfl
    obtain ⟨result, changed, other, hdelete, happends, hspares⟩ :=
      h.request (.delete (chronicle.trackers name)) hfits ((h.settled name).setKind .delete)
    have hd : chronicle.manager.delete (chronicle.trackers name) chronicle.disk = _ := hdelete
    simp only [Chronicle.step, hd]
    exact mutated rfl rfl happends hspares
  | _ => cases ho

theorem ofComes (h : chronicle.Ready base) {op : Manager.Op D} {next : Chronicle D}
    (hc : chronicle.Comes op base next) : next.Ready base := by
  have hids := hc.appends.ids
  have hsized : ∀ group ∈ chronicle.manager.groups, Sized group.predicates := fun group hg =>
    (h.legible.group group hg).sized
  have hgiven : (op.given chronicle.trackers).Fits ∧ (op.given chronicle.trackers).Settled := by
    rw [Manager.Op.given]
    cases op.tracker? with
    | none => exact ⟨ChangeTracker.fits_of_groups rfl, ChangeTracker.settled_new⟩
    | some name => exact ⟨h.fits name, h.settled name⟩
  refine ⟨hc.spares.wellFormed, ⟨Manager.distinct_of_ids hids h.legible.distinct,
    hc.appends.legible h.legible.group⟩, fun name => ?_, fun name => ?_⟩
  · rw [hc.trackers, Manager.Op.leaves]
    split
    · exact Manager.Op.fits_effect op hsized hgiven.1
    · exact h.fits name
  · rw [hc.trackers, Manager.Op.leaves]
    split
    · exact Manager.Op.settled_effect op _ hgiven.2
    · exact h.settled name

end Ready

theorem settled_step (h : ∀ name, (chronicle.trackers name).Settled) (op : Manager.Op D)
    (name : Nat) : ((chronicle.step op).trackers name).Settled := by
  have hset : ∀ (chronicle : Chronicle D) other (tracker : ChangeTracker D),
      (∀ name, (chronicle.trackers name).Settled) → tracker.Settled →
        ((chronicle.setTracker other tracker).trackers name).Settled := by
    intro chronicle other tracker h ht
    rw [Chronicle.setTracker]
    dsimp only
    split
    · exact ht
    · exact h name
  have hfan : ∀ (request : Request D), request.tracker.Settled →
      (chronicle.manager.onGroups request.work
        (request.tracker, chronicle.disk)).2.2.1.Settled := fun request hs =>
    Manager.settled_onEach request chronicle.manager.groups hs chronicle.disk
  cases op with
  | upsert data id tracker =>
    cases tracker with
    | none => exact h name
    | some tracker =>
      by_cases hk : (chronicle.trackers tracker).kind = .insert
      · simp only [Chronicle.step, Manager.upsert_of_insert hk]
        exact hset _ _ _ h (h tracker)
      · simp only [Chronicle.step, Manager.upsert_of_update hk]
        exact hset _ _ _ h (hfan (.update (chronicle.trackers tracker)) (h tracker))
  | newTracker tracker => exact hset _ _ _ h ChangeTracker.settled_new
  | setBefore tracker data id =>
    exact hset _ _ _ h (ChangeTracker.settled_setBefore chronicle.manager data id _)
  | setAfter tracker data id => exact hset _ _ _ h ((h tracker).setAfter data id)
  | update tracker => exact hset _ _ _ h (hfan (.update (chronicle.trackers tracker)) (h tracker))
  | delete tracker =>
    exact hset _ _ _ h (hfan (.delete (chronicle.trackers tracker)) ((h tracker).setKind .delete))
  | take clock =>
    rw [Chronicle.step]
    split <;> exact h name
  | complete =>
    rw [Chronicle.step]
    split <;> exact h name
  | _ => exact h name

theorem settled_run (h : ∀ name, (chronicle.trackers name).Settled) (ops : List (Manager.Op D)) :
    ∀ name, ((chronicle.run ops).trackers name).Settled := by
  induction ops generalizing chronicle with
  | nil => exact h
  | cons op ops ih => exact ih (settled_step h op)

end Chronicle

namespace Annals

theorem trackers_start (definitions : List (Definitions D)) (manager : Manager D) (disk : Disk)
    (annals : Annals D) :
    (annals.start definitions manager disk).trackers = annals.trackers := by
  rw [start]
  rcases Manager.registerAll definitions manager disk with ⟨registered, ready, prepared⟩
  dsimp only
  repeat' split
  all_goals rfl

theorem settled_run {dir : Path} {definitions : List (Definitions D)} {annals : Annals D}
    (h : ∀ name, (annals.trackers name).Settled) (lives : List (Life D)) :
    ∀ name, ((run dir definitions lives annals).trackers name).Settled := by
  induction lives generalizing annals with
  | nil => exact h
  | cons life lives ih =>
    refine ih ?_
    rw [live]
    split
    · exact h
    · refine Chronicle.settled_run ?_ life.ops
      rwa [trackers_start]

end Annals

namespace Chronicle.Reached

variable {chronicle : Chronicle D}

theorem settled (h : chronicle.Reached) : ∀ name, (chronicle.trackers name).Settled := by
  induction h with
  | opened => exact fun _ => ChangeTracker.settled_new
  | revived _ _ _ hrun =>
    rw [Annals.trackers_start, ← hrun]
    exact Annals.settled_run (fun _ => ChangeTracker.settled_new) _
  | step _ deed ih =>
    cases deed with
    | ask op => exact settled_step ih op
    | register definitions =>
      rw [Manager.Deed.step]
      split <;> exact ih

theorem ready (h : chronicle.Reached) : ∃ base, chronicle.Ready base := by
  obtain ⟨base, hlegible⟩ := h.live.stands.legible h.live.legible
  exact ⟨base, h.live.stands.wellFormed, hlegible, h.live.trackers, h.settled⟩

end Chronicle.Reached

end PredicateIndex
