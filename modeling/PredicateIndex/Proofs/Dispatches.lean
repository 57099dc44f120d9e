import PredicateIndex.Proofs.AppendedRecords
import PredicateIndex.Proofs.TrackerCalls

/-!
# What a request comes to

What a group writes for a request depends on its predicates and on what the
tracker tells it, and on nothing that its store holds. The request goes through
the groups until one of them is not told enough, or would have to write while it
awaits recovery. So the writes of all groups are known beforehand. A tracker that
has been taken through groups tells them the same again.
-/

set_option autoImplicit false

namespace PredicateIndex

variable {D : Type}

namespace ChangeTracker

structure Settled (tracker : ChangeTracker D) : Prop where
  through : tracker.before.isSome → tracker.capturedThrough.isSome
  blank : tracker.before = none →
    tracker.capturedThrough = none ∧ ∀ group, tracker.groupKeys? group = none

structure Alike (tracker other : ChangeTracker D) : Prop where
  before : other.before = tracker.before
  after : other.after = tracker.after
  kind : other.kind = tracker.kind
  capturedThrough : other.capturedThrough = tracker.capturedThrough
  keys : ∀ group, other.beforeKeys? group = tracker.beforeKeys? group

variable {tracker other last : ChangeTracker D}

theorem settled_new : ({} : ChangeTracker D).Settled := ⟨nofun, fun _ => ⟨rfl, fun _ => rfl⟩⟩

theorem Settled.setKind (h : tracker.Settled) (kind : UpdateKind) :
    (tracker.setKind kind).Settled := ⟨h.through, h.blank⟩

theorem Settled.setAfter (h : tracker.Settled) (data : D) (id : RecordId) :
    (tracker.setAfter data id).Settled := ⟨h.through, h.blank⟩

theorem Settled.setAfterKeys (h : tracker.Settled) (hb : tracker.before.isSome) (group : Nat)
    (after : CompositeKey) (hasChanges : Bool) :
    (tracker.setAfterKeys group after hasChanges).Settled := by
  refine ⟨h.through, fun hn => ?_⟩
  have hnone : tracker.before = none := hn
  rw [hnone] at hb
  cases hb

theorem settled_setBefore (manager : Manager D) (data : D) (id : RecordId)
    (tracker : ChangeTracker D) : (manager.setBefore data id tracker).Settled := by
  rw [Manager.setBefore_eq]
  exact ⟨fun _ => rfl, nofun⟩

namespace Alike

theorem refl (tracker : ChangeTracker D) : tracker.Alike tracker :=
  ⟨rfl, rfl, rfl, rfl, fun _ => rfl⟩

theorem symm (h : tracker.Alike other) : other.Alike tracker :=
  ⟨h.before.symm, h.after.symm, h.kind.symm, h.capturedThrough.symm, fun group => (h.keys group).symm⟩

theorem trans (h : tracker.Alike other) (hl : other.Alike last) : tracker.Alike last :=
  ⟨hl.before.trans h.before, hl.after.trans h.after, hl.kind.trans h.kind,
    hl.capturedThrough.trans h.capturedThrough, fun group => (hl.keys group).trans (h.keys group)⟩

theorem setKind (h : tracker.Alike other) (kind : UpdateKind) :
    (tracker.setKind kind).Alike (other.setKind kind) :=
  ⟨h.before, h.after, rfl, h.capturedThrough, h.keys⟩

theorem beforeId (h : tracker.Alike other) : other.beforeId = tracker.beforeId := by
  rw [ChangeTracker.beforeId, ChangeTracker.beforeId, h.before]

theorem afterId (h : tracker.Alike other) : other.afterId = tracker.afterId := by
  rw [ChangeTracker.afterId, ChangeTracker.afterId, h.after]

end Alike

theorem alike_setAfterKeys {group : Nat} {known : BeforeKeys}
    (h : tracker.beforeKeys? group = some known) (after : CompositeKey) (hasChanges : Bool) :
    tracker.Alike (tracker.setAfterKeys group after hasChanges) := by
  refine ⟨rfl, rfl, rfl, rfl, fun id => ?_⟩
  by_cases hid : id = group
  · subst hid
    rw [h, setAfterKeys, beforeKeys?, groupKeys?_setGroup, if_pos rfl]
    rw [beforeKeys?] at h
    cases hk : tracker.groupKeys? id with
    | some keys =>
      rw [hk] at h
      exact h
    | none =>
      -- without an entry the group can only be one that came later
      rw [hk] at h
      dsimp only at h
      repeat' split at h
      all_goals cases h
      rfl
  · rw [setAfterKeys, beforeKeys?, beforeKeys?, groupKeys?_setGroup, if_neg hid]
    rfl

end ChangeTracker

namespace Request

variable {request : Request D} {group changed : Group D} {tracker other last : ChangeTracker D}
  {writes : List IndexWrite}

def part (request : Request D) (group : Group D) (tracker : ChangeTracker D) :
    Except Fault (List IndexWrite × ChangeTracker D) :=
  match request with
  | .insert data id => .ok (UpdatePlan.matching [⟨group.evaluate data, id, false⟩], tracker)
  | .update _ =>
    match tracker.before, tracker.after with
    | none, _ => .error .noBeforeData
    | _, none => .error .noAfterData
    | some _, some (data, _) =>
      match group.plan (group.evaluate data) tracker with
      | .error fault => .error fault
      | .ok plan => .ok (plan.writes, tracker.setAfterKeys group.id plan.after plan.hasChanges)
  | .delete _ =>
    match tracker.before with
    | none => .error .noBeforeData
    | some _ =>
      match tracker.beforeKeys? group.id with
      | none => .error (.beforeKeysNotCaptured group.id)
      | some (.captured before) => .ok ([⟨before, tracker.beforeId, true⟩], tracker)
      | some .noMatch | some .missing => .ok ([], tracker)

theorem work_eq (request : Request D) (group : Group D) (hs : tracker.Settled) (disk : Disk) :
    request.work group (tracker, disk) =
      match request.part group tracker with
      | .error fault => (.error fault, group, tracker, disk)
      | .ok (writes, last) =>
        match Group.putAll writes group disk with
        | (.error fault, group, disk) => (.error fault, group, tracker, disk)
        | (.ok (), group, disk) => (.ok (), group, last, disk) := by
  have hcapture : group.captureBefore tracker =
      if tracker.before.isSome then .ok tracker else .error .noBeforeData := by
    cases hb : tracker.before with
    | none =>
      obtain ⟨hthrough, hentries⟩ := hs.blank hb
      rw [Group.captureBefore, ChangeTracker.needsBefore, hthrough, hentries, hb]
      rfl
    | some old =>
      rw [Group.captureBefore, ChangeTracker.needsBefore_through (hs.through (by rw [hb]; rfl))]
      rfl
  cases request with
  | insert data id =>
    rw [work, Group.insert, part]
    dsimp only
    rcases Group.putAll (UpdatePlan.matching [⟨group.evaluate data, id, false⟩]) group disk with
      ⟨fault | _, changed, other⟩ <;> rfl
  | update given =>
    rw [work, Group.update, hcapture, part]
    cases hb : tracker.before with
    | none => rfl
    | some old =>
      cases ha : tracker.after with
      | none => simp [ha]
      | some new =>
        simp only [Option.isSome_some, if_true, ha, Group.applyAfter]
        cases hp : group.plan (group.evaluate new.1) tracker with
        | error fault => rfl
        | ok plan =>
          have hid := Group.id_putAll plan.writes group disk
          rcases hput : Group.putAll plan.writes group disk with ⟨fault | _, changed, other⟩ <;>
            rw [hput] at hid <;> simp only [hput]
          rw [show changed.id = group.id from hid]
  | delete given =>
    rw [work, Group.delete, hcapture, part]
    cases hb : tracker.before with
    | none => rfl
    | some old =>
      simp only [Option.isSome_some, if_true]
      cases hk : tracker.beforeKeys? group.id with
      | none => rfl
      | some known =>
        cases known with
        | captured before =>
          dsimp only
          rw [Group.putAll]
          rcases group.put ⟨before, tracker.beforeId, true⟩ disk with ⟨fault | _, changed, other⟩ <;>
            rfl
        | noMatch => rfl
        | missing => rfl

theorem alike_part (h : request.part group tracker = .ok (writes, last)) : tracker.Alike last := by
  cases request with
  | insert data id =>
    cases h
    exact .refl tracker
  | update given =>
    rw [part] at h
    repeat' split at h
    all_goals cases h
    rename_i plan hp
    cases hk : tracker.beforeKeys? group.id with
    | none =>
      rw [Group.plan, hk] at hp
      cases hp
    | some known => exact ChangeTracker.alike_setAfterKeys hk _ _
  | delete given =>
    rw [part] at h
    repeat' split at h
    all_goals cases h
    all_goals exact .refl tracker

theorem part_alike (request : Request D) (group : Group D) (h : tracker.Alike other) :
    (request.part group other).map Prod.fst = (request.part group tracker).map Prod.fst := by
  have hplan : ∀ after, group.plan after other = group.plan after tracker := fun after => by
    rw [Group.plan, Group.plan, h.keys, h.beforeId, h.afterId, h.kind]
  cases request with
  | insert data id => rfl
  | update given =>
    rw [part, part, h.before, h.after]
    cases tracker.before with
    | none => rfl
    | some old =>
      cases tracker.after with
      | none => rfl
      | some new =>
        dsimp only
        rw [hplan]
        cases group.plan (group.evaluate new.1) tracker <;> rfl
  | delete given =>
    rw [part, part, h.before, h.keys, h.beforeId]
    cases tracker.before with
    | none => rfl
    | some old =>
      cases tracker.beforeKeys? group.id with
      | none => rfl
      | some known => cases known <;> rfl

theorem part_congr (request : Request D) (tracker : ChangeTracker D) (hid : changed.id = group.id)
    (hp : changed.predicates = group.predicates) :
    request.part changed tracker = request.part group tracker := by
  have hevaluate : ∀ data, changed.evaluate data = group.evaluate data := fun data => by
    rw [Group.evaluate, Group.evaluate, hp]
  have hplan : ∀ after, changed.plan after tracker = group.plan after tracker := fun after => by
    rw [Group.plan, Group.plan, hid, Group.size, Group.size, hp]
  cases request <;> simp only [part, hevaluate, hplan, hid]

theorem settled_part (hs : tracker.Settled) (h : request.part group tracker = .ok (writes, last)) :
    last.Settled := by
  cases request with
  | insert data id =>
    cases h
    exact hs
  | update given =>
    rw [part] at h
    cases hb : tracker.before with
    | none =>
      rw [hb] at h
      cases h
    | some old =>
      repeat' split at h
      all_goals cases h
      exact hs.setAfterKeys (by rw [hb]; rfl) _ _ _
  | delete given =>
    rw [part] at h
    repeat' split at h
    all_goals cases h
    all_goals exact hs

theorem fits_part (hs : Sized group.predicates) (ht : tracker.Fits)
    (h : request.part group tracker = .ok (writes, last)) :
    (∀ write ∈ writes, write.Fits) ∧ last.Fits := by
  cases request with
  | insert data id =>
    cases h
    refine ⟨fun write hw => ?_, ht⟩
    rw [List.mem_singleton.mp (List.mem_filter.mp hw).1]
    exact hs.write data id false
  | update given =>
    rw [part] at h
    repeat' split at h
    all_goals cases h
    rename_i plan hp
    exact ⟨Group.Runs.plan hs ht hp, ht.setAfterKeys _ _ _⟩
  | delete given =>
    rw [part] at h
    repeat' split at h
    all_goals cases h
    · rename_i before hk
      refine ⟨fun write hw => ?_, ht⟩
      rw [List.mem_singleton.mp hw]
      exact ht.captured hk
    · exact ⟨by simp, ht⟩
    · exact ⟨by simp, ht⟩

def effect (request : Request D) (group : Group D) (tracker : ChangeTracker D) :
    Option (List IndexWrite × ChangeTracker D) :=
  match request.part group tracker with
  | .error _ => none
  | .ok (writes, last) =>
    if group.store.awaitingRecovery && !writes.isEmpty then none else some (writes, last)

theorem part_of_effect (h : request.effect group tracker = some (writes, last)) :
    request.part group tracker = .ok (writes, last) ∧
      (group.store.awaitingRecovery = true → writes = []) := by
  rw [effect] at h
  cases hp : request.part group tracker with
  | error fault =>
    rw [hp] at h
    cases h
  | ok told =>
    rw [hp] at h
    dsimp only at h
    split at h
    · cases h
    · rename_i hgoes
      cases h
      refine ⟨rfl, fun hr => ?_⟩
      simpa [hr] using hgoes

/-- Trackers that mean the same have a request stop at the same groups. -/
theorem effect_alike (request : Request D) (group : Group D) (h : tracker.Alike other) :
    (request.effect group other).map Prod.fst = (request.effect group tracker).map Prod.fst := by
  have hpart := part_alike request group h
  rw [effect, effect]
  rcases hp : request.part group tracker with fault | ⟨writes, last⟩ <;>
    rcases ho : request.part group other with cause | ⟨others, final⟩ <;> rw [hp, ho] at hpart <;>
    cases hpart
  dsimp only
  split <;> rfl

theorem effect_congr (request : Request D) (tracker : ChangeTracker D)
    (hid : changed.id = group.id) (hp : changed.predicates = group.predicates)
    (hr : changed.store.awaitingRecovery = group.store.awaitingRecovery) :
    request.effect changed tracker = request.effect group tracker := by
  rw [effect, effect, part_congr request tracker hid hp, hr]

section

variable {place : Path} {disk : Disk}

theorem work_goes (hl : group.Legible place disk) (ht : tracker.Fits) (hs : tracker.Settled)
    (h : request.effect group tracker = some (writes, last)) : ∃ after next,
      request.work group (tracker, disk) = (.ok (), after, last, next) ∧
        group.Appends place disk writes after next ∧
        Disk.Spares (Store.Outside place) disk next := by
  obtain ⟨hpart, hawaits⟩ := part_of_effect h
  obtain ⟨after, next, hput, happends, hspares⟩ : ∃ after next,
      Group.putAll writes group disk = (.ok (), after, next) ∧
        group.Appends place disk writes after next ∧
        Disk.Spares (Store.Outside place) disk next := by
    cases hr : group.store.awaitingRecovery with
    | false => exact Group.Appends.putAll hl hr (fits_part hl.sized ht hpart).1
    | true =>
      obtain rfl := hawaits hr
      obtain ⟨history, hk, -⟩ := hl.records
      exact ⟨group, disk, rfl, .refl group place disk, .refl hk.wellFormed⟩
  refine ⟨after, next, ?_, happends, hspares⟩
  rw [work_eq request group hs, hpart]
  simp only [hput]

theorem work_stops (hl : group.Legible place disk) (hs : tracker.Settled)
    (h : request.effect group tracker = none) : ∃ fault after,
      request.work group (tracker, disk) = (.error fault, after, tracker, disk) ∧
        group.Appends place disk [] after disk := by
  obtain ⟨history, hk, -⟩ := hl.records
  rw [effect] at h
  rw [work_eq request group hs]
  rcases hp : request.part group tracker with fault | ⟨writes, last⟩
  · exact ⟨fault, group, rfl, .refl group place disk⟩
  · rw [hp] at h
    dsimp only at h ⊢
    split at h
    · rename_i hstops
      rw [Bool.and_eq_true] at hstops
      cases writes with
      | nil => cases hstops.2
      | cons write rest =>
        obtain ⟨sessions, hput⟩ :=
          Store.put_awaiting hstops.1 write.key write.id write.tombstone disk
        have hspares : Disk.Spares (fun _ => True) disk disk := .refl hk.wellFormed
        refine ⟨.awaitingRecovery group.store.dir, { group with store := { group.store with sessions } },
          ?_, .ofSessions group sessions hspares trivial⟩
        rw [Group.putAll, Group.put, hput]
    · cases h

end

/-- What a request comes to when it goes through groups: the writes of each of them, by its id, and
the tracker after the last one that it has reached. -/
def spread (request : Request D) :
    List (Group D) → ChangeTracker D → (Nat → List IndexWrite) × ChangeTracker D
  | [], tracker => (fun _ => [], tracker)
  | group :: rest, tracker =>
    match request.effect group tracker with
    | none => (fun _ => [], tracker)
    | some (writes, last) =>
      (fun id => if id = group.id then writes else (request.spread rest last).1 id,
        (request.spread rest last).2)

theorem spread_of_not_mem (request : Request D) {groups : List (Group D)} {id : Nat}
    (h : id ∉ groups.map Group.id) (tracker : ChangeTracker D) :
    (request.spread groups tracker).1 id = [] := by
  induction groups generalizing tracker with
  | nil => rfl
  | cons group rest ih =>
    rw [List.map_cons, List.mem_cons, not_or] at h
    rw [spread]
    rcases request.effect group tracker with _ | ⟨writes, last⟩
    · rfl
    · exact (if_neg h.1).trans (ih h.2 last)

theorem spread_keeps (request : Request D) {kept : ChangeTracker D → Prop} {groups : List (Group D)}
    (hp : ∀ group ∈ groups, ∀ tracker writes last,
      request.part group tracker = .ok (writes, last) → kept tracker → kept last)
    (h : kept tracker) : kept (request.spread groups tracker).2 := by
  induction groups generalizing tracker with
  | nil => exact h
  | cons group rest ih =>
    rw [spread]
    rcases he : request.effect group tracker with _ | ⟨writes, last⟩
    · exact h
    · exact ih (fun other ho => hp other (List.mem_cons_of_mem group ho))
        (hp group List.mem_cons_self tracker writes last (part_of_effect he).1 h)

theorem alike_spread (request : Request D) (groups : List (Group D)) (tracker : ChangeTracker D) :
    tracker.Alike (request.spread groups tracker).2 :=
  request.spread_keeps (fun _ _ _ _ _ hp h => h.trans (alike_part hp)) (.refl tracker)

theorem spread_alike (request : Request D) (groups : List (Group D)) (h : tracker.Alike other) :
    (request.spread groups other).1 = (request.spread groups tracker).1 := by
  induction groups generalizing tracker other with
  | nil => rfl
  | cons group rest ih =>
    have heffect := effect_alike request group h
    rw [spread, spread]
    rcases ht : request.effect group tracker with _ | ⟨writes, last⟩ <;>
      rcases ho : request.effect group other with _ | ⟨others, final⟩ <;> rw [ht, ho] at heffect <;>
      cases heffect
    have hlast : last.Alike final := (alike_part (part_of_effect ht).1).symm.trans
      (h.trans (alike_part (part_of_effect ho).1))
    dsimp only
    rw [ih hlast]

/-- The first of the groups write what they write when the request goes on to all of them. -/
theorem spread_take (request : Request D) (groups : List (Group D)) (n : Nat)
    (tracker : ChangeTracker D) (id : Nat) :
    (request.spread (groups.take n) tracker).1 id = [] ∨
      (request.spread (groups.take n) tracker).1 id = (request.spread groups tracker).1 id := by
  induction groups generalizing n tracker with
  | nil =>
    rw [List.take_nil]
    exact .inl rfl
  | cons group rest ih =>
    cases n with
    | zero => exact .inl rfl
    | succ n =>
      rw [List.take_succ_cons, spread, spread]
      rcases request.effect group tracker with _ | ⟨writes, last⟩
      · exact .inl rfl
      · dsimp only
        split
        · exact .inr rfl
        · exact ih n last

theorem settled_spread (request : Request D) (groups : List (Group D)) (h : tracker.Settled) :
    (request.spread groups tracker).2.Settled :=
  request.spread_keeps (fun _ _ _ _ _ hp hs => settled_part hs hp) h

theorem fits_spread (request : Request D) {groups : List (Group D)}
    (hs : ∀ group ∈ groups, Sized group.predicates) (h : tracker.Fits) :
    (request.spread groups tracker).2.Fits :=
  request.spread_keeps (fun group hg _ _ _ hp ht => (fits_part (hs group hg) ht hp).2) h

end Request

namespace Manager

theorem settled_onEach (request : Request D) (groups : List (Group D)) {tracker : ChangeTracker D}
    (h : tracker.Settled) (disk : Disk) :
    (onEach request.work groups (tracker, disk)).2.2.1.Settled := by
  induction groups generalizing tracker disk with
  | nil => exact h
  | cons group rest ih =>
    rw [onEach, Request.work_eq request group h]
    rcases hp : request.part group tracker with fault | ⟨writes, last⟩
    · exact h
    · dsimp only
      rcases Group.putAll writes group disk with ⟨fault | _, after, other⟩
      · exact h
      · exact ih (Request.settled_part h hp) other

def Appends (groups : List (Group D)) (base : Path) (disk : Disk) (writes : Nat → List IndexWrite)
    (changed : List (Group D)) (other : Disk) : Prop :=
  List.Forall₂ (fun group after =>
    group.Appends (groupPlace base group.id) disk (writes group.id) after other) groups changed

/-- A request that goes through groups has each of them append what it comes to there. -/
theorem onEach_spread (request : Request D) {base : Path} {groups : List (Group D)}
    {tracker : ChangeTracker D} {disk : Disk} (hw : disk.WellFormed)
    (hd : groups.Pairwise fun g h => g.id ≠ h.id)
    (hl : ∀ group ∈ groups, group.Legible (groupPlace base group.id) disk) (ht : tracker.Fits)
    (hs : tracker.Settled) : ∃ result changed other,
      onEach request.work groups (tracker, disk) =
        (result, changed, (request.spread groups tracker).2, other) ∧
      Appends groups base disk (request.spread groups tracker).1 changed other ∧
      Disk.Spares (fun path => ∀ group ∈ groups, Store.Outside (groupPlace base group.id) path) disk
        other := by
  induction groups generalizing tracker disk with
  | nil => exact ⟨.ok (), [], disk, rfl, .nil, .refl hw⟩
  | cons group rest ih =>
    obtain ⟨hgroup, hrest⟩ := List.pairwise_cons.mp hd
    have hfirst := hl group List.mem_cons_self
    have hnot : ∀ other ∈ rest, other.id ≠ group.id := fun other ho he => hgroup other ho he.symm
    rw [onEach, Request.spread]
    rcases he : request.effect group tracker with _ | ⟨writes, last⟩
    · obtain ⟨fault, after, hwork, happends⟩ := Request.work_stops hfirst hs he
      refine ⟨.error fault, after :: rest, disk, ?_, .cons happends ?_, .refl hw⟩
      · rw [hwork]
      · exact List.forall₂_same.mpr fun other _ => .refl other _ disk
    · obtain ⟨after, middle, hwork, happends, hspares⟩ := Request.work_goes hfirst ht hs he
      have hpart := (Request.part_of_effect he).1
      obtain ⟨result, changed, final, hothers, hafter, hlater⟩ := ih hspares.wellFormed hrest
        (fun other ho => (hl other (List.mem_cons_of_mem group ho)).frame hspares
          (outside_of_ne base (hnot other ho)))
        (Request.fits_part hfirst.sized ht hpart).2 (Request.settled_part hs hpart)
      dsimp only
      refine ⟨result, after :: changed, final, ?_, .cons ?_ ?_, ?_⟩
      · rw [hwork]
        simp only [hothers]
      · have hframed := happends.frame hlater fun other ho => outside_of_ne base (hgroup other ho)
        dsimp only
        rwa [if_pos rfl]
      · -- what the first group does is not seen by the others
        have hothers := (List.forall₂_and_left rest changed).mpr ⟨hnot, hafter⟩
        refine hothers.imp fun other kept hpair => ?_
        dsimp only
        rw [if_neg hpair.1, ← List.nil_append ((request.spread rest last).1 other.id)]
        exact (Group.Appends.ofSessions other other.store.sessions hspares
          (outside_of_ne base hpair.1)).trans hpair.2
      · exact (hspares.weaken fun path hp => hp group List.mem_cons_self).trans
          (hlater.weaken fun path hp other ho => hp other (List.mem_cons_of_mem group ho))

end Manager

end PredicateIndex
