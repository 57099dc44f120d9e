import PredicateIndex.Proofs.Registration

/-!
# Registrations that fail

A registration fails on its definitions, before anything has happened, or at the
directory of the new group, after an id has been taken for it. Either way the
names and the groups stay as they are. The id is not given back: every attempt
that got as far as the directory moves the next group to a later id.
-/

set_option autoImplicit false

namespace PredicateIndex

theorem Store.dir_of_open {dir : Path} {config : Config} {disk other : Disk} {store : Store}
    (h : Store.open? dir config disk = (.ok store, other)) : store.dir = dir := by
  rw [Store.open?] at h
  split at h
  · cases h
  · split at h
    · cases h
    · split at h
      · cases h
      · rename_i opened last hopen
        cases h
        rw [Store.openLocked] at hopen
        split at hopen
        · cases hopen
        · split at hopen
          · cases hopen
          · dsimp only at hopen
            split at hopen
            · split at hopen
              · cases hopen
              · cases hopen
                rfl
            · cases hopen
              rfl

structure Attempt (D : Type) extends Definitions D where
  disk : Disk

namespace Attempt

variable {D : Type}

def names (attempt : Attempt D) : List String := attempt.predicates.map (·.1)

def group (attempt : Attempt D) : List (Predicate D) :=
  attempt.predicates.map fun definition => ⟨definition.1, attempt.type, definition.2⟩

def register (attempt : Attempt D) (manager : Manager D) :
    Except Fault (List (Handle attempt.type)) × Manager D × Disk :=
  manager.register attempt.type attempt.predicates attempt.disk

end Attempt

namespace Manager

variable {D : Type} {manager middle after last : Manager D} {attempt : Attempt D}
  {attempts : List (Attempt D)} {fault : Fault} {other : Disk}

def admits (manager : Manager D) (attempt : Attempt D) : Bool :=
  (manager.checkDefinitions attempt.type attempt.names).isOk

def openNext (manager : Manager D) (disk : Disk) : Except Fault Store × Disk :=
  Store.open? (manager.config.groupDir manager.nextGroup) manager.config disk

def skip (count : Nat) (manager : Manager D) : Manager D :=
  { manager with nextGroup := manager.nextGroup + count }

theorem admits_skip (count : Nat) : (manager.skip count).admits = manager.admits := rfl

theorem skip_skip (m n : Nat) : (manager.skip m).skip n = manager.skip (m + n) := by
  rw [skip, skip, skip, Nat.add_assoc]

theorem admits_of_ok (h : manager.checkDefinitions attempt.type attempt.names = .ok ()) :
    manager.admits attempt = true := by
  rw [admits, h]
  rfl

theorem not_admits_of_error
    (h : manager.checkDefinitions attempt.type attempt.names = .error fault) :
    manager.admits attempt = false := by
  rw [admits, h]
  rfl

theorem registers_attempt (manager : Manager D) (attempt : Attempt D) :
    Registers manager attempt.type attempt.predicates attempt.disk (attempt.register manager) :=
  registers manager attempt.type attempt.predicates attempt.disk

/-- A registration fails on the definitions, and nothing has changed, or at the directory. -/
theorem register_error (h : attempt.register manager = (.error fault, after, other)) :
    (manager.checkDefinitions attempt.type attempt.names = .error fault ∧ after = manager ∧
      other = attempt.disk) ∨
    (manager.admits attempt = true ∧ manager.openNext attempt.disk = (.error fault, other) ∧
      after = manager.skip 1) := by
  have hr := registers_attempt manager attempt
  rw [h] at hr
  cases hr with
  | refused hc => exact .inl ⟨hc, rfl, rfl⟩
  | unopened hc ho => exact .inr ⟨admits_of_ok hc, ho, rfl⟩

theorem register_admitted {handles : List (Handle attempt.type)}
    (h : attempt.register manager = (.ok handles, after, other)) :
    manager.admits attempt = true ∧ ∃ store, manager.openNext attempt.disk = (.ok store, other) ∧
      handles = Manager.handles attempt.type manager.nextGroup manager.identity 0 attempt.names ∧
      after.names = manager.names ++ attempt.names ∧
      after.groups = manager.groups ++ [⟨manager.nextGroup, attempt.group, store⟩] := by
  have hr := registers_attempt manager attempt
  rw [h] at hr
  cases hr with
  | opened hc ho => exact ⟨admits_of_ok hc, _, ho, rfl, rfl, rfl⟩

theorem nextGroup_of_admitted (ha : manager.admits attempt = true) :
    (attempt.register manager).2.1.nextGroup = manager.nextGroup + 1 := by
  have hr := registers_attempt manager attempt
  generalize attempt.register manager = registered at hr ⊢
  cases hr with
  | refused hc =>
    rw [not_admits_of_error hc] at ha
    cases ha
  | unopened | opened => rfl

/-- Attempts that all fail, one after another; between them anything may happen to the disk. -/
inductive Fails : Manager D → List (Attempt D) → Manager D → Prop
  | none (manager : Manager D) : Fails manager [] manager
  | next {manager middle after : Manager D} {attempt : Attempt D} {rest : List (Attempt D)}
      {fault : Fault} {other : Disk} :
      attempt.register manager = (.error fault, middle, other) → Fails middle rest after →
      Fails manager (attempt :: rest) after

namespace Fails

/-- Of all that the manager holds only the next id can have changed. -/
theorem eq_skip (h : Fails manager attempts after) :
    after = manager.skip (attempts.countP manager.admits) := by
  induction h with
  | none => rfl
  | @next manager middle after attempt rest fault other hregister _ ih =>
    rcases register_error hregister with ⟨hc, rfl, -⟩ | ⟨ha, -, rfl⟩
    · rw [ih, List.countP_cons_of_neg (Bool.eq_false_iff.mp (not_admits_of_error hc))]
    · rw [ih, admits_skip, skip_skip, List.countP_cons_of_pos ha, Nat.add_comm]

theorem split {front rest : List (Attempt D)} (h : Fails manager (front ++ rest) after) :
    ∃ middle, Fails manager front middle ∧ Fails middle rest after := by
  induction front generalizing manager with
  | nil => exact ⟨manager, .none manager, h⟩
  | cons attempt front ih =>
    cases h with
    | next hregister hrest =>
      obtain ⟨middle, hfront, hafter⟩ := ih hrest
      exact ⟨middle, .next hregister hfront, hafter⟩

theorem unopened {front rest : List (Attempt D)}
    (h : Fails manager (front ++ attempt :: rest) after) (ha : manager.admits attempt = true) :
    ∃ fault other, (manager.skip (front.countP manager.admits)).openNext attempt.disk =
      (.error fault, other) := by
  obtain ⟨middle, hfront, hrest⟩ := h.split
  obtain rfl := hfront.eq_skip
  cases hrest with
  | @next _ _ _ _ _ fault other hregister _ =>
    rcases register_error hregister with ⟨hc, -, -⟩ | ⟨-, ho, -⟩
    · rw [← admits_skip, not_admits_of_error hc] at ha
      cases ha
    · exact ⟨fault, other, ho⟩

end Fails

/-- After registrations that failed, the names and the groups are what they were. The next
registration that succeeds takes as many ids further on as there were failures at a directory, and
it is as if there had been no attempt just when all of them failed on their definitions. -/
theorem register_of_failed (h : Fails manager attempts after) :
    after.names = manager.names ∧ after.groups = manager.groups ∧
      after.config = manager.config ∧ after.identity = manager.identity ∧
      after.lastToken = manager.lastToken ∧
    (∀ front attempt rest, attempts = front ++ attempt :: rest → manager.admits attempt = true →
      ∃ fault other, Store.open?
        (manager.config.groupDir (manager.nextGroup + front.countP manager.admits))
        manager.config attempt.disk = (.error fault, other)) ∧
    (∀ (next : Attempt D) handles last other, next.register after = (.ok handles, last, other) →
      ∃ group, last.names = manager.names ++ next.names ∧ last.groups = manager.groups ++ [group] ∧
        group.id = manager.nextGroup + attempts.countP manager.admits ∧
        group.store.dir = manager.config.groupDir group.id ∧
        handles = Manager.handles next.type group.id manager.identity 0 next.names) ∧
    ((∀ next : Attempt D, next.register after = next.register manager) ↔
      ∀ attempt ∈ attempts, manager.admits attempt = false) := by
  have hskip := h.eq_skip
  refine ⟨by rw [hskip, skip], by rw [hskip, skip], by rw [hskip, skip], by rw [hskip, skip],
    by rw [hskip, skip], ?_, ?_, ?_⟩
  · intro front attempt rest he ha
    subst he
    exact h.unopened ha
  · intro next handles last other hnext
    rw [hskip] at hnext
    obtain ⟨-, store, hopen, rfl, hnames, hgroups⟩ := register_admitted hnext
    exact ⟨_, hnames, hgroups, rfl, Store.dir_of_open hopen, rfl⟩
  · constructor
    · intro hsame attempt hm
      cases ha : manager.admits attempt with
      | false => rfl
      | true =>
        -- the two managers differ in the id that such an attempt takes
        have hskipped : ((attempt.register after).2.1).nextGroup = after.nextGroup + 1 :=
          nextGroup_of_admitted (by rw [h.eq_skip, admits_skip]; exact ha)
        rw [hsame attempt, nextGroup_of_admitted ha, h.eq_skip, skip] at hskipped
        have hpos : 0 < attempts.countP manager.admits := List.countP_pos_iff.mpr ⟨attempt, hm, ha⟩
        dsimp only at hskipped
        omega
    · intro hnone next
      have hzero : attempts.countP manager.admits = 0 :=
        List.countP_eq_zero.mpr fun attempt hm => Bool.eq_false_iff.mp (hnone attempt hm)
      rw [hskip, hzero]
      rfl

def evenAttempt (disk : Disk) : Attempt Nat where
  type := .bool
  predicates := [("even", fun n => some (n % 2 == 0))]
  disk := disk

def badHeader : Disk where
  entries := [(["db", "group-0", "log.dat"], .file 0), (["db", "group-0"], .directory),
    (["db"], .directory)]
  files := [List.replicate 64 0]

def emptyRoot : Disk := { entries := [(["db"], .directory)] }

def unregistered : Manager Nat := { config := { dir := ["db"] }, identity := 0 }

def emptyBatch : Attempt Nat := { type := .bool, predicates := [], disk := emptyRoot }

def twoFailures : Bool :=
  match emptyBatch.register unregistered with
  | (.error _, second, _) =>
    match (evenAttempt badHeader).register second with
    | (.error _, third, _) =>
      unregistered.admits (evenAttempt badHeader) && !unregistered.admits emptyBatch &&
        ((evenAttempt emptyRoot).register third).1.isOk
    | (.ok _, _, _) => false
  | (.ok _, _, _) => false

theorem register_of_two_failures : ∃ (after last : Manager Nat) (other : Disk)
    (handles : List (Handle .bool)),
    Fails unregistered [emptyBatch, evenAttempt badHeader] after ∧
      (evenAttempt emptyRoot).register after = (.ok handles, last, other) ∧
      after.names = unregistered.names ∧ after.groups = unregistered.groups ∧
      ∃ group, last.groups = [group] ∧ group.id = 1 ∧
        group.store.dir = unregistered.config.groupDir 1 ∧
        handles = Manager.handles .bool 1 unregistered.identity 0 ["even"] := by
  have hfacts : twoFailures = true := by decide +kernel
  unfold twoFailures at hfacts
  split at hfacts
  · rename_i second _ hfirst
    split at hfacts
    · rename_i third _ hsecond
      simp only [Bool.and_eq_true, Bool.not_eq_true'] at hfacts
      obtain ⟨⟨hadmits, hrefused⟩, hok⟩ := hfacts
      rcases hnext : (evenAttempt emptyRoot).register third with ⟨fault | handles, last, other⟩
      · rw [hnext] at hok
        cases hok
      · have hfails := Fails.next hfirst (Fails.next hsecond (.none third))
        obtain ⟨hnames, hgroups, -, -, -, -, hregister, -⟩ := register_of_failed hfails
        obtain ⟨group, -, hadded, hid, hdir, hhandles⟩ := hregister _ _ _ _ hnext
        rw [List.countP_cons_of_neg (by rw [hrefused]; decide), List.countP_cons_of_pos hadmits]
          at hid
        have hone : group.id = 1 := hid
        rw [hone] at hdir hhandles
        exact ⟨third, last, other, handles, hfails, hnext, hnames, hgroups, group, hadded, hone,
          hdir, hhandles⟩
    · cases hfacts
  · cases hfacts

def groupOf {α : Type} {type : KeyType} (outcome : Except Fault (List (Handle type)) × α) :
    Option Nat :=
  match outcome.1 with
  | .ok (handle :: _) => some handle.group
  | _ => none

/-- The attempt that met the bad header has left a trace: the next group is not the first. -/
theorem register_after_bad_header : ¬ ∀ (manager after : Manager Nat) (attempt next : Attempt Nat)
    (fault : Fault) (other : Disk), attempt.register manager = (.error fault, after, other) →
    groupOf (next.register after) = groupOf (next.register manager) := by
  intro h
  rcases hfirst : (evenAttempt badHeader).register unregistered with ⟨fault | handles, after, other⟩
  · have hsame := h _ _ _ (evenAttempt emptyRoot) _ _ hfirst
    have hafter : after = ((evenAttempt badHeader).register unregistered).2.1 := by rw [hfirst]
    rw [hafter] at hsame
    exact absurd hsame (by decide +kernel)
  · have hfails : ((evenAttempt badHeader).register unregistered).1.isOk = false := by
      decide +kernel
    rw [hfirst] at hfails
    cases hfails

end Manager

end PredicateIndex
