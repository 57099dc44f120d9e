import PredicateIndex.Proofs.MutationEffects

/-!
# Trackers that are told snapshots in any order

A tracker computes the kind of its update when it is told the record after it,
from the record before it that it knows at that moment. A snapshot of the record
before that is told later replaces everything that was captured for the one
before, but not the kind. So the kind fits the last two snapshots just if the
earlier one would have led to the same kind, which it does whenever the record
after the update is told last. Then the tracker carries one update from the last
snapshot before to the last one after it, whatever it was told earlier.
-/

set_option autoImplicit false

namespace PredicateIndex

variable {D : Type}

/-- What a tracker has been told: the last snapshots, and the one before the update that was known
when the one after it was told. -/
structure Told (D : Type) where
  before : Option (D × RecordId) := none
  after : Option (D × RecordId) := none
  compared : Option (D × RecordId) := none

def kindOf (known : Option (D × RecordId)) (id : RecordId) : UpdateKind :=
  match known with
  | none => .insert
  | some record => if id = record.2 then .inPlace else .copy

namespace Told

def kind (told : Told D) : UpdateKind :=
  match told.after with
  | none => .insert
  | some record => kindOf told.compared record.2

def hear (name : Nat) (told : Told D) : Manager.Deed D → Told D
  | .ask (.setBefore tracker data id) =>
    if tracker = name then { told with before := some (data, id) } else told
  | .ask (.setAfter tracker data id) =>
    if tracker = name then { told with after := some (data, id), compared := told.before } else told
  | _ => told

def all (name : Nat) (deeds : List (Manager.Deed D)) : Told D := deeds.foldl (hear name) {}

end Told

def Manager.Deed.onlyTells (name : Nat) : Manager.Deed D → Bool
  | .ask (.newTracker tracker) | .ask (.update tracker) | .ask (.delete tracker)
  | .ask (.upsert _ _ (some tracker)) => tracker != name
  | _ => true

def Manager.Deed.tellsBefore (name : Nat) : Manager.Deed D → Bool
  | .ask (.setBefore tracker _ _) => tracker == name
  | _ => false

structure ChangeTracker.Heard (tracker : ChangeTracker D) (told : Told D) : Prop where
  before : tracker.before = told.before
  after : tracker.after = told.after
  kind : tracker.kind = told.kind

structure ChangeTracker.SameKeys (tracker other : ChangeTracker D) : Prop where
  groups : tracker.groups = other.groups
  capturedThrough : tracker.capturedThrough = other.capturedThrough

theorem ChangeTracker.SameKeys.knows {tracker other : ChangeTracker D}
    (h : tracker.SameKeys other) {group : Nat} {known : Bool} {key : CompositeKey}
    (hk : other.Knows group known key) : tracker.Knows group known key where
  through := h.capturedThrough ▸ hk.through
  keys := by
    rw [← hk.keys, beforeKeys?, beforeKeys?, groupKeys?, groupKeys?, h.groups, h.capturedThrough]

namespace Manager

/-- Starting over from a record changes neither the record after the update nor the kind, and leaves
of the captured keys only those of the record. -/
theorem setBefore_eq (manager : Manager D) (data : D) (id : RecordId) (tracker : ChangeTracker D) :
    manager.setBefore data id tracker =
      { manager.beginUpdate data id with
        before := some (data, id), after := tracker.after, kind := tracker.kind } := by
  have hfold : ∀ (groups : List (Group D)) (tracker : ChangeTracker D)
      (before after : Option (D × RecordId)) (kind : UpdateKind),
      groups.foldl (fun tracker group => tracker.setBeforeKeys group.id (group.evaluate data))
          { tracker with before, after, kind } =
        { groups.foldl (fun tracker group => tracker.setBeforeKeys group.id (group.evaluate data))
          tracker with before, after, kind } := by
    intro groups
    induction groups with
    | nil => exact fun _ _ _ _ => rfl
    | cons group rest ih =>
      exact fun tracker before after kind =>
        ih (tracker.setBeforeKeys group.id (group.evaluate data)) before after kind
  exact congrArg (ChangeTracker.markCaptured manager.groupBound)
    (hfold manager.groups (ChangeTracker.setBefore data id {}) _ tracker.after tracker.kind)

end Manager

namespace Chronicle

@[simp] theorem trackers_setTracker (chronicle : Chronicle D) (name : Nat)
    (tracker : ChangeTracker D) : (chronicle.setTracker name tracker).trackers name = tracker :=
  if_pos rfl

theorem trackers_setTracker_of_ne {name other : Nat} (h : other ≠ name) (chronicle : Chronicle D)
    (tracker : ChangeTracker D) :
    (chronicle.setTracker other tracker).trackers name = chronicle.trackers name :=
  if_neg (Ne.symm h)

end Chronicle

namespace Manager.Deed

variable {name : Nat}

theorem run_append (before later : List (Deed D)) (chronicle : Chronicle D) :
    (run (before ++ later) chronicle).2 = (run later (run before chronicle).2).2 := by
  induction before generalizing chronicle with
  | nil => rfl
  | cons deed rest ih => exact ih (step deed chronicle).2

theorem tells_cases (name : Nat) (deed : Deed D) :
    (∃ data id, deed = .ask (.setBefore name data id)) ∨
    (∃ data id, deed = .ask (.setAfter name data id)) ∨
    (∀ told : Told D, told.hear name deed = told) ∧ deed.tellsBefore name = false ∧
      ∀ data id, deed ≠ .ask (.setAfter name data id) := by
  rcases deed with op | definitions
  · cases op with
    | setBefore tracker data id =>
      by_cases hn : tracker = name
      · exact .inl ⟨data, id, by rw [hn]⟩
      · exact .inr (.inr ⟨fun _ => if_neg hn, beq_eq_false_iff_ne.mpr hn, by simp⟩)
    | setAfter tracker data id =>
      by_cases hn : tracker = name
      · exact .inr (.inl ⟨data, id, by rw [hn]⟩)
      · exact .inr (.inr ⟨fun _ => if_neg hn, rfl, by simp [hn]⟩)
    | _ => exact .inr (.inr ⟨fun _ => rfl, rfl, by simp⟩)
  · exact .inr (.inr ⟨fun _ => rfl, rfl, by simp⟩)

theorem trackers_step {deed : Deed D} (h : deed.onlyTells name = true)
    (hb : deed.tellsBefore name = false) (ha : ∀ data id, deed ≠ .ask (.setAfter name data id))
    (chronicle : Chronicle D) :
    (step deed chronicle).2.trackers name = chronicle.trackers name := by
  cases deed with
  | register definitions =>
    rw [step]
    split <;> rfl
  | ask op =>
    cases op with
    | setBefore tracker data id =>
      exact Chronicle.trackers_setTracker_of_ne (beq_eq_false_iff_ne.mp hb) ..
    | setAfter tracker data id =>
      refine Chronicle.trackers_setTracker_of_ne (fun hn => ha data id ?_) ..
      rw [hn]
    | newTracker tracker => exact Chronicle.trackers_setTracker_of_ne (bne_iff_ne.mp h) ..
    | update tracker => exact Chronicle.trackers_setTracker_of_ne (bne_iff_ne.mp h) ..
    | delete tracker => exact Chronicle.trackers_setTracker_of_ne (bne_iff_ne.mp h) ..
    | upsert data id tracker =>
      cases tracker with
      | none => rfl
      | some tracker =>
        rw [step, Chronicle.step]
        split
        · exact Chronicle.trackers_setTracker_of_ne (bne_iff_ne.mp h) ..
        · rfl
    | take clock =>
      rw [step, Chronicle.step]
      split <;> rfl
    | complete =>
      rw [step, Chronicle.step]
      split <;> rfl
    | _ => rfl

theorem trackers_setBefore (chronicle : Chronicle D) (name : Nat) (data : D) (id : RecordId) :
    (step (.ask (.setBefore name data id)) chronicle).2.trackers name =
      chronicle.manager.setBefore data id (chronicle.trackers name) :=
  Chronicle.trackers_setTracker ..

theorem trackers_setAfter (chronicle : Chronicle D) (name : Nat) (data : D) (id : RecordId) :
    (step (.ask (.setAfter name data id)) chronicle).2.trackers name =
      (chronicle.trackers name).setAfter data id :=
  Chronicle.trackers_setTracker ..

theorem heard_step {deed : Deed D} (hd : deed.onlyTells name = true) {chronicle : Chronicle D}
    {told : Told D} (h : (chronicle.trackers name).Heard told) :
    ((step deed chronicle).2.trackers name).Heard (told.hear name deed) := by
  rcases tells_cases name deed with ⟨data, id, rfl⟩ | ⟨data, id, rfl⟩ | ⟨hsame, hb, ha⟩
  · rw [trackers_setBefore, Manager.setBefore_eq, Told.hear, if_pos rfl]
    exact ⟨rfl, h.after, h.kind⟩
  · rw [trackers_setAfter, Told.hear, if_pos rfl]
    refine ⟨h.before, rfl, ?_⟩
    rw [ChangeTracker.setAfter, h.before]
    cases told with
    | mk before after compared => cases before <;> rfl
  · rw [hsame, trackers_step hd hb ha]
    exact h

theorem heard_run {deeds : List (Deed D)} (hd : ∀ deed ∈ deeds, deed.onlyTells name = true)
    {chronicle : Chronicle D} {told : Told D} (h : (chronicle.trackers name).Heard told) :
    ((run deeds chronicle).2.trackers name).Heard (deeds.foldl (Told.hear name) told) := by
  induction deeds generalizing chronicle told with
  | nil => exact h
  | cons deed rest ih =>
    exact ih (fun other ho => hd other (List.mem_cons_of_mem deed ho))
      (heard_step (hd deed List.mem_cons_self) h)

theorem heard_new (front : List (Deed D)) {calls : List (Deed D)}
    (hd : ∀ deed ∈ calls, deed.onlyTells name = true) (chronicle : Chronicle D) :
    ((run (front ++ .ask (.newTracker name) :: calls) chronicle).2.trackers name).Heard
      (Told.all name calls) := by
  rw [run_append]
  have hempty : ((step (.ask (.newTracker name)) (run front chronicle).2).2.trackers name).Heard
      {} := by
    rw [step, Chronicle.step, Chronicle.trackers_setTracker]
    exact ⟨rfl, rfl, rfl⟩
  exact heard_run hd hempty

theorem sameKeys_run {deeds : List (Deed D)} (hd : ∀ deed ∈ deeds, deed.onlyTells name = true)
    (hb : ∀ deed ∈ deeds, deed.tellsBefore name = false) {chronicle : Chronicle D}
    {tracker : ChangeTracker D} (h : (chronicle.trackers name).SameKeys tracker) :
    ((run deeds chronicle).2.trackers name).SameKeys tracker := by
  induction deeds generalizing chronicle with
  | nil => exact h
  | cons deed rest ih =>
    have hstep : ((step deed chronicle).2.trackers name).SameKeys tracker := by
      rcases tells_cases name deed with ⟨data, id, rfl⟩ | ⟨data, id, rfl⟩ | ⟨-, -, ha⟩
      · have hfalse := hb _ List.mem_cons_self
        simp [tellsBefore] at hfalse
      · rw [trackers_setAfter]
        exact ⟨h.groups, h.capturedThrough⟩
      · rw [trackers_step (hd deed List.mem_cons_self) (hb deed List.mem_cons_self) ha]
        exact h
    exact ih (fun other ho => hd other (List.mem_cons_of_mem deed ho))
      (fun other ho => hb other (List.mem_cons_of_mem deed ho)) hstep

theorem sameKeys_told {deeds : List (Deed D)} (hd : ∀ deed ∈ deeds, deed.onlyTells name = true)
    (hb : ∀ deed ∈ deeds, deed.tellsBefore name = false) (chronicle : Chronicle D) (old : D × RecordId) :
    ((run (.ask (.setBefore name old.1 old.2) :: deeds) chronicle).2.trackers name).SameKeys
      (chronicle.manager.beginUpdate old.1 old.2) := by
  have hcaptured : ((step (.ask (.setBefore name old.1 old.2)) chronicle).2.trackers name).SameKeys
      (chronicle.manager.beginUpdate old.1 old.2) := by
    rw [trackers_setBefore, Manager.setBefore_eq]
    exact ⟨rfl, rfl⟩
  exact sameKeys_run hd hb hcaptured

end Manager.Deed

/-! ## The update that a tracker carries -/

theorem kindOf_eq_iff {known : Option (D × RecordId)} {id old : RecordId} :
    (kindOf known id = if id = old then .inPlace else .copy) ↔
      ∃ record, known = some record ∧ (id = record.2 ↔ id = old) := by
  cases known with
  | none =>
    refine iff_of_false (fun h => ?_) (by simp)
    rw [kindOf] at h
    split at h <;> cases h
  | some record =>
    rw [kindOf]
    have hsame : (∃ other, some record = some other ∧ (id = other.2 ↔ id = old)) ↔
        (id = record.2 ↔ id = old) := by simp
    rw [hsame]
    split <;> split <;> rename_i hr ho
    · exact iff_of_true rfl (iff_of_true hr ho)
    · exact iff_of_false (by decide) fun h => ho (h.mp hr)
    · exact iff_of_false (by decide) fun h => hr (h.mpr ho)
    · exact iff_of_true rfl (iff_of_false hr ho)

theorem Told.compared_foldl {name : Nat} {deeds : List (Manager.Deed D)}
    (hb : ∀ deed ∈ deeds, deed.tellsBefore name = false) (told : Told D) :
    (deeds.foldl (hear name) told).before = told.before ∧
      ((deeds.foldl (hear name) told).compared = told.compared ∨
        (deeds.foldl (hear name) told).compared = told.before) ∧
      ((∃ data id, .ask (.setAfter name data id) ∈ deeds) →
        (deeds.foldl (hear name) told).compared = told.before) := by
  induction deeds generalizing told with
  | nil => exact ⟨rfl, .inl rfl, by simp⟩
  | cons deed rest ih =>
    obtain ⟨hbefore, hcompared, hafter⟩ :=
      ih (fun other ho => hb other (List.mem_cons_of_mem deed ho)) (told.hear name deed)
    rw [List.foldl_cons]
    rcases Manager.Deed.tells_cases name deed with ⟨data, id, rfl⟩ | ⟨data, id, rfl⟩ |
      ⟨hsame, -, ha⟩
    · have hfalse := hb _ List.mem_cons_self
      simp [Manager.Deed.tellsBefore] at hfalse
    · have hheard : told.hear name (.ask (.setAfter name data id)) =
          { told with after := some (data, id), compared := told.before } := if_pos rfl
      rw [hheard] at hbefore hcompared hafter ⊢
      exact ⟨hbefore, .inr ((or_self_iff).mp hcompared), fun _ => (or_self_iff).mp hcompared⟩
    · rw [hsame] at hbefore hcompared hafter ⊢
      refine ⟨hbefore, hcompared, ?_⟩
      rintro ⟨data, id, hm⟩
      exact hafter ⟨data, id, (List.mem_cons.mp hm).resolve_left fun he => ha data id he.symm⟩

/-- After the last snapshot of the record before the update, a record after it is compared with
this one. -/
theorem Told.compared_all {name : Nat} {back : List (Manager.Deed D)}
    (hb : ∀ deed ∈ back, deed.tellsBefore name = false) (calls : List (Manager.Deed D))
    (old : D × RecordId) :
    (all name (calls ++ .ask (.setBefore name old.1 old.2) :: back)).before = some old ∧
      ((∃ data id, .ask (.setAfter name data id) ∈ back) →
        (all name (calls ++ .ask (.setBefore name old.1 old.2) :: back)).compared = some old) := by
  rw [all, List.foldl_append, List.foldl_cons, hear, if_pos rfl]
  obtain ⟨hbefore, -, hcompared⟩ := compared_foldl hb { all name calls with before := some old }
  exact ⟨hbefore, hcompared⟩

namespace Manager

variable {tracker : ChangeTracker D}

theorem upsert_of_insert (h : tracker.kind = .insert) (manager : Manager D) (data : D)
    (id : RecordId) (disk : Disk) :
    manager.upsert data id (some tracker) disk =
      ((manager.insert data id disk).1, (manager.insert data id disk).2.1, some tracker,
        (manager.insert data id disk).2.2) := by
  rw [Manager.upsert.eq_def]
  exact if_pos h

theorem upsert_of_update (h : tracker.kind ≠ .insert) (manager : Manager D) (data : D)
    (id : RecordId) (disk : Disk) :
    manager.upsert data id (some tracker) disk =
      ((manager.update tracker disk).1, (manager.update tracker disk).2.1,
        some (manager.update tracker disk).2.2.1, (manager.update tracker disk).2.2.2) := by
  rw [Manager.upsert.eq_def]
  exact if_neg h

end Manager

/-- A tracker that has been told snapshots of records in any order, between all other things that
are done with a manager, holds the last two of them. Its kind is the one for the last record after
the update and the record before it that was known when the former was told, so it fits the last two
snapshots just if both records before the update give the same kind, in particular if the record
after it was told last. Then an upsert or an update with the tracker moves the ids from the last
record before it to the last one after it, under every predicate that was there when the former was
told, and adds the new id under later ones. If no record before the update was known when the one
after it was told, an upsert only stores the record that it is given. -/
theorem tracked_after_calls {config : Config} {identity : Nat} {disk opened : Disk}
    {manager : Manager D} {front calls back : List (Manager.Deed D)}
    {early late : List (Registered D)} {begun current : Chronicle D} {name : Nat}
    {old new : D × RecordId} {told : Told D} (hw : disk.WellFormed)
    (hopen : Manager.open? config identity disk = (.ok manager, opened))
    (hfront : Manager.Deed.run (front ++ .ask (.newTracker name) :: calls)
      { manager, disk := opened } = (early, begun))
    (hback : Manager.Deed.run (.ask (.setBefore name old.1 old.2) :: back) begun = (late, current))
    (hcalls : ∀ deed ∈ calls ++ back, deed.onlyTells name = true)
    (hlast : ∀ deed ∈ back, deed.tellsBefore name = false)
    (htold : Told.all name (calls ++ .ask (.setBefore name old.1 old.2) :: back) = told)
    (hnew : told.after = some new)
    (hready : ∀ group ∈ current.manager.groups, group.store.awaitingRecovery = false)
    (hfits : ∀ group ∈ current.manager.groups, group.store.log.Fits) :
    ((current.trackers name).before = some old ∧ (current.trackers name).after = some new ∧
      (current.trackers name).kind = kindOf told.compared new.2) ∧
    ((current.trackers name).kind = (if new.2 = old.2 then .inPlace else .copy) ↔
      ∃ known, told.compared = some known ∧ (new.2 = known.2 ↔ new.2 = old.2)) ∧
    ((∃ data id, .ask (.setAfter name data id) ∈ back) → told.compared = some old) ∧
    (∀ known, told.compared = some known → (new.2 = known.2 ↔ new.2 = old.2) → ∀ data id,
      ∃ after last other,
        current.manager.update (current.trackers name) current.disk =
          (.ok (), after, last, other) ∧
        current.manager.upsert data id (some (current.trackers name)) current.disk =
          (.ok (), after, some last, other) ∧
        ((∀ group ∈ after.groups, group.store.log.Fits) →
          (∀ r ∈ early, current.manager.Shifts current.disk after other r
            (fun key id => r.Files old key id ∧ r.Moves old new)
            (fun key id => r.Files new key id ∧ r.Moves old new)) ∧
          ∀ r ∈ late, current.manager.Shifts current.disk after other r (fun _ _ => False)
            (r.Files new))) ∧
    (told.compared = none → ∀ data id, ∃ after other,
      current.manager.upsert data id (some (current.trackers name)) current.disk =
        (.ok (), after, some (current.trackers name), other) ∧
      ((∀ group ∈ after.groups, group.store.log.Fits) → ∀ r ∈ early ++ late,
        current.manager.Shifts current.disk after other r (fun _ _ => False)
          (r.Files (data, id)))) := by
  have hfirst : Chronicle.Leads { manager, disk := opened } early begun := by
    have hlead := (Chronicle.Live.opened hw hopen).run (front ++ .ask (.newTracker name) :: calls)
    rwa [hfront] at hlead
  have hsecond : begun.Leads late current := by
    have hlead := hfirst.live.run (.ask (.setBefore name old.1 old.2) :: back)
    rwa [hback] at hlead
  have hnames : ∀ r ∈ early ++ late, current.manager.Names r := fun r hr =>
    ((hfirst.trans hsecond).names r hr).1
  obtain ⟨base, hlegible⟩ := hsecond.live.stands.legible hsecond.live.legible
  obtain ⟨index, hi⟩ := hlegible.indexed hready
  -- what the tracker holds follows from what it was told since it was new
  have hheard : (current.trackers name).Heard told := by
    have htells : ∀ deed ∈ calls ++ .ask (.setBefore name old.1 old.2) :: back,
        deed.onlyTells name = true := by
      intro deed hd
      rcases List.mem_append.mp hd with hd | hd
      · exact hcalls deed (List.mem_append_left _ hd)
      · rcases List.mem_cons.mp hd with rfl | hd
        · rfl
        · exact hcalls deed (List.mem_append_right _ hd)
    have hrun := Manager.Deed.heard_new front htells { manager, disk := opened }
    rw [← List.cons_append, ← List.append_assoc, Manager.Deed.run_append, hfront, hback] at hrun
    exact htold ▸ hrun
  have hkeys := Manager.Deed.sameKeys_told
    (fun deed hd => hcalls deed (List.mem_append_right calls hd)) hlast begun old
  rw [hback] at hkeys
  obtain ⟨hbefore, hcompared⟩ := Told.compared_all hlast calls old
  rw [htold] at hbefore hcompared
  have hkind : (current.trackers name).kind = kindOf told.compared new.2 := by
    rw [hheard.kind, Told.kind, hnew]
  refine ⟨⟨hheard.before.trans hbefore, hheard.after.trans hnew, hkind⟩, ?_, hcompared, ?_, ?_⟩
  · rw [hkind]
    exact kindOf_eq_iff
  · intro known hknown hsame data id
    have hright : (current.trackers name).kind = if new.2 = old.2 then .inPlace else .copy :=
      hkind.trans (kindOf_eq_iff.mpr ⟨known, hknown, hsame⟩)
    obtain ⟨-, hknows⟩ := hsecond.knows hfirst.live old
    obtain ⟨after, last, other, hu, hshifts⟩ := hi.shifts_update hfits
      (hheard.before.trans hbefore) (hheard.after.trans hnew) hright
      fun group hg => hkeys.knows (hknows group hg)
    have hchanges : (current.trackers name).kind ≠ .insert := by
      rw [hright]
      split <;> decide
    have hupsert := Manager.upsert_of_update hchanges current.manager data id current.disk
    rw [hu] at hupsert
    refine ⟨after, last, other, hu, hupsert, fun hfa => ⟨fun r hr => ?_, fun r hr => ?_⟩⟩
    · exact (hshifts hfa r (hnames r (List.mem_append_left _ hr))).1 (hfirst.hasGroup_early hr)
    · exact (hshifts hfa r (hnames r (List.mem_append_right _ hr))).2
        (hsecond.hasGroup_late hfirst.live hr)
  · intro hnone data id
    obtain ⟨after, other, hu, hshifts⟩ := hi.shifts_insert hfits (data, id)
    have hupsert := Manager.upsert_of_insert (hkind.trans (by rw [hnone]; rfl)) current.manager data
      id current.disk
    rw [hu] at hupsert
    exact ⟨after, other, hupsert, fun hfa r hr => hshifts hfa r (hnames r hr)⟩

def toldOther : List (Manager.Deed Nat) :=
  twoStored ++ .ask (.newTracker 0) :: [.ask (.setBefore 0 5 ⟨2, 9⟩), .ask (.setAfter 0 6 ⟨8, 1⟩)]

def toldLast : Nat × RecordId := (4, ⟨7, 1⟩)

def toldAgain : List (Manager.Deed Nat) :=
  [.ask (.setBefore 0 toldLast.1 toldLast.2), .register largeNumbers]

def toldAgainFits : Bool :=
  match Manager.open? (D := Nat) { dir := ["db"] } 0 {} with
  | (.error _, _) => false
  | (.ok manager, opened) =>
    match Manager.Deed.run toldOther { manager, disk := opened } with
    | (early, begun) =>
      match Manager.Deed.run toldAgain begun with
      | (late, current) =>
        match current.manager.update (current.trackers 0) current.disk with
        | (_, after, _, _) =>
          decide (early.length = 1 ∧ late.length = 1 ∧
            (∀ group ∈ current.manager.groups, group.store.awaitingRecovery = false ∧
              group.store.log.flushed ≤ Disk.offsetLimit ∧ group.store.log.tail < UInt64.size) ∧
            ∀ group ∈ after.groups,
              group.store.log.flushed ≤ Disk.offsetLimit ∧ group.store.log.tail < UInt64.size)

/-- The tracker was told the new number when it knew another old one, but the ids differ from the
new one all the same. -/
theorem tracked_after_calls_told_again : ∃ (manager : Manager Nat) (opened : Disk)
    (early late : List (Registered Nat)) (begun current : Chronicle Nat),
    Manager.open? { dir := ["db"] } 0 {} = (.ok manager, opened) ∧
      Manager.Deed.run toldOther { manager, disk := opened } = (early, begun) ∧
      Manager.Deed.run toldAgain begun = (late, current) ∧ early.length = 1 ∧ late.length = 1 ∧
      (current.trackers 0).kind = .copy ∧
      ∃ after last other,
        current.manager.upsert 6 ⟨8, 1⟩ (some (current.trackers 0)) current.disk =
          (.ok (), after, some last, other) ∧
        (∀ r ∈ early, current.manager.Shifts current.disk after other r
          (fun key id => r.Files (4, ⟨7, 1⟩) key id ∧ r.Moves (4, ⟨7, 1⟩) (6, ⟨8, 1⟩))
          (fun key id => r.Files (6, ⟨8, 1⟩) key id ∧ r.Moves (4, ⟨7, 1⟩) (6, ⟨8, 1⟩))) ∧
        ∀ r ∈ late, current.manager.Shifts current.disk after other r (fun _ _ => False)
          (r.Files (6, ⟨8, 1⟩)) := by
  have hfacts : toldAgainFits = true := by decide +kernel
  unfold toldAgainFits at hfacts
  rcases hopen : Manager.open? (D := Nat) { dir := ["db"] } 0 {} with ⟨fault | manager, opened⟩
  · rw [hopen] at hfacts
    cases hfacts
  · rw [hopen] at hfacts
    rcases hfront : Manager.Deed.run toldOther { manager, disk := opened } with ⟨early, begun⟩
    simp only [hfront] at hfacts
    rcases hback : Manager.Deed.run toldAgain begun with ⟨late, current⟩
    simp only [hback] at hfacts
    obtain ⟨hearly, hlate, hcurrent, hafter⟩ := of_decide_eq_true hfacts
    obtain ⟨⟨-, -, hkind⟩, -, -, hupdates, -⟩ := tracked_after_calls .empty hopen hfront
      hback (by decide) (by decide) rfl rfl
      (fun group hg => (hcurrent group hg).1)
      (fun group hg => ⟨(hcurrent group hg).2.1, (hcurrent group hg).2.2⟩)
    obtain ⟨after, last, other, hu, hupsert, hshifts⟩ :=
      hupdates (5, ⟨2, 9⟩) rfl (by decide) 6 ⟨8, 1⟩
    rw [hu] at hafter
    exact ⟨manager, opened, early, late, begun, current, rfl, hfront, hback, hearly, hlate, hkind,
      after, last, other, hupsert,
      hshifts fun group hg => ⟨(hafter group hg).1, (hafter group hg).2⟩⟩

def toldBackwards : List (Manager.Deed Nat) :=
  [.register evenNumbers, .ask (.upsert 4 ⟨7, 1⟩ none), .ask (.newTracker 0),
    .ask (.setAfter 0 5 ⟨7, 1⟩), .ask (.setBefore 0 4 ⟨7, 1⟩)]

def toldBackwardsAnswer : Bool :=
  match Manager.open? (D := Nat) { dir := ["db"] } 0 {} with
  | (.error _, _) => false
  | (.ok manager, opened) =>
    match Manager.Deed.run toldBackwards { manager, disk := opened } with
    | ([⟨.bool, handle, (key : Nat → Option Bool)⟩], current) =>
      match current.manager.upsert 5 ⟨7, 1⟩ (some (current.trackers 0)) current.disk with
      | (.ok (), after, _, other) =>
        match after.answer other handle [true] none with
        | .ok found => decide ((current.trackers 0).before = some (4, ⟨7, 1⟩) ∧
            (current.trackers 0).after = some (5, ⟨7, 1⟩) ∧
            (current.trackers 0).kind = .insert ∧ found = [⟨7, 1⟩] ∧ key 4 = some true ∧ key 5 = some false)
        | .error _ => false
      | _ => false
    | _ => false

/-- A tracker that is told the record before the update last has no kind of update, and an upsert
with it does not have the effect of the update from the one to the other. -/
theorem tracked_after_calls_backwards : ∃ (manager : Manager Nat) (opened : Disk)
    (given : List (Registered Nat)) (current : Chronicle Nat),
    Manager.open? { dir := ["db"] } 0 {} = (.ok manager, opened) ∧
      Manager.Deed.run toldBackwards { manager, disk := opened } = (given, current) ∧
      (current.trackers 0).before = some (4, ⟨7, 1⟩) ∧
      (current.trackers 0).after = some (5, ⟨7, 1⟩) ∧ (current.trackers 0).kind ≠ .inPlace ∧
      ∃ after last other,
        current.manager.upsert 5 ⟨7, 1⟩ (some (current.trackers 0)) current.disk =
          (.ok (), after, last, other) ∧
        ∃ r ∈ given, ¬ current.manager.Shifts current.disk after other r
          (fun key id => r.Files (4, ⟨7, 1⟩) key id ∧ r.Moves (4, ⟨7, 1⟩) (5, ⟨7, 1⟩))
          (fun key id => r.Files (5, ⟨7, 1⟩) key id ∧ r.Moves (4, ⟨7, 1⟩) (5, ⟨7, 1⟩)) := by
  have hfacts : toldBackwardsAnswer = true := by decide +kernel
  unfold toldBackwardsAnswer at hfacts
  split at hfacts
  · cases hfacts
  · rename_i manager opened hopen
    split at hfacts
    · rename_i handle key current hrun
      split at hfacts
      · rename_i after last other hu
        split at hfacts
        · rename_i found hanswer
          obtain ⟨hbefore, hafter, hkind, rfl, hold, hnew⟩ := of_decide_eq_true hfacts
          refine ⟨manager, opened, _, current, hopen, hrun, hbefore, hafter, by simp [hkind], after,
            last, other, hu, _, List.mem_singleton_self _, fun hshifts => ?_⟩
          obtain ⟨ids, left, -, hleft, -, -, hmem⟩ := hshifts true
          obtain rfl := Except.ok.inj (hanswer.symm.trans hleft)
          rcases (hmem ⟨7, 1⟩).mp List.mem_cons_self with ⟨⟨-, hjoins⟩, -⟩ | ⟨-, hstays⟩
          · cases hjoins.symm.trans hnew
          · refine hstays ⟨⟨rfl, hold⟩, fun _ hsame => ?_⟩
            cases hnew.symm.trans (hsame.trans hold)
        · cases hfacts
      · cases hfacts
    · cases hfacts

end PredicateIndex
