import PredicateIndex.Proofs.LiveManagers
import PredicateIndex.Proofs.TrackedChanges

/-!
# What a mutation does to the answers

A manager may be asked for anything, with ids that the caller chooses, and
predicates may be registered at any time. A mutation of such a manager then
changes the answers for single keys by the ids that it is about, and only under
the keys that the predicates give for their records: an update that was begun
before a predicate was registered only adds the new id under it.
-/

set_option autoImplicit false

namespace PredicateIndex

variable {D : Type}

namespace Registered

def Files (r : Registered D) (record : D × RecordId) (key : r.type.Value) (id : RecordId) : Prop :=
  id = record.2 ∧ r.key record.1 = some key

def Moves (r : Registered D) (old new : D × RecordId) : Prop :=
  new.2 = old.2 → r.key new.1 ≠ r.key old.1

end Registered

namespace Manager

variable {manager after : Manager D} {disk other : Disk} {base : Path}

/-- The answers for the keys of a predicate lose the ids that leave and gain those that join. -/
def Shifts (manager : Manager D) (disk : Disk) (after : Manager D) (other : Disk)
    (r : Registered D) (leaves joins : r.type.Value → RecordId → Prop) : Prop :=
  ∀ key, ∃ ids found, manager.answer disk r.handle [key] none = .ok ids ∧
    after.answer other r.handle [key] none = .ok found ∧
    ids.Pairwise (· < ·) ∧ found.Pairwise (· < ·) ∧
    ∀ id, id ∈ found ↔ joins key id ∨ (id ∈ ids ∧ ¬ leaves key id)

def hasGroup (manager : Manager D) (id : Nat) : Bool := decide (id ∈ manager.groups.map Group.id)

/-- If no group awaits recovery, the records that can be read stand for indexes. -/
theorem Legible.indexed (h : manager.Legible disk base)
    (hr : ∀ group ∈ manager.groups, group.store.awaitingRecovery = false) :
    ∃ index, manager.Indexed disk base manager.schema index := by
  have hone : ∀ id, ∃ index, ∀ group ∈ manager.groups, group.id = id →
      group.Indexed (groupPlace base group.id) disk (manager.schema group.id) index := by
    intro id
    by_cases hid : id ∈ manager.groups.map Group.id
    · obtain ⟨group, hg, rfl⟩ := List.mem_map.mp hid
      obtain ⟨hsized, history, hk, ho⟩ := h.group group hg
      refine ⟨Store.indexOf history, fun found hf he => ?_⟩
      have hsame := find?_of_distinct h.distinct hf
      rw [he, find?_of_distinct h.distinct hg] at hsame
      obtain rfl := Option.some.inj hsame
      have hschema := schema_eq h.distinct hg
      exact ⟨hschema.symm, hschema ▸ hsized, hr group hg, history, hk, ho, rfl⟩
    · exact ⟨fun _ _ => false, fun group hg he => (hid (he ▸ List.mem_map_of_mem hg)).elim⟩
  obtain ⟨index, hindex⟩ := Classical.axiomOfChoice hone
  exact ⟨index, h.distinct, fun group hg => hindex group.id group hg rfl⟩

/-- Marks on the chains of a predicate shift its answers. -/
theorem Indexed.shifts {index final : Nat → Index} {r : Registered D}
    {leaves joins : r.type.Value → RecordId → Prop}
    (hi : manager.Indexed disk base manager.schema index) (hsame : manager.SameGroups after)
    (ha : after.Indexed other base manager.schema final)
    (hf : ∀ group ∈ manager.groups, group.store.log.Fits)
    (hfa : ∀ group ∈ after.groups, group.store.log.Fits) (hn : manager.Names r)
    (hm : ∀ n, Sized (manager.schema r.handle.group) →
      (manager.schema r.handle.group)[n]? = some ⟨r.handle.name, r.type, r.key⟩ → ∀ key id,
        final r.handle.group (chainKey (UInt8.ofNat n) (r.type.encode key)) id = true ↔
          joins key id ∨ (index r.handle.group (chainKey (UInt8.ofNat n) (r.type.encode key)) id =
            true ∧ ¬ leaves key id)) :
    manager.Shifts disk after other r leaves joins := by
  intro key
  obtain ⟨query, ids, hquery, hids, hascending, hmem⟩ := query_ids hi hf hn key
  obtain ⟨later, found, hlater, hfound, hordered, hafter⟩ :=
    query_ids ha hfa (hn.persist hi.distinct hsame ha) key
  obtain ⟨-, group, hg, n, hgroup, hordinal, hp⟩ := hn
  have hgroups := hi.group group hg
  rw [← hgroup] at hgroups
  refine ⟨ids, found, ?_, ?_, hascending, hordered, fun id => ?_⟩
  · rw [answer, hquery]
    exact hids
  · rw [answer, hlater]
    exact hfound
  · rw [hafter, hmem, hordinal]
    exact hm n hgroups.sized (hgroups.same ▸ hp) key id

namespace Indexed

variable {index : Nat → Index} {tracker : ChangeTracker D} {old new : D × RecordId}
  {known : Nat → Bool}

theorem shifts_insert (hi : manager.Indexed disk base manager.schema index)
    (hf : ∀ group ∈ manager.groups, group.store.log.Fits) (new : D × RecordId) :
    ∃ after other, manager.insert new.1 new.2 disk = (.ok (), after, other) ∧
      ((∀ group ∈ after.groups, group.store.log.Fits) → ∀ r, manager.Names r →
        manager.Shifts disk after other r (fun _ _ => False) (r.Files new)) := by
  obtain ⟨after, other, hu, hsame, ha⟩ := hi.insert new.1 new.2
  refine ⟨after, other, hu, fun hfa r hn => ?_⟩
  refine hi.shifts hsame ha hf hfa hn fun n hsized hp key id => ?_
  exact (mark_insert hsized hp new _ key id).trans (or_congr_right (and_iff_left not_false).symm)

theorem shifts_update (hi : manager.Indexed disk base manager.schema index)
    (hf : ∀ group ∈ manager.groups, group.store.log.Fits)
    (hb : tracker.before = some old) (ha : tracker.after = some new)
    (hkind : tracker.kind = if new.2 = old.2 then .inPlace else .copy)
    (hk : ∀ group ∈ manager.groups,
      tracker.Knows group.id (known group.id) (keyOf (manager.schema group.id) old.1)) :
    ∃ after last other, manager.update tracker disk = (.ok (), after, last, other) ∧
      ((∀ group ∈ after.groups, group.store.log.Fits) → ∀ r, manager.Names r →
        (known r.handle.group = true → manager.Shifts disk after other r
          (fun key id => r.Files old key id ∧ r.Moves old new)
          (fun key id => r.Files new key id ∧ r.Moves old new)) ∧
        (known r.handle.group = false →
          manager.Shifts disk after other r (fun _ _ => False) (r.Files new))) := by
  obtain ⟨after, last, other, hu, hsame, hafter⟩ := hi.update_known hb ha hkind hk
  refine ⟨after, last, other, hu, fun hfa r hn => ⟨fun hknown => ?_, fun hknown => ?_⟩⟩
  · refine hi.shifts hsame hafter hf hfa hn fun n hsized hp key id => ?_
    rw [hknown]
    exact markAll_changeWrites hsized hp old new _ key id
  · refine hi.shifts hsame hafter hf hfa hn fun n hsized hp key id => ?_
    rw [hknown]
    exact (mark_insert hsized hp new _ key id).trans (or_congr_right (and_iff_left not_false).symm)

theorem shifts_delete (hi : manager.Indexed disk base manager.schema index)
    (hf : ∀ group ∈ manager.groups, group.store.log.Fits) (hb : tracker.before = some old)
    (hk : ∀ group ∈ manager.groups,
      tracker.Knows group.id (known group.id) (keyOf (manager.schema group.id) old.1)) :
    ∃ after last other, manager.delete tracker disk = (.ok (), after, last, other) ∧
      ((∀ group ∈ after.groups, group.store.log.Fits) → ∀ r, manager.Names r →
        (known r.handle.group = true →
          manager.Shifts disk after other r (r.Files old) (fun _ _ => False)) ∧
        (known r.handle.group = false →
          manager.Shifts disk after other r (fun _ _ => False) (fun _ _ => False))) := by
  obtain ⟨after, last, other, hd, hsame, hafter⟩ := hi.delete_known hb hk
  refine ⟨after, last, other, hd, fun hfa r hn => ⟨fun hknown => ?_, fun hknown => ?_⟩⟩
  · refine hi.shifts hsame hafter hf hfa hn fun n hsized hp key id => ?_
    rw [hknown]
    exact (mark_delete hsized hp old _ key id).trans (or_iff_right not_false).symm
  · refine hi.shifts hsame hafter hf hfa hn fun n hsized hp key id => ?_
    rw [hknown]
    simp [deleteWrites, IndexWrite.markAll]

end Indexed

end Manager

namespace Chronicle

variable {chronicle begun current : Chronicle D} {early late : List (Registered D)}

theorem Leads.knows (h : begun.Leads late current) (hb : begun.Live) (old : D × RecordId) :
    (begun.manager.beginUpdate old.1 old.2).before = some old ∧
      ∀ group ∈ current.manager.groups, (begun.manager.beginUpdate old.1 old.2).Knows group.id
        (begun.manager.hasGroup group.id) (keyOf (current.manager.schema group.id) old.1) := by
  obtain ⟨hbefore, hcaptured⟩ := Manager.captured_beginUpdate (fun group hg =>
    congrArg (fun predicates => keyOf predicates old.1)
      (Manager.schema_eq hb.stands.distinct hg).symm) old.2
  refine ⟨hbefore, fun group hg => ?_⟩
  by_cases hm : group.id ∈ begun.manager.groups.map Group.id
  · have hschema := h.grows.schema hb.stands.distinct h.live.stands.distinct hm
    obtain ⟨known, hk, hid⟩ := List.mem_map.mp hm
    have hknown := hcaptured known hk
    rw [hid, ← hschema] at hknown
    rw [Manager.hasGroup, decide_eq_true hm]
    exact ⟨hknown.through, hknown.keys⟩
  · have hle := (h.grows.added group hg).resolve_left hm
    rw [Manager.hasGroup, decide_eq_false hm]
    exact Manager.missing_beginUpdate hb.stands.distinct old.1 old.2 hm
      (Nat.le_trans (Manager.groupBound_le hb.stands.below) hle) _

theorem Leads.hasGroup_early (h : chronicle.Leads early begun) {r : Registered D} (hr : r ∈ early) :
    begun.manager.hasGroup r.handle.group = true := by
  obtain ⟨-, group, hg, n, hid, -⟩ := (h.names r hr).1
  exact decide_eq_true (hid ▸ List.mem_map_of_mem hg)

theorem Leads.hasGroup_late (h : begun.Leads late current) (hb : begun.Live) {r : Registered D}
    (hr : r ∈ late) : begun.manager.hasGroup r.handle.group = false := by
  refine decide_eq_false fun hm => ?_
  obtain ⟨group, hg, hid⟩ := List.mem_map.mp hm
  have hlt := hb.stands.below group hg
  have hle := (h.names r hr).2
  omega

end Chronicle

/-- In every state of a manager that is used, with ids that the caller chooses, an insertion adds
the id to the answers for the keys of its record and changes no other answer. An update moves the
ids of the records that its tracker tells under every predicate that was there when it began, if
the id or the output changes, and only adds the new one under later ones; a deletion takes the old
id away under the former and does nothing for the latter. -/
theorem answers_after_mutations {config : Config} {identity : Nat} {disk opened : Disk}
    {manager : Manager D} {front back : List (Manager.Deed D)} {early late : List (Registered D)}
    {begun current : Chronicle D} (hw : disk.WellFormed)
    (hopen : Manager.open? config identity disk = (.ok manager, opened))
    (hfront : Manager.Deed.run front { manager, disk := opened } = (early, begun))
    (hback : Manager.Deed.run back begun = (late, current))
    (hready : ∀ group ∈ current.manager.groups, group.store.awaitingRecovery = false)
    (hfits : ∀ group ∈ current.manager.groups, group.store.log.Fits) (old new : D × RecordId) :
    (∃ after other, current.manager.upsert new.1 new.2 none current.disk =
        (.ok (), after, none, other) ∧
      ((∀ group ∈ after.groups, group.store.log.Fits) → ∀ r ∈ early ++ late,
        current.manager.Shifts current.disk after other r (fun _ _ => False) (r.Files new))) ∧
    (∃ after last other, current.manager.update
        ((begun.manager.beginUpdate old.1 old.2).setAfter new.1 new.2) current.disk =
          (.ok (), after, last, other) ∧
      ((∀ group ∈ after.groups, group.store.log.Fits) →
        (∀ r ∈ early, current.manager.Shifts current.disk after other r
          (fun key id => r.Files old key id ∧ r.Moves old new)
          (fun key id => r.Files new key id ∧ r.Moves old new)) ∧
        ∀ r ∈ late, current.manager.Shifts current.disk after other r (fun _ _ => False)
          (r.Files new))) ∧
    ∀ tracker ∈ [begun.manager.beginUpdate old.1 old.2,
        (begun.manager.beginUpdate old.1 old.2).setAfter new.1 new.2],
      ∃ after last other, current.manager.delete tracker current.disk =
        (.ok (), after, last, other) ∧
      ((∀ group ∈ after.groups, group.store.log.Fits) →
        (∀ r ∈ early, current.manager.Shifts current.disk after other r (r.Files old)
          (fun _ _ => False)) ∧
        ∀ r ∈ late, current.manager.Shifts current.disk after other r (fun _ _ => False)
          (fun _ _ => False)) := by
  have hfirst : Chronicle.Leads { manager, disk := opened } early begun := by
    have hlead := (Chronicle.Live.opened hw hopen).run front
    rwa [hfront] at hlead
  have hlast : begun.Leads late current := by
    have hlead := hfirst.live.run back
    rwa [hback] at hlead
  obtain ⟨base, hlegible⟩ := hlast.live.stands.legible hlast.live.legible
  obtain ⟨index, hi⟩ := hlegible.indexed hready
  have hnames : ∀ r ∈ early ++ late, current.manager.Names r := fun r hr =>
    ((hfirst.trans hlast).names r hr).1
  have hearly : ∀ r ∈ early, current.manager.Names r := fun r hr =>
    hnames r (List.mem_append_left _ hr)
  have hlate : ∀ r ∈ late, current.manager.Names r := fun r hr =>
    hnames r (List.mem_append_right _ hr)
  have hthere : ∀ r ∈ early, begun.manager.hasGroup r.handle.group = true := fun r hr =>
    hfirst.hasGroup_early hr
  have hmissing : ∀ r ∈ late, begun.manager.hasGroup r.handle.group = false := fun r hr =>
    hlast.hasGroup_late hfirst.live hr
  obtain ⟨hbefore, hknows⟩ := hlast.knows hfirst.live old
  -- What the new record is does not change what is known of the old one.
  have hknown : ∀ group ∈ current.manager.groups,
      ((begun.manager.beginUpdate old.1 old.2).setAfter new.1 new.2).Knows group.id
        (begun.manager.hasGroup group.id) (keyOf (current.manager.schema group.id) old.1) :=
    fun group hg => ⟨(hknows group hg).through, (hknows group hg).keys⟩
  refine ⟨?insertion, ?update, fun tracker ht => ?deletion⟩
  case insertion =>
    obtain ⟨after, other, hu, hshifts⟩ := hi.shifts_insert hfits new
    refine ⟨after, other, by rw [Manager.upsert.eq_def, hu], fun hfa r hr => ?_⟩
    exact hshifts hfa r (hnames r hr)
  case update =>
    have hold : ((begun.manager.beginUpdate old.1 old.2).setAfter new.1 new.2).before = some old :=
      hbefore
    obtain ⟨after, last, other, hu, hshifts⟩ := hi.shifts_update hfits hold rfl
      (by simp only [ChangeTracker.setAfter, hbefore]) hknown
    exact ⟨after, last, other, hu, fun hfa =>
      ⟨fun r hr => (hshifts hfa r (hearly r hr)).1 (hthere r hr),
        fun r hr => (hshifts hfa r (hlate r hr)).2 (hmissing r hr)⟩⟩
  case deletion =>
    obtain ⟨after, last, other, hd, hshifts⟩ := (List.mem_pair.mp ht).elim
      (fun he => hi.shifts_delete hfits (he ▸ hbefore) (he ▸ hknows))
      (fun he => hi.shifts_delete hfits (he ▸ hbefore) (he ▸ hknown))
    exact ⟨after, last, other, hd, fun hfa =>
      ⟨fun r hr => (hshifts hfa r (hearly r hr)).1 (hthere r hr),
        fun r hr => (hshifts hfa r (hlate r hr)).2 (hmissing r hr)⟩⟩

def evenNumbers : Definitions Nat where
  type := .bool
  predicates := [("even", fun n => some (n % 2 == 0))]

def largeNumbers : Definitions Nat where
  type := .bool
  predicates := [("large", fun n => if 3 < n then some true else none)]

def twoStored : List (Manager.Deed Nat) :=
  [.register evenNumbers, .ask (.upsert 4 ⟨7, 1⟩ none), .ask (.upsert 5 ⟨2, 9⟩ none)]

def laterStored : List (Manager.Deed Nat) :=
  [.register largeNumbers, .ask (.upsert 5 ⟨2, 9⟩ none), .ask (.setBefore 0 4 ⟨7, 1⟩),
    .ask .flush]

def updateFits : Bool :=
  match Manager.open? (D := Nat) { dir := ["db"] } 0 {} with
  | (.error _, _) => false
  | (.ok manager, opened) =>
    match Manager.Deed.run twoStored { manager, disk := opened } with
    | (early, begun) =>
      match Manager.Deed.run laterStored begun with
      | (late, current) =>
        match current.manager.update ((begun.manager.beginUpdate 4 ⟨7, 1⟩).setAfter 5 ⟨2, 9⟩)
          current.disk with
        | (_, after, _, _) =>
          decide (early.length = 1 ∧ late.length = 1 ∧
            (∀ group ∈ current.manager.groups, group.store.awaitingRecovery = false ∧
              group.store.log.flushed ≤ Disk.offsetLimit ∧ group.store.log.tail < UInt64.size) ∧
            ∀ group ∈ after.groups,
              group.store.log.flushed ≤ Disk.offsetLimit ∧ group.store.log.tail < UInt64.size)

theorem answers_after_moved_number : ∃ (manager : Manager Nat) (opened : Disk)
    (early late : List (Registered Nat)) (begun current : Chronicle Nat),
    Manager.open? { dir := ["db"] } 0 {} = (.ok manager, opened) ∧
      Manager.Deed.run twoStored { manager, disk := opened } = (early, begun) ∧
      Manager.Deed.run laterStored begun = (late, current) ∧ early.length = 1 ∧ late.length = 1 ∧
      ∃ after last other, current.manager.update
          ((begun.manager.beginUpdate 4 ⟨7, 1⟩).setAfter 5 ⟨2, 9⟩) current.disk =
            (.ok (), after, last, other) ∧
        (∀ r ∈ early, current.manager.Shifts current.disk after other r
          (fun key id => r.Files (4, ⟨7, 1⟩) key id ∧ r.Moves (4, ⟨7, 1⟩) (5, ⟨2, 9⟩))
          (fun key id => r.Files (5, ⟨2, 9⟩) key id ∧ r.Moves (4, ⟨7, 1⟩) (5, ⟨2, 9⟩))) ∧
        ∀ r ∈ late, current.manager.Shifts current.disk after other r (fun _ _ => False)
          (r.Files (5, ⟨2, 9⟩)) := by
  have hfacts : updateFits = true := by decide +kernel
  unfold updateFits at hfacts
  rcases hopen : Manager.open? (D := Nat) { dir := ["db"] } 0 {} with ⟨fault | manager, opened⟩
  · rw [hopen] at hfacts
    cases hfacts
  · rw [hopen] at hfacts
    rcases hfront : Manager.Deed.run twoStored { manager, disk := opened } with ⟨early, begun⟩
    simp only [hfront] at hfacts
    rcases hback : Manager.Deed.run laterStored begun with ⟨late, current⟩
    simp only [hback] at hfacts
    obtain ⟨hearly, hlate, hcurrent, hafter⟩ := of_decide_eq_true hfacts
    obtain ⟨-, ⟨after, last, other, hu, hshifts⟩, -⟩ := answers_after_mutations .empty hopen hfront
      hback (fun group hg => (hcurrent group hg).1)
      (fun group hg => ⟨(hcurrent group hg).2.1, (hcurrent group hg).2.2⟩) (4, ⟨7, 1⟩) (5, ⟨2, 9⟩)
    rw [hu] at hafter
    exact ⟨manager, opened, early, late, begun, current, rfl, hfront, hback, hearly, hlate, after,
      last, other, hu, hshifts fun group hg => ⟨(hafter group hg).1, (hafter group hg).2⟩⟩

end PredicateIndex
