import PredicateIndex.Proofs.WatchedGroups

/-!
# What a tracker knows of a group

A tracker that has begun an update knows the keys that the old record has in
every group of the manager. A group that comes later is missing from it: such a
group only takes in the new record, and a deletion passes it by. In every other
group the change is made in its place if the id stays, else by a copy.
-/

set_option autoImplicit false

namespace PredicateIndex

variable {D : Type}

/-- What a tracker tells a group: the key of the record before the update, or that the group came
after it. -/
structure ChangeTracker.Knows (tracker : ChangeTracker D) (group : Nat) (known : Bool)
    (key : CompositeKey) : Prop where
  through : tracker.capturedThrough.isSome
  keys : tracker.beforeKeys? group = some (if known then .ofKey key else .missing)

theorem ChangeTracker.Knows.setAfterKeys {tracker : ChangeTracker D} {group other : Nat}
    {known : Bool} {key : CompositeKey} (h : tracker.Knows other known key) (hn : other ≠ group)
    (after : CompositeKey) (hasChanges : Bool) :
    (tracker.setAfterKeys group after hasChanges).Knows other known key where
  through := h.through
  keys := (tracker.beforeKeys?_setAfterKeys hn after hasChanges).trans h.keys

def updateWrites (predicates : List (Predicate D)) (known : Bool) (old new : D × RecordId) :
    List IndexWrite :=
  if known then changeWrites predicates old new else [⟨keyOf predicates new.1, new.2, false⟩]

def deleteWrites (predicates : List (Predicate D)) (known : Bool) (old : D × RecordId) :
    List IndexWrite :=
  if known then [⟨keyOf predicates old.1, old.2, true⟩] else []

/-! ### One group -/

namespace Group.Indexed

variable {group : Group D} {place : Path} {disk : Disk} {predicates : List (Predicate D)}
  {index : Index} {tracker : ChangeTracker D} {old new : D × RecordId} {known : Bool}

theorem update_missing {key : CompositeKey} (h : group.Indexed place disk predicates index)
    (hk : tracker.Knows group.id false key) (ha : tracker.after = some new) :
    ∃ after other key changes, group.update tracker disk =
        (.ok (), after, tracker.setAfterKeys group.id key changes, other) ∧
      after.id = group.id ∧
      after.Indexed place other predicates
        (IndexWrite.markAll [⟨keyOf predicates new.1, new.2, false⟩] index) ∧
      Disk.Spares (· ≠ place ++ [Log.fileName]) disk other := by
  have hid : tracker.afterId = new.2 := by rw [ChangeTracker.afterId, ha]; rfl
  have hplan : group.plan (keyOf predicates new.1) tracker =
      .ok (.ofMissing (keyOf predicates new.1) new.2) := by
    rw [plan, hk.keys, hid]
    rfl
  have hfits : ∀ write ∈ [(⟨keyOf predicates new.1, new.2, false⟩ : IndexWrite)], write.Fits :=
    fun write hm => List.mem_singleton.mp hm ▸ h.sized.write new.1 new.2 false
  obtain ⟨after, other, hput, hgroup, hi, hs⟩ := h.matching hfits
  refine ⟨after, other, keyOf predicates new.1, (keyOf predicates new.1).anyMatch, ?_, hgroup, hi,
    hs⟩
  rw [Group.update, Group.captureBefore, ChangeTracker.needsBefore_through hk.through]
  simp only [Bool.false_eq_true, if_false, ha, applyAfter, h.evaluate, hplan, UpdatePlan.ofMissing,
    hput, hgroup]

theorem update_known (h : group.Indexed place disk predicates index)
    (hk : tracker.Knows group.id known (keyOf predicates old.1)) (hb : tracker.before = some old)
    (ha : tracker.after = some new)
    (hkind : tracker.kind = if new.2 = old.2 then .inPlace else .copy) :
    ∃ after other key changes, group.update tracker disk =
        (.ok (), after, tracker.setAfterKeys group.id key changes, other) ∧
      after.id = group.id ∧
      after.Indexed place other predicates
        (IndexWrite.markAll (updateWrites predicates known old new) index) ∧
      Disk.Spares (· ≠ place ++ [Log.fileName]) disk other := by
  cases known with
  | false => exact h.update_missing hk ha
  | true =>
    obtain ⟨plan, hp, hwrites⟩ := tracker.plan_changeWrites hb ha hkind predicates
    obtain ⟨after, other, hu, hid, hi, hs⟩ := h.update ⟨hk.through, hk.keys⟩ ha hp
    rw [updateWrites, if_pos rfl, ← hwrites]
    exact ⟨after, other, plan.after, plan.hasChanges, hu, hid, hi, hs⟩

theorem delete_known (h : group.Indexed place disk predicates index)
    (hk : tracker.Knows group.id known (keyOf predicates old.1)) (hb : tracker.before = some old) :
    ∃ after other, group.delete tracker disk = (.ok (), after, tracker, other) ∧
      after.id = group.id ∧
      after.Indexed place other predicates
        (IndexWrite.markAll (deleteWrites predicates known old) index) ∧
      Disk.Spares (· ≠ place ++ [Log.fileName]) disk other := by
  cases known with
  | false =>
    refine ⟨group, disk, ?_, rfl, h, .refl h.wellFormed⟩
    rw [Group.delete, Group.captureBefore, ChangeTracker.needsBefore_through hk.through]
    simp only [Bool.false_eq_true, if_false, hk.keys]
  | true =>
    have hid : tracker.beforeId = old.2 := by rw [ChangeTracker.beforeId, hb]; rfl
    rw [deleteWrites, if_pos rfl, ← hid]
    exact h.delete ⟨hk.through, hk.keys⟩

end Group.Indexed

/-! ### All groups -/

namespace Manager

variable {manager : Manager D} {disk : Disk} {base : Path} {schema : Nat → List (Predicate D)}
  {index : Nat → Index} {tracker : ChangeTracker D} {old new : D × RecordId} {known : Nat → Bool}

theorem Indexed.update_known (h : manager.Indexed disk base schema index)
    (hb : tracker.before = some old) (ha : tracker.after = some new)
    (hkind : tracker.kind = if new.2 = old.2 then .inPlace else .copy)
    (hk : ∀ group ∈ manager.groups,
      tracker.Knows group.id (known group.id) (keyOf (schema group.id) old.1)) :
    ∃ after last other, manager.update tracker disk = (.ok (), after, last, other) ∧
      manager.SameGroups after ∧ after.Indexed other base schema fun group =>
        IndexWrite.markAll (updateWrites (schema group) (known group) old new) (index group) := by
  obtain ⟨after, next, hu, hsame, hafter⟩ := h.carries
    (fun group (state : ChangeTracker D × Disk) => group.update state.1 state.2)
    (fun state => state.2)
    (fun group state => state.1.before = some old ∧ state.1.after = some new ∧
      state.1.kind = tracker.kind ∧ state.1.Knows group (known group) (keyOf (schema group) old.1))
    (fun group => updateWrites (schema group) (known group) old new)
    (fun group state place hg hindexed => by
      obtain ⟨hold, hnew, hsame, hknows⟩ := hg
      obtain ⟨after, other, key, changes, hu, hid, hafter, hs⟩ :=
        hindexed.update_known hknows hold hnew (hsame.trans hkind)
      refine ⟨after, _, hu, hid, hafter, hs, fun another hn hother => ?_⟩
      exact ⟨hother.1, hother.2.1, hother.2.2.1, hother.2.2.2.setAfterKeys hn key changes⟩)
    (tracker, disk) rfl fun group hg => ⟨hb, ha, rfl, hk group hg⟩
  exact ⟨after, next.1, next.2, hu, hsame, hafter⟩

theorem Indexed.delete_known (h : manager.Indexed disk base schema index)
    (hb : tracker.before = some old)
    (hk : ∀ group ∈ manager.groups,
      tracker.Knows group.id (known group.id) (keyOf (schema group.id) old.1)) :
    ∃ after last other, manager.delete tracker disk = (.ok (), after, last, other) ∧
      manager.SameGroups after ∧ after.Indexed other base schema fun group =>
        IndexWrite.markAll (deleteWrites (schema group) (known group) old) (index group) := by
  obtain ⟨after, next, hd, hsame, hafter⟩ := h.carries
    (fun group (state : ChangeTracker D × Disk) => group.delete state.1 state.2)
    (fun state => state.2)
    (fun group state => state.1.before = some old ∧
      state.1.Knows group (known group) (keyOf (schema group) old.1))
    (fun group => deleteWrites (schema group) (known group) old)
    (fun group state place hg hindexed => by
      obtain ⟨after, other, hd, hid, hafter, hs⟩ := hindexed.delete_known hg.2 hg.1
      exact ⟨after, _, hd, hid, hafter, hs, fun another hn hother => hother⟩)
    (tracker.setKind .delete, disk) rfl
    fun group hg => ⟨hb, (hk group hg).through, (hk group hg).keys⟩
  exact ⟨after, next.1, next.2, hd, hsame, hafter⟩

theorem missing_beginUpdate (hd : manager.groups.Pairwise fun g h => g.id ≠ h.id) (data : D)
    (id : RecordId) {group : Nat} (hn : group ∉ manager.groups.map Group.id)
    (hle : manager.groupBound ≤ group) (key : CompositeKey) :
    (manager.beginUpdate data id).Knows group false key := by
  have hevaluate : ∀ group ∈ manager.groups,
      group.evaluate data = keyOf (manager.schema group.id) data := fun group hg => by
    rw [schema_eq hd hg]
    rfl
  have hkeys := (setBeforeKeys_fold data hevaluate (ChangeTracker.setBefore data id {}) group).2
  rw [if_neg hn] at hkeys
  have hfound : (manager.beginUpdate data id).groupKeys? group = none := hkeys
  have hthrough : (manager.beginUpdate data id).capturedThrough = some manager.groupBound := rfl
  refine ⟨rfl, ?_⟩
  rw [ChangeTracker.beforeKeys?, hfound, hthrough]
  exact if_pos hle

theorem groupBound_le {n : Nat} (h : ∀ group ∈ manager.groups, group.id < n) :
    manager.groupBound ≤ n := by
  rw [groupBound]
  cases hl : manager.groups.getLast? with
  | none => exact Nat.zero_le n
  | some group => exact h group (List.mem_of_getLast? hl)

end Manager

/-! ### One key of a predicate -/

section

variable {predicates : List (Predicate D)} {n : Nat} {predicate : Predicate D}

theorem joined_or_kept {joins leaves : Prop} [Decidable joins] [Decidable leaves] {found : Bool} :
    (if joins then true else if leaves then false else found) = true ↔
      joins ∨ (found = true ∧ ¬ leaves) := by
  by_cases hj : joins <;> by_cases hl : leaves <;> simp [hj, hl]

theorem keyOf_meets_iff (h : Sized predicates) (hp : predicates[n]? = some predicate)
    (record : D × RecordId) (value : predicate.type.Value) (id : RecordId) :
    chainKey (UInt8.ofNat n) (predicate.type.encode value) ∈ (keyOf predicates record.1).chains ∧
      record.2 = id ↔ id = record.2 ∧ predicate.key record.1 = some value := by
  rw [h.mem_chains_keyOf hp, and_comm, eq_comm]

theorem mark_insert (h : Sized predicates) (hp : predicates[n]? = some predicate)
    (new : D × RecordId) (index : Index) (value : predicate.type.Value) (id : RecordId) :
    IndexWrite.mark ⟨keyOf predicates new.1, new.2, false⟩ index
        (chainKey (UInt8.ofNat n) (predicate.type.encode value)) id = true ↔
      (id = new.2 ∧ predicate.key new.1 = some value) ∨
        index (chainKey (UInt8.ofNat n) (predicate.type.encode value)) id = true := by
  rw [IndexWrite.mark, ← keyOf_meets_iff h hp]
  split
  · exact iff_of_true rfl (.inl ‹_›)
  · exact (or_iff_right ‹_›).symm

theorem mark_delete (h : Sized predicates) (hp : predicates[n]? = some predicate)
    (old : D × RecordId) (index : Index) (value : predicate.type.Value) (id : RecordId) :
    IndexWrite.mark ⟨keyOf predicates old.1, old.2, true⟩ index
        (chainKey (UInt8.ofNat n) (predicate.type.encode value)) id = true ↔
      index (chainKey (UInt8.ofNat n) (predicate.type.encode value)) id = true ∧
        ¬ (id = old.2 ∧ predicate.key old.1 = some value) := by
  rw [IndexWrite.mark, ← keyOf_meets_iff h hp]
  split
  · rename_i hj
    exact iff_of_false Bool.false_ne_true fun hc => hc.2 hj
  · exact (and_iff_left ‹_›).symm

/-- Under a key the old id leaves and the new one joins, unless the id stays and so does the output
of the predicate. -/
theorem markAll_changeWrites (h : Sized predicates) (hp : predicates[n]? = some predicate)
    (old new : D × RecordId) (index : Index) (value : predicate.type.Value) (id : RecordId) :
    IndexWrite.markAll (changeWrites predicates old new) index
        (chainKey (UInt8.ofNat n) (predicate.type.encode value)) id = true ↔
      ((id = new.2 ∧ predicate.key new.1 = some value) ∧
          (new.2 = old.2 → predicate.key new.1 ≠ predicate.key old.1)) ∨
        (index (chainKey (UInt8.ofNat n) (predicate.type.encode value)) id = true ∧
          ¬ ((id = old.2 ∧ predicate.key old.1 = some value) ∧
            (new.2 = old.2 → predicate.key new.1 ≠ predicate.key old.1))) := by
  obtain ⟨before, gone⟩ := old
  obtain ⟨after, next⟩ := new
  by_cases hn : next = gone
  · subst hn
    rw [markAll_changed h, joined_or_kept, h.mem_chains_keyOf hp, h.mem_chains_keyOf hp]
    refine or_congr ⟨?_, ?_⟩ (and_congr_right fun _ => not_congr ⟨?_, ?_⟩)
    · rintro ⟨ha, hb, rfl⟩
      exact ⟨⟨rfl, ha⟩, fun _ he => hb (he ▸ ha)⟩
    · rintro ⟨⟨rfl, ha⟩, hne⟩
      exact ⟨ha, fun hb => hne rfl (ha.trans hb.symm), rfl⟩
    · rintro ⟨hb, ha, rfl⟩
      exact ⟨⟨rfl, hb⟩, fun _ he => ha (he.trans hb)⟩
    · rintro ⟨⟨rfl, hb⟩, hne⟩
      exact ⟨hb, fun ha => hne rfl (ha.trans hb.symm), rfl⟩
  · have hmoves : next = gone → predicate.key after ≠ predicate.key before := fun he => absurd he hn
    rw [markAll_copied h before after hn, joined_or_kept, keyOf_meets_iff h hp (after, next),
      keyOf_meets_iff h hp (before, gone)]
    simp only [and_iff_left hmoves]

end

end PredicateIndex
