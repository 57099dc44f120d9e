import PredicateIndex.Proofs.AppendedRecords
import PredicateIndex.Proofs.ReachedManagers

/-!
# The records of an update

An update appends at most two records to the log of a group: a tombstone for the
id before it, on the chains that this id leaves, and then a live record for the
id after it, on the chains that that one joins. Whether there is any of them is
what the tracker then says about the keys of the group: a different expression
for each kind of update, and the same in all states of the keys before it.
-/

set_option autoImplicit false

namespace PredicateIndex

variable {D : Type}

namespace CompositeKey

variable {before after : CompositeKey} {ordinal : UInt8}

theorem anyMatch_iff_chains (key : CompositeKey) :
    key.anyMatch = true ↔ ∃ ordinal code, chainKey ordinal code ∈ key.chains := by
  rw [anyMatch, List.any_eq_true]
  constructor
  · rintro ⟨slot, hs, hk⟩
    cases hc : slot.key with
    | none => simp [Slot.isNull, hc] at hk
    | some code => exact ⟨slot.ordinal, code, mem_chains.mpr ⟨slot, hs, by rw [Slot.chain?, hc]; rfl⟩⟩
  · rintro ⟨ordinal, code, hc⟩
    obtain ⟨slot, hs, hchain⟩ := mem_chains.mp hc
    obtain ⟨found, hk, -⟩ := Option.map_eq_some_iff.mp hchain
    exact ⟨slot, hs, by simp [Slot.isNull, hk]⟩

theorem changed_iff (hb : before.length ≤ 255) :
    before.changed after = true ↔ ∃ ordinal, before.DiffersAt after ordinal := by
  have hpositions : before.changed after = true ↔ ∃ (i : Nat) (old new : Slot),
      before[i]? = some old ∧ after[i]? = some new ∧ old.key ≠ new.key := by
    clear hb
    induction before generalizing after with
    | nil => simp [changed]
    | cons old olds ih =>
      cases after with
      | nil => simp [changed]
      | cons new news =>
        rw [changed, Bool.or_eq_true, ih, decide_eq_true_eq]
        constructor
        · rintro (hne | ⟨i, first, second, hf, hs, hne⟩)
          · exact ⟨0, old, new, rfl, rfl, hne⟩
          · exact ⟨i + 1, first, second, hf, hs, hne⟩
        · rintro ⟨i, first, second, hf, hs, hne⟩
          cases i with
          | zero =>
            cases hf
            cases hs
            exact .inl hne
          | succ i => exact .inr ⟨i, first, second, hf, hs, hne⟩
  rw [hpositions]
  constructor
  · rintro ⟨i, old, new, ho, hn, hne⟩
    have hi : i < before.length := (List.getElem?_eq_some_iff.mp ho).1
    exact ⟨UInt8.ofNat i, old, new, slot?_of_getElem? (by omega) ho,
      slot?_of_getElem? (by omega) hn, hne⟩
  · rintro ⟨ordinal, old, new, ho, hn, hne⟩
    exact ⟨ordinal.toNat, old, new, ho, hn, hne⟩

theorem DiffersAt.exists_code (h : before.DiffersAt after ordinal) :
    ∃ code, before.keyAt? ordinal = some code ∨ after.keyAt? ordinal = some code := by
  obtain ⟨old, new, ho, hn, hne⟩ := h
  rw [keyAt?, keyAt?, ho, hn]
  cases hold : old.key with
  | some code => exact ⟨code, .inl hold⟩
  | none =>
    cases hnew : new.key with
    | some code => exact ⟨code, .inr hnew⟩
    | none => exact absurd (hold.trans hnew.symm) hne

end CompositeKey

namespace UpdatePlan

variable {before after : CompositeKey}

theorem mem_chains_left_iff (hb : before.Fits ∧ before.Ordered) (hf : after.Fresh)
    (ordinal : UInt8) (code : Bytes) :
    chainKey ordinal code ∈ (left before after).chains ↔
      chainKey ordinal code ∈ before.chains ∧ before.DiffersAt after ordinal := by
  have hleft : (left before after).Fits ∧ (left before after).Ordered :=
    ⟨CompositeKey.fits_retain hb.1 _, CompositeKey.ordered_retain hb.2 _⟩
  rw [CompositeKey.mem_chains_keyAt? hleft.2 hleft.1.1, CompositeKey.mem_chains_keyAt? hb.2 hb.1.1,
    keyAt?_left_iff hb.2 hf]

theorem mem_chains_joined_iff (ha : after.Fits ∧ after.Ordered) (hf : after.Fresh)
    (ordinal : UInt8) (code : Bytes) :
    chainKey ordinal code ∈ (joined before after).chains ↔
      chainKey ordinal code ∈ after.chains ∧ before.DiffersAt after ordinal := by
  have hjoined : (joined before after).Fits ∧ (joined before after).Ordered :=
    ⟨CompositeKey.fits_retain (CompositeKey.fits_markChanges before ha.1) _,
      CompositeKey.ordered_retain (CompositeKey.ordered_markChanges ha.2) _⟩
  rw [CompositeKey.mem_chains_keyAt? hjoined.2 hjoined.1.1,
    CompositeKey.mem_chains_keyAt? ha.2 ha.1.1, keyAt?_joined_iff hf]

theorem mem_chains_marked_iff (ha : after.Fits ∧ after.Ordered) (ordinal : UInt8) (code : Bytes) :
    chainKey ordinal code ∈ (before.markChanges after).chains ↔
      chainKey ordinal code ∈ after.chains := by
  rw [CompositeKey.mem_chains_keyAt? (CompositeKey.ordered_markChanges ha.2)
    (CompositeKey.fits_markChanges before ha.1).1, CompositeKey.keyAt?_markChanges,
    CompositeKey.mem_chains_keyAt? ha.2 ha.1.1]

/-- The chains that an update leaves: those of the key before it, when that one is known; all of
them for a copy, and where the keys differ for an update in place. -/
def Leaves (kind : UpdateKind) (known : Option CompositeKey) (after : CompositeKey)
    (ordinal : UInt8) (code : Bytes) : Prop :=
  ∃ before, known = some before ∧ chainKey ordinal code ∈ before.chains ∧
    (kind = .copy ∨ before.DiffersAt after ordinal)

/-- The chains that it joins: those of the key after it; all of them for a copy and where no key
before it is known, and where the keys differ for an update in place. -/
def Joins (kind : UpdateKind) (known : Option CompositeKey) (after : CompositeKey)
    (ordinal : UInt8) (code : Bytes) : Prop :=
  chainKey ordinal code ∈ after.chains ∧
    ∀ before, known = some before → kind = .copy ∨ before.DiffersAt after ordinal

def Moves (plan : UpdatePlan) (beforeId afterId : RecordId) (leaves joins : UInt8 → Bytes → Prop) :
    Prop :=
  ∃ off on : CompositeKey, plan.writes = matching [⟨off, beforeId, true⟩, ⟨on, afterId, false⟩] ∧
    (plan.hasChanges = true ↔ off.anyMatch = true ∨ on.anyMatch = true) ∧
    (∀ ordinal code, chainKey ordinal code ∈ off.chains ↔ leaves ordinal code) ∧
    ∀ ordinal code, chainKey ordinal code ∈ on.chains ↔ joins ordinal code

namespace Moves

variable {plan : UpdatePlan} {kind : UpdateKind} {beforeId afterId : RecordId}
  {leaves joins : UInt8 → Bytes → Prop}

theorem ofMissing (kind : UpdateKind) (after : CompositeKey) (beforeId afterId : RecordId) :
    (UpdatePlan.ofMissing after afterId).Moves beforeId afterId (Leaves kind none after)
      (Joins kind none after) := by
  refine ⟨[], after, rfl, ?_, fun ordinal code => ?_, fun ordinal code => ?_⟩
  · exact (or_iff_right Bool.false_ne_true).symm
  · simp [Leaves, CompositeKey.chains]
  · simp [Joins]

theorem inPlace (hb : before.Fits ∧ before.Ordered) (ha : after.Fits ∧ after.Ordered)
    (hf : after.Fresh) (beforeId afterId : RecordId) :
    (UpdatePlan.inPlace before after beforeId afterId).Moves beforeId afterId
      (Leaves .inPlace (some before) after) (Joins .inPlace (some before) after) := by
  have hleft := mem_chains_left_iff hb hf
  have hjoined := @mem_chains_joined_iff before after ha hf
  have hchanged : before.changed after = true ↔
      (left before after).anyMatch = true ∨ (joined before after).anyMatch = true := by
    rw [CompositeKey.changed_iff hb.1.1, CompositeKey.anyMatch_iff_chains,
      CompositeKey.anyMatch_iff_chains]
    simp only [hleft, hjoined]
    constructor
    · rintro ⟨ordinal, hd⟩
      obtain ⟨code, hc | hc⟩ := hd.exists_code
      · exact .inl ⟨ordinal, code, (CompositeKey.mem_chains_keyAt? hb.2 hb.1.1 _ _).mpr hc, hd⟩
      · exact .inr ⟨ordinal, code, (CompositeKey.mem_chains_keyAt? ha.2 ha.1.1 _ _).mpr hc, hd⟩
    · rintro (⟨ordinal, code, -, hd⟩ | ⟨ordinal, code, -, hd⟩) <;> exact ⟨ordinal, hd⟩
  refine ⟨left before after, joined before after, ?_, ?_, fun ordinal code => ?_,
    fun ordinal code => ?_⟩
  · rw [UpdatePlan.inPlace]
    by_cases hc : before.changed after = true
    · rw [if_pos hc]
      rfl
    · -- without a change neither of the two writes has a key
      have hnone := not_or.mp (mt hchanged.mpr hc)
      simp only [Bool.not_eq_true] at hnone
      rw [if_neg hc]
      simp [matching, hnone.1, hnone.2]
  · rw [← hchanged, UpdatePlan.inPlace]
    cases before.changed after <;> simp
  · rw [hleft, Leaves]
    simp
  · rw [hjoined, Joins]
    simp

theorem copy (hb : before.Fits ∧ before.Ordered) (ha : after.Fits ∧ after.Ordered)
    (beforeId afterId : RecordId) :
    (UpdatePlan.copy before after beforeId afterId).Moves beforeId afterId
      (Leaves .copy (some before) after) (Joins .copy (some before) after) := by
  refine ⟨before, before.markChanges after, rfl, ?_, fun ordinal code => ?_, fun ordinal code => ?_⟩
  · show (before.changed after || before.anyMatch || after.anyMatch) = true ↔ _
    rw [CompositeKey.anyMatch_markChanges, Bool.or_eq_true, Bool.or_eq_true, or_assoc]
    refine or_iff_right_of_imp fun hc => ?_
    -- where two keys differ one of them has a key
    obtain ⟨ordinal, hd⟩ := (CompositeKey.changed_iff hb.1.1).mp hc
    rw [CompositeKey.anyMatch_iff_chains, CompositeKey.anyMatch_iff_chains]
    obtain ⟨code, hc | hc⟩ := hd.exists_code
    · exact .inl ⟨ordinal, code, (CompositeKey.mem_chains_keyAt? hb.2 hb.1.1 _ _).mpr hc⟩
    · exact .inr ⟨ordinal, code, (CompositeKey.mem_chains_keyAt? ha.2 ha.1.1 _ _).mpr hc⟩
  · simp [Leaves]
  · rw [mem_chains_marked_iff ha, Joins]
    simp

theorem order (h : plan.Moves beforeId afterId leaves joins) :
    (plan.writes.map fun write => (write.id, write.tombstone)).Sublist
      [(beforeId, true), (afterId, false)] := by
  obtain ⟨off, on, hw, -⟩ := h
  rw [hw, matching]
  exact List.filter_sublist.map fun write : IndexWrite => (write.id, write.tombstone)

theorem exists_matching (writes : List IndexWrite) (tombstone : Bool) (chain : Bytes) :
    (∃ write ∈ matching writes, write.tombstone = tombstone ∧ chain ∈ write.key.chains) ↔
      ∃ write ∈ writes, write.tombstone = tombstone ∧ chain ∈ write.key.chains := by
  constructor
  · rintro ⟨write, hw, hsays⟩
    exact ⟨write, (List.mem_filter.mp hw).1, hsays⟩
  · rintro ⟨write, hw, htombstone, hc⟩
    refine ⟨write, List.mem_filter.mpr ⟨hw, ?_⟩, htombstone, hc⟩
    by_contra hn
    rw [CompositeKey.chains_of_unmatched (by simpa using hn)] at hc
    cases hc

theorem off (h : plan.Moves beforeId afterId leaves joins) (ordinal : UInt8) (code : Bytes) :
    (∃ write ∈ plan.writes, write.tombstone = true ∧ chainKey ordinal code ∈ write.key.chains) ↔
      leaves ordinal code := by
  obtain ⟨off, on, hw, -, hoff, -⟩ := h
  rw [hw, exists_matching, ← hoff]
  simp

theorem on (h : plan.Moves beforeId afterId leaves joins) (ordinal : UInt8) (code : Bytes) :
    (∃ write ∈ plan.writes, write.tombstone = false ∧ chainKey ordinal code ∈ write.key.chains) ↔
      joins ordinal code := by
  obtain ⟨off, on, hw, -, -, hon⟩ := h
  rw [hw, exists_matching, ← hon]
  simp

theorem changes (h : plan.Moves beforeId afterId leaves joins) :
    plan.hasChanges = true ↔ plan.writes ≠ [] := by
  obtain ⟨off, on, hw, hchanges, -⟩ := h
  rw [hchanges, hw, matching, List.filter_cons, List.filter_cons]
  cases off.anyMatch <;> cases on.anyMatch <;> simp

end Moves

end UpdatePlan

def BeforeKeys.key? (size : Nat) : BeforeKeys → Option CompositeKey
  | .captured key => some key
  | .noMatch => some (.unmatched size)
  | .missing => none

namespace Group

variable {group after : Group D} {disk other : Disk} {tracker last : ChangeTracker D}

theorem plan_moves (hs : Sized group.predicates) (ht : tracker.Fits)
    (hk : tracker.kind = .inPlace ∨ tracker.kind = .copy) {data : D} {plan : UpdatePlan}
    (hp : group.plan (group.evaluate data) tracker = .ok plan) :
    ∃ known, tracker.beforeKeys? group.id = some known ∧
      plan.Moves tracker.beforeId tracker.afterId
        (UpdatePlan.Leaves tracker.kind (known.key? group.size) (group.evaluate data))
        (UpdatePlan.Joins tracker.kind (known.key? group.size) (group.evaluate data)) := by
  have hafter := hs.write data tracker.afterId false
  have hfresh : (group.evaluate data).Fresh := CompositeKey.fresh_ofOutputs _
  have hchange : ∀ before : CompositeKey, before.Fits ∧ before.Ordered →
      UpdatePlan.ofChange tracker.kind before (group.evaluate data) tracker.beforeId tracker.afterId =
        .ok plan → plan.Moves tracker.beforeId tracker.afterId
          (UpdatePlan.Leaves tracker.kind (some before) (group.evaluate data))
          (UpdatePlan.Joins tracker.kind (some before) (group.evaluate data)) := by
    intro before hbefore h
    rcases hk with hk | hk <;> rw [hk] at h ⊢ <;> cases h
    · exact .inPlace hbefore hafter hfresh _ _
    · exact .copy hbefore hafter _ _
  rw [Group.plan] at hp
  split at hp
  · cases hp
  · rename_i hb
    cases hp
    exact ⟨.missing, hb, .ofMissing _ _ _ _⟩
  · rename_i hb
    refine ⟨.noMatch, hb, hchange _ ⟨CompositeKey.fits_ofOutputs ?_ ?_,
      CompositeKey.ordered_ofOutputs _⟩ hp⟩
    · rw [List.length_replicate]
      exact hs.count
    · intro code hc
      cases List.eq_of_mem_replicate hc
  · rename_i before hb
    exact ⟨.captured before, hb, hchange before (ht.captured hb) hp⟩

end Group

namespace Store

theorem Keeps.tail_lt_iff {store after : Store} {place : Path} {disk other : Disk}
    {history added : List LogRecord} (h : store.Keeps disk place history)
    (ha : after.Keeps other place (history ++ added)) :
    store.log.tail < after.log.tail ↔ added ≠ [] := by
  rw [h.tail_eq, ha.tail_eq, Log.image_append, List.length_append, ← Nat.add_assoc,
    Nat.lt_add_right_iff_pos]
  constructor
  · rintro hlt rfl
    exact Nat.lt_irrefl 0 hlt
  · intro hne
    exact Nat.lt_of_lt_of_le (List.length_pos_iff.mpr hne) (Log.length_le_image added)

end Store

/-- An update that a group of a manager carries out, for a tracker that carries a record before it
and one after it: the tracker tells of changes if and only if the tail of the log has moved. The
records that were appended are at most a tombstone for the id before the update, then at most a live
record for the id after it. The tombstone is on the chains that the update leaves and the live
record on those that it joins, by the key before it that the group has captured. -/
theorem update_tells_records {current : Chronicle D} (hr : current.Reached) {group : Group D}
    (hg : group ∈ current.manager.groups) {tracker : ChangeTracker D} (ht : tracker.Fits)
    {old new : D × RecordId} (hb : tracker.before = some old) (ha : tracker.after = some new)
    (hk : tracker.kind = .inPlace ∨ tracker.kind = .copy) {after : Group D}
    {last : ChangeTracker D} {other : Disk}
    (hu : group.update tracker current.disk = (.ok (), after, last, other)) :
    (last.hasChanges group.id = true ↔ group.store.log.tail < after.store.log.tail) ∧
    ∃ captured known entries added, group.captureBefore tracker = .ok captured ∧
      captured.beforeKeys? group.id = some known ∧
      group.store.records current.disk = .ok entries ∧
      after.store.records other = .ok (entries ++ added) ∧
      (added.map fun entry => (entry.2.id, entry.2.tombstone)).Sublist
        [(old.2, true), (new.2, false)] ∧
      ∀ ordinal code,
        ((∃ entry ∈ added, entry.2.tombstone = true ∧
            chainKey ordinal code ∈ entry.2.key.chains) ↔
          UpdatePlan.Leaves tracker.kind (known.key? group.size) (group.evaluate new.1) ordinal
            code) ∧
        ((∃ entry ∈ added, entry.2.tombstone = false ∧
            chainKey ordinal code ∈ entry.2.key.chains) ↔
          UpdatePlan.Joins tracker.kind (known.key? group.size) (group.evaluate new.1) ordinal
            code) := by
  obtain ⟨place, hlegible⟩ := hr.live.legible group hg
  obtain ⟨captured, found, plan, hc, hf, hp, hput, rfl⟩ := Group.update_ok hu
  obtain ⟨hbefore, hafter, hkind⟩ := Group.captureBefore_carries hc
  obtain rfl := Option.some.inj ((hafter.trans ha).symm.trans hf)
  have hfits := Group.Runs.captureBefore hlegible.sized ht hc
  obtain ⟨known, hknown, hmoves⟩ := Group.plan_moves hlegible.sized hfits (hkind ▸ hk) hp
  have hold : captured.beforeId = old.2 := by rw [ChangeTracker.beforeId, hbefore, hb]; rfl
  have hnew : captured.afterId = new.2 := by rw [ChangeTracker.afterId, hafter, ha]; rfl
  rw [hold, hnew, hkind] at hmoves
  have happends := Group.Appends.putAll_ok hlegible (Group.Runs.plan hlegible.sized hfits hp) hput
  obtain ⟨history, hkeeps, -⟩ := hlegible.records
  obtain ⟨added, hkept, hadded, -⟩ := happends.records history hkeeps
  -- the records at their addresses are those that were added
  have hentries : ∀ told : LogRecord → Prop,
      (∃ entry ∈ Log.addressed (Log.origin + (Log.image history).length) added, told entry.2) ↔
        ∃ record ∈ added, told record := by
    intro told
    conv_rhs => rw [← Log.map_addressed (Log.origin + (Log.image history).length) added]
    simp only [List.mem_map, exists_exists_and_eq_and]
  refine ⟨?changes, captured, known, Log.addressed Log.origin history,
    Log.addressed (Log.origin + (Log.image history).length) added, hc, hknown, hkeeps.records, ?_,
    ?order, fun ordinal code => ⟨?left, ?joined⟩⟩
  case changes =>
    have hwrites : plan.writes ≠ [] ↔ added ≠ [] := by
      rw [not_iff_not, ← List.map_eq_nil_iff (f := IndexWrite.record), ← hadded, List.map_eq_nil_iff]
    rw [ChangeTracker.hasChanges, ChangeTracker.setAfterKeys, ChangeTracker.groupKeys?_setGroup,
      if_pos rfl, hkeeps.tail_lt_iff hkept, ← hwrites]
    exact hmoves.changes
  · rw [hkept.records, Log.addressed_append]
  case order =>
    have hsame : added.map (fun record => (record.id, record.tombstone)) =
        plan.writes.map fun write => (write.id, write.tombstone) := by
      have hmap := congrArg (List.map fun record => (record.id, record.tombstone)) hadded
      rwa [List.map_map, List.map_map] at hmap
    have haddressed : (Log.addressed (Log.origin + (Log.image history).length) added).map
        (fun entry => (entry.2.id, entry.2.tombstone)) =
          added.map fun record => (record.id, record.tombstone) := by
      conv_rhs => rw [← Log.map_addressed (Log.origin + (Log.image history).length) added]
      rw [List.map_map]
      rfl
    rw [haddressed, hsame]
    exact hmoves.order
  case left =>
    rw [hentries fun record => record.tombstone = true ∧ chainKey ordinal code ∈ record.key.chains,
      Store.exists_record_iff hadded fun _ tombstone chains =>
        tombstone = true ∧ chainKey ordinal code ∈ chains]
    exact hmoves.off ordinal code
  case joined =>
    rw [hentries fun record => record.tombstone = false ∧ chainKey ordinal code ∈ record.key.chains,
      Store.exists_record_iff hadded fun _ tombstone chains =>
        tombstone = false ∧ chainKey ordinal code ∈ chains]
    exact hmoves.on ordinal code

def numberChanged : Bool :=
  match numbersStored with
  | none => false
  | some current =>
    match current.manager.groups with
    | [group] =>
      match group.update ((({} : ChangeTracker Nat).setBefore 6 ⟨7, 1⟩).setAfter 5 ⟨7, 1⟩)
        current.disk with
      | (.ok (), _, last, _) => last.hasChanges group.id
      | (.error _, _, _, _) => false
    | _ => false

theorem update_tells_records_changed_number : ∃ (current : Chronicle Nat) (group after : Group Nat)
    (tracker last : ChangeTracker Nat) (other : Disk) (entries added : List (Nat × LogRecord)),
    current.Reached ∧ group ∈ current.manager.groups ∧ tracker.Fits ∧
      tracker.before = some (6, ⟨7, 1⟩) ∧ tracker.after = some (5, ⟨7, 1⟩) ∧
      tracker.kind = .inPlace ∧ group.update tracker current.disk = (.ok (), after, last, other) ∧
      last.hasChanges group.id = true ∧ group.store.log.tail < after.store.log.tail ∧
      group.store.records current.disk = .ok entries ∧
      after.store.records other = .ok (entries ++ added) ∧
      (added.map fun entry => (entry.2.id, entry.2.tombstone)).Sublist
        [(⟨7, 1⟩, true), (⟨7, 1⟩, false)] := by
  have hfacts : numberChanged = true := by decide +kernel
  unfold numberChanged at hfacts
  cases hstored : numbersStored with
  | none =>
    rw [hstored] at hfacts
    cases hfacts
  | some current =>
    have hreached := Chronicle.reached_of_deeds hstored
    simp only [hstored] at hfacts
    split at hfacts
    · rename_i group hgroups
      have hg : group ∈ current.manager.groups := by simp [hgroups]
      split at hfacts
      · rename_i after last other hu
        have hfits : ((({} : ChangeTracker Nat).setBefore 6 ⟨7, 1⟩).setAfter 5 ⟨7, 1⟩).Fits :=
          ChangeTracker.fits_of_groups rfl
        obtain ⟨hchanges, captured, known, entries, added, -, -, hentries, hadded, horder, -⟩ :=
          update_tells_records hreached hg hfits rfl rfl (.inl rfl) hu
        exact ⟨current, group, after, _, last, other, entries, added, hreached, hg, hfits, rfl, rfl,
          rfl, hu, hfacts, hchanges.mp hfacts, hentries, hadded, horder⟩
      · cases hfacts
    · cases hfacts

end PredicateIndex
