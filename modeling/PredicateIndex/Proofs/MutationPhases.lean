import PredicateIndex.Proofs.ReachedManagers

/-!
# The phases of a mutation

A primary store can carry out a mutation phase by phase: it hands each group the
record before the update, then the one after it, or the one that is deleted. A
group does the same then as when it is given the tracker that began the update,
since the keys that it captures in the first phase are those that were captured
when the update began.
-/

set_option autoImplicit false

namespace PredicateIndex

variable {D : Type}

theorem UpdatePlan.writes_unmatched {kind : UpdateKind} {before after : CompositeKey}
    {beforeId afterId : RecordId} {plan : UpdatePlan} (hb : before.anyMatch = false)
    (ha : after.anyMatch = false) (h : ofChange kind before after beforeId afterId = .ok plan) :
    plan.writes = [] := by
  have hmarked : (before.markChanges after).anyMatch = false :=
    (CompositeKey.anyMatch_markChanges before after).trans ha
  cases kind with
  | inPlace =>
    cases h
    rw [inPlace]
    split
    · simp only [matching, List.filter_cons, CompositeKey.anyMatch_retain hb,
        CompositeKey.anyMatch_retain hmarked, Bool.false_eq_true, if_false, List.filter_nil]
    · rfl
  | copy =>
    cases h
    simp only [copy, matching, List.filter_cons, hb, hmarked, Bool.false_eq_true, if_false,
      List.filter_nil]
  | _ => cases h

namespace ChangeTracker

structure SameEntries (tracker other : ChangeTracker D) : Prop where
  before : other.before = tracker.before
  after : other.after = tracker.after
  kind : other.kind = tracker.kind
  capturedThrough : other.capturedThrough = tracker.capturedThrough
  entries : ∀ group, other.groupKeys? group = tracker.groupKeys? group

namespace SameEntries

variable {tracker other : ChangeTracker D}

theorem beforeKeys? (h : tracker.SameEntries other) (group : Nat) :
    other.beforeKeys? group = tracker.beforeKeys? group := by
  rw [ChangeTracker.beforeKeys?, ChangeTracker.beforeKeys?, h.entries, h.capturedThrough]

theorem setAfterKeys (h : tracker.SameEntries other) (group : Nat) (after : CompositeKey)
    (hasChanges : Bool) : (tracker.setAfterKeys group after hasChanges).SameEntries
      (other.setAfterKeys group after hasChanges) := by
  refine ⟨h.before, h.after, h.kind, h.capturedThrough, fun id => ?_⟩
  rw [ChangeTracker.setAfterKeys, ChangeTracker.setAfterKeys, groupKeys?_setGroup,
    groupKeys?_setGroup, h.entries, h.entries]

theorem plan (h : tracker.SameEntries other) (group : Group D) (after : CompositeKey) :
    group.plan after other = group.plan after tracker := by
  rw [Group.plan, Group.plan, h.beforeKeys?, beforeId, beforeId, afterId, afterId, h.before,
    h.after, h.kind]

theorem applyAfter (h : tracker.SameEntries other) {group changed : Group D} {after : CompositeKey}
    {disk next : Disk} {result : Except Fault Unit} {last : ChangeTracker D}
    (ha : group.applyAfter after tracker disk = (result, changed, last, next)) :
    ∃ written, group.applyAfter after other disk = (result, changed, written, next) ∧
      last.SameEntries written := by
  rw [Group.applyAfter] at ha
  rw [Group.applyAfter, h.plan]
  rcases hp : group.plan after tracker with fault | plan <;> rw [hp] at ha
  · cases ha
    exact ⟨other, rfl, h⟩
  · dsimp only at ha ⊢
    rcases hw : Group.putAll plan.writes group disk with ⟨fault | _, put, written⟩ <;>
      rw [hw] at ha <;> cases ha
    · exact ⟨other, rfl, h⟩
    · exact ⟨_, rfl, h.setAfterKeys _ _ _⟩

end SameEntries

theorem sameEntries_setBeforeKeys {tracker : ChangeTracker D} {group : Nat} {key : CompositeKey}
    (h : tracker.groupKeys? group = some { before := .ofKey key }) :
    tracker.SameEntries (tracker.setBeforeKeys group key) := by
  refine ⟨rfl, rfl, rfl, rfl, fun id => ?_⟩
  rw [setBeforeKeys, groupKeys?_setGroup]
  split
  · rename_i he
    rw [he, h]
  · rfl

end ChangeTracker

namespace Group

variable {group : Group D} {data : D}

theorem evaluate_unmatched (h : ∀ predicate ∈ group.predicates, predicate.key data = none) :
    (group.evaluate data).anyMatch = false := by
  rw [CompositeKey.anyMatch_eq_false_iff]
  intro slot hs
  obtain ⟨n, hn⟩ := List.mem_iff_getElem?.mp hs
  rw [evaluate, CompositeKey.getElem?_ofOutputs, List.getElem?_map, Option.map_map,
    Option.map_eq_some_iff] at hn
  obtain ⟨predicate, hp, rfl⟩ := hn
  simp [Predicate.evaluate, h predicate (List.mem_of_getElem? hp)]

end Group

namespace Manager

variable {manager : Manager D}

theorem entry_beginUpdate (hd : manager.groups.Pairwise fun g h => g.id ≠ h.id)
    {registered : Group D} (hg : registered ∈ manager.groups) (data : D) (id : RecordId) :
    (manager.beginUpdate data id).before = some (data, id) ∧
      (manager.beginUpdate data id).groupKeys? registered.id =
        some { before := .ofKey (registered.evaluate data) } := by
  have hevaluate : ∀ group ∈ manager.groups,
      group.evaluate data = keyOf (manager.schema group.id) data := fun group hm => by
    rw [schema_eq hd hm]
    rfl
  obtain ⟨hbefore, hkeys⟩ :=
    setBeforeKeys_fold data hevaluate (ChangeTracker.setBefore data id {}) registered.id
  rw [if_pos (List.mem_map_of_mem hg)] at hkeys
  rw [hevaluate registered hg]
  exact ⟨hbefore, hkeys⟩

end Manager

namespace Group

variable {group : Group D} {tracker : ChangeTracker D} {old new : D × RecordId} {disk : Disk}

theorem execute_update (ht : tracker.capturedThrough.isSome) (ha : tracker.after = some new)
    (hk : tracker.groupKeys? group.id = some { before := .ofKey (group.evaluate old.1) }) :
    ∃ captured, group.execute old.1 old.2 .preUpdate (some tracker) disk =
        (.ok (), group, some captured, disk) ∧
      ∃ result after last written other, group.update tracker disk = (result, after, last, other) ∧
        group.execute new.1 new.2 .postUpdate (some captured) disk =
          (result, after, some written, other) ∧ last.SameEntries written := by
  have hsame := ChangeTracker.sameEntries_setBeforeKeys hk
  rcases happly : group.applyAfter (group.evaluate new.1) tracker disk with
    ⟨result, after, last, other⟩
  obtain ⟨written, hwritten, hentries⟩ := hsame.applyAfter happly
  refine ⟨tracker.setBeforeKeys group.id (group.evaluate old.1), rfl, result, after, last, written,
    other, ?_, ?_, hentries⟩
  · rw [update, captureBefore, ChangeTracker.needsBefore_through ht]
    simp only [Bool.false_eq_true, if_false, ha, happly]
  · rw [execute]
    simp only [hwritten]

theorem execute_delete (ht : tracker.capturedThrough.isSome) (hb : tracker.before = some old)
    (hk : tracker.groupKeys? group.id = some { before := .ofKey (group.evaluate old.1) }) :
    ∃ result after last written other, group.delete tracker disk = (result, after, last, other) ∧
      group.execute old.1 old.2 .delete (some tracker) disk =
        (result, after, some written, other) ∧ last.SameEntries written := by
  have hsame := ChangeTracker.sameEntries_setBeforeKeys hk
  have hid : tracker.beforeId = old.2 := by rw [ChangeTracker.beforeId, hb]; rfl
  have hkeys : tracker.beforeKeys? group.id = some (.ofKey (group.evaluate old.1)) := by
    rw [ChangeTracker.beforeKeys?, hk]
  rw [delete, captureBefore, ChangeTracker.needsBefore_through ht, execute]
  simp only [Bool.false_eq_true, if_false, hkeys, BeforeKeys.ofKey, hid, UpdatePlan.matching]
  cases hm : (group.evaluate old.1).anyMatch with
  | true =>
    rcases hp : group.put ⟨group.evaluate old.1, old.2, true⟩ disk with ⟨fault | _, after, other⟩ <;>
      have hafter : after.id = group.id := (congrArg (fun state => state.2.1.id) hp).symm <;>
      simp only [if_true, List.filter_cons, hm, List.filter_nil, putAll, hp, hafter] <;>
      exact ⟨_, _, _, _, _, rfl, rfl, hsame⟩
  | false =>
    simp only [Bool.false_eq_true, if_false, List.filter_cons, hm, List.filter_nil, putAll]
    exact ⟨_, _, _, _, _, rfl, rfl, hsame⟩

theorem update_unmatched (ht : tracker.capturedThrough.isSome) (ha : tracker.after = some new)
    (hkind : tracker.kind = .inPlace ∨ tracker.kind = .copy)
    (hk : tracker.groupKeys? group.id = some { before := .ofKey (group.evaluate old.1) })
    (hold : (group.evaluate old.1).anyMatch = false)
    (hnew : (group.evaluate new.1).anyMatch = false) :
    ∃ last, group.update tracker disk = (.ok (), group, last, disk) := by
  have hkeys : tracker.beforeKeys? group.id = some .noMatch := by
    rw [ChangeTracker.beforeKeys?, hk, BeforeKeys.ofKey, hold]
    rfl
  have hnone : (CompositeKey.unmatched group.size).anyMatch = false := by
    rw [CompositeKey.anyMatch_eq_false_iff]
    intro slot hs
    obtain ⟨n, hn⟩ := List.mem_iff_getElem?.mp hs
    rw [CompositeKey.unmatched, CompositeKey.getElem?_ofOutputs, Option.map_eq_some_iff] at hn
    obtain ⟨output, ho, rfl⟩ := hn
    exact List.eq_of_mem_replicate (List.mem_of_getElem? ho)
  obtain ⟨plan, hp⟩ : ∃ plan, UpdatePlan.ofChange tracker.kind (.unmatched group.size)
      (group.evaluate new.1) tracker.beforeId tracker.afterId = .ok plan := by
    rcases hkind with hkind | hkind <;> rw [hkind] <;> exact ⟨_, rfl⟩
  have hwrites := UpdatePlan.writes_unmatched hnone hnew hp
  rw [update, captureBefore, ChangeTracker.needsBefore_through ht]
  simp only [Bool.false_eq_true, if_false, ha, applyAfter, Group.plan, hkeys, hp, hwrites, putAll]
  exact ⟨_, rfl⟩

theorem delete_unmatched (ht : tracker.capturedThrough.isSome)
    (hk : tracker.groupKeys? group.id = some { before := .ofKey (group.evaluate old.1) })
    (hold : (group.evaluate old.1).anyMatch = false) :
    group.delete tracker disk = (.ok (), group, tracker, disk) := by
  have hkeys : tracker.beforeKeys? group.id = some .noMatch := by
    rw [ChangeTracker.beforeKeys?, hk, BeforeKeys.ofKey, hold]
    rfl
  rw [delete, captureBefore, ChangeTracker.needsBefore_through ht]
  simp only [Bool.false_eq_true, if_false, hkeys]

end Group

/-- What a primary store does to a group phase by phase for a record that an update began with, in
any state of the store of the group: both phases of the update have the result of the update that
the tracker carries, leave the same group on the same disk, with the same log and the same heads,
and the same entries in the tracker; so has the phase of a deletion. Where no predicate of the group
matches the records nothing is written either way. -/
theorem phases_agree {begun : Chronicle D} (hr : begun.Reached) {registered : Group D}
    (hg : registered ∈ begun.manager.groups) (old new : D × RecordId) {group : Group D}
    (hid : group.id = registered.id) (hp : group.predicates = registered.predicates)
    (disk : Disk) :
    (∃ captured, group.execute old.1 old.2 .preUpdate
          (some ((begun.manager.beginUpdate old.1 old.2).setAfter new.1 new.2)) disk =
        (.ok (), group, some captured, disk) ∧
      ∃ result after last written other,
        group.update ((begun.manager.beginUpdate old.1 old.2).setAfter new.1 new.2) disk =
          (result, after, last, other) ∧
        group.execute new.1 new.2 .postUpdate (some captured) disk =
          (result, after, some written, other) ∧ last.SameEntries written ∧
        ((∀ predicate ∈ group.predicates, predicate.key old.1 = none) →
          (∀ predicate ∈ group.predicates, predicate.key new.1 = none) →
            result = .ok () ∧ after = group ∧ other = disk)) ∧
    ∀ tracker ∈ [begun.manager.beginUpdate old.1 old.2,
        (begun.manager.beginUpdate old.1 old.2).setAfter new.1 new.2],
      ∃ result after last written other, group.delete tracker disk = (result, after, last, other) ∧
        group.execute old.1 old.2 .delete (some tracker) disk =
          (result, after, some written, other) ∧ last.SameEntries written ∧
        ((∀ predicate ∈ group.predicates, predicate.key old.1 = none) →
          result = .ok () ∧ after = group ∧ other = disk) := by
  have hsame : group.evaluate old.1 = registered.evaluate old.1 := by
    rw [Group.evaluate, hp, Group.evaluate]
  obtain ⟨hbefore, hentry⟩ := Manager.entry_beginUpdate hr.live.stands.distinct hg old.1 old.2
  rw [← hid, ← hsame] at hentry
  refine ⟨?update, fun tracker ht => ?deletion⟩
  case update =>
    have hkind : ((begun.manager.beginUpdate old.1 old.2).setAfter new.1 new.2).kind = .inPlace ∨
        ((begun.manager.beginUpdate old.1 old.2).setAfter new.1 new.2).kind = .copy := by
      simp only [ChangeTracker.setAfter, hbefore]
      split
      · exact .inl rfl
      · exact .inr rfl
    obtain ⟨captured, hfirst, result, after, last, written, other, hu, hsecond, hentries⟩ :=
      @Group.execute_update D group
        ((begun.manager.beginUpdate old.1 old.2).setAfter new.1 new.2) old new disk rfl rfl hentry
    refine ⟨captured, hfirst, result, after, last, written, other, hu, hsecond, hentries,
      fun hold hnew => ?_⟩
    obtain ⟨kept, hkept⟩ := @Group.update_unmatched D group _ old new disk rfl rfl hkind hentry
      (Group.evaluate_unmatched hold) (Group.evaluate_unmatched hnew)
    rw [hu] at hkept
    cases hkept
    exact ⟨rfl, rfl, rfl⟩
  case deletion =>
    have hfacts : tracker.capturedThrough.isSome ∧ tracker.before = some old ∧
        tracker.groupKeys? group.id = some { before := .ofKey (group.evaluate old.1) } := by
      rcases List.mem_pair.mp ht with rfl | rfl <;> exact ⟨rfl, hbefore, hentry⟩
    obtain ⟨hthrough, hold, hkeys⟩ := hfacts
    obtain ⟨result, after, last, written, other, hd, hphase, hentries⟩ :=
      @Group.execute_delete D group tracker old disk hthrough hold hkeys
    refine ⟨result, after, last, written, other, hd, hphase, hentries, fun hnone => ?_⟩
    have hkept := @Group.delete_unmatched D group tracker old disk hthrough hkeys
      (Group.evaluate_unmatched hnone)
    rw [hd] at hkept
    cases hkept
    exact ⟨rfl, rfl, rfl⟩

def numberMoved : Bool :=
  match numbersStored with
  | none => false
  | some begun =>
    match begun.manager.groups with
    | [group] =>
      match group.update ((begun.manager.beginUpdate 4 ⟨7, 1⟩).setAfter 3 ⟨5, 5⟩) begun.disk,
          group.delete (begun.manager.beginUpdate 4 ⟨7, 1⟩) begun.disk with
      | (.ok (), after, last, _), (.ok (), gone, _, _) =>
        decide (group.store.log.tail < after.store.log.tail) && last.hasChanges group.id &&
          decide (group.store.log.tail < gone.store.log.tail)
      | _, _ => false
    | _ => false

theorem phases_agree_moved_number : ∃ (begun : Chronicle Nat) (group after gone : Group Nat)
    (captured last written taken undone : ChangeTracker Nat) (other rest : Disk),
    begun.Reached ∧ group ∈ begun.manager.groups ∧
      group.execute 4 ⟨7, 1⟩ .preUpdate
          (some ((begun.manager.beginUpdate 4 ⟨7, 1⟩).setAfter 3 ⟨5, 5⟩)) begun.disk =
        (.ok (), group, some captured, begun.disk) ∧
      group.update ((begun.manager.beginUpdate 4 ⟨7, 1⟩).setAfter 3 ⟨5, 5⟩) begun.disk =
        (.ok (), after, last, other) ∧
      group.execute 3 ⟨5, 5⟩ .postUpdate (some captured) begun.disk =
        (.ok (), after, some written, other) ∧ last.SameEntries written ∧
      group.store.log.tail < after.store.log.tail ∧ last.hasChanges group.id = true ∧
      group.delete (begun.manager.beginUpdate 4 ⟨7, 1⟩) begun.disk =
        (.ok (), gone, taken, rest) ∧
      group.execute 4 ⟨7, 1⟩ .delete (some (begun.manager.beginUpdate 4 ⟨7, 1⟩)) begun.disk =
        (.ok (), gone, some undone, rest) ∧ taken.SameEntries undone ∧
      group.store.log.tail < gone.store.log.tail := by
  have hfacts : numberMoved = true := by decide +kernel
  unfold numberMoved at hfacts
  cases hstored : numbersStored with
  | none =>
    rw [hstored] at hfacts
    cases hfacts
  | some begun =>
    have hreached := Chronicle.reached_of_deeds hstored
    simp only [hstored] at hfacts
    split at hfacts
    · rename_i group hgroups
      have hg : group ∈ begun.manager.groups := by simp [hgroups]
      obtain ⟨⟨captured, hfirst, result, after, last, written, other, hu, hsecond, hentries, -⟩,
        hdelete⟩ := phases_agree hreached hg (4, ⟨7, 1⟩) (3, ⟨5, 5⟩) rfl rfl begun.disk
      obtain ⟨outcome, gone, taken, undone, rest, hd, hphase, htaken, -⟩ :=
        hdelete (begun.manager.beginUpdate 4 ⟨7, 1⟩) List.mem_cons_self
      rw [hu, hd] at hfacts
      rcases result with fault | done
      · cases hfacts
      rcases outcome with fault | done
      · cases hfacts
      simp only [Bool.and_eq_true, decide_eq_true_eq] at hfacts
      obtain ⟨⟨hlonger, hchanges⟩, hgone⟩ := hfacts
      exact ⟨begun, group, after, gone, captured, last, written, taken, undone, other, rest, hreached,
        hg, hfirst, hu, hsecond, hentries, hlonger, hchanges, hd, hphase, htaken, hgone⟩
    · cases hfacts

end PredicateIndex
