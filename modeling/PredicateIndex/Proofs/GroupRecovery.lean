import PredicateIndex.Proofs.ManagerAnswers
import PredicateIndex.Proofs.ManagerFiles
import PredicateIndex.Proofs.Snapshots

/-!
# Groups that come back to a snapshot

When a group is opened where snapshots were completed, its store finds the
newest of them. Recovery gives it the records of that snapshot, so all its
chains read as they did then, and it works on with right notes.
-/

set_option autoImplicit false

namespace PredicateIndex

open Manager

variable {D : Type}

def Snapshot.Fits (snapshot : Snapshot D) : Prop :=
  ∀ group ∈ snapshot.manager.groups,
    Moment.Fits ⟨.full, snapshot.token, group.store, snapshot.disk⟩ ∧
      group.store.log.tail ≤ Disk.offsetLimit

instance (snapshot : Snapshot D) : Decidable snapshot.Fits :=
  inferInstanceAs (Decidable (∀ group ∈ snapshot.manager.groups, _ ∧ _))

theorem Snapshot.Fits.moment? {snapshot : Snapshot D} (h : snapshot.Fits) {id : Nat}
    {moment : Moment} (hm : snapshot.moment? id = some moment) : moment.Fits := by
  obtain ⟨group, hfind, rfl⟩ := Option.map_eq_some_iff.mp hm
  exact (h group (List.mem_of_find?_eq_some hfind)).1

namespace Group

structure Wakes (group : Group D) (plan : Plan D) (completed : List (Snapshot D)) (disk : Disk) :
    Prop extends group.Planned plan disk where
  arises : group.store.Arises disk (groupPlace plan.base group.id)
    (completed.filterMap (·.moment? group.id))

structure Restored (group : Group D) (plan : Plan D) (completed : List (Snapshot D))
    (snapshot : Snapshot D) (disk : Disk) : Prop extends group.Planned plan disk where
  lastCheckpoint : group.store.lastCheckpoint = some snapshot.token
  whole : ∃ history,
    (group.course { completed } disk).Whole (groupPlace plan.base group.id) history ∧
    ∀ moment, snapshot.moment? group.id = some moment →
      moment.Captured (groupPlace plan.base group.id) history

variable {group : Group D} {plan : Plan D} {completed : List (Snapshot D)} {snapshot : Snapshot D}
  {disk other : Disk} {id : Nat}

theorem Wakes.frame (h : group.Wakes plan completed disk)
    (hw : Disk.WorksIn (groupPlace plan.base id <+: ·) disk other) (hn : group.id ≠ id) :
    group.Wakes plan completed other :=
  ⟨h.toPlanned.frame hw, h.arises.frame hw (not_prefix_groupPlace plan.base hn)⟩

theorem Restored.frame (h : group.Restored plan completed snapshot disk)
    (hw : Disk.WorksIn (groupPlace plan.base id <+: ·) disk other) (hn : group.id ≠ id) :
    group.Restored plan completed snapshot other := by
  obtain ⟨history, hwhole, hcaptured⟩ := h.whole
  exact ⟨h.toPlanned.frame hw, h.lastCheckpoint, history,
    hwhole.frame hw (not_prefix_groupPlace plan.base hn), hcaptured⟩

theorem Restored.noted (h : group.Restored plan completed snapshot disk) :
    group.Noted plan { completed } disk := by
  obtain ⟨history, hwhole, -⟩ := h.whole
  exact ⟨h.toPlanned, history, hwhole⟩

theorem Wakes.noted (h : group.Wakes plan [] disk) : group.Noted plan {} disk :=
  ⟨h.toPlanned, [], h.arises.whole⟩

theorem Wakes.recover (h : group.Wakes plan completed disk)
    (hs : ∀ snapshot ∈ completed, snapshot.manager.Follows plan)
    (hf : ∀ snapshot ∈ completed, snapshot.Fits) (hl : completed.head? = some snapshot) :
    ∃ store other, group.store.recover none none disk = (.ok snapshot.token, store, other) ∧
      { group with store }.Restored plan completed snapshot other ∧
      Disk.WorksIn (groupPlace plan.base group.id <+: ·) disk other := by
  have hsnapshot := List.mem_of_head? hl
  obtain ⟨old, hold, -, hid, -⟩ := (hs snapshot hsnapshot).find? h.mem
  have hmoment := Snapshot.moment?_eq (hs snapshot hsnapshot) hold
  rw [hid] at hmoment
  have hhead : (completed.filterMap (·.moment? group.id)).head? =
      some ⟨.full, snapshot.token, old.store, snapshot.disk⟩ := by
    obtain ⟨rest, rfl⟩ := List.head?_eq_some_iff.mp hl
    simp only [List.filterMap_cons, hmoment, List.head?_cons]
  have hfits : ∀ moment ∈ completed.filterMap (·.moment? group.id), moment.Fits := by
    intro moment hm
    obtain ⟨earlier, he, hfound⟩ := List.mem_filterMap.mp hm
    exact (hf earlier he).moment? hfound
  obtain ⟨store, other, history, hrecover, hdir, hlast, hcaptured, hwhole, hworks⟩ :=
    h.arises.recover hfits hhead
  refine ⟨store, other, hrecover, ⟨⟨h.hosts.frame hworks, h.mem, hdir.trans h.dir⟩, hlast, history,
    hwhole, fun moment hm => ?_⟩, hworks⟩
  obtain rfl := Option.some.inj (hmoment.symm.trans hm)
  exact hcaptured

theorem Restored.readChain (h : group.Restored plan completed snapshot disk)
    (hs : snapshot.manager.Follows plan) (hf : snapshot.Fits) {old : Group D}
    (ho : old ∈ snapshot.manager.groups) (hid : old.id = group.id) (ordinal : UInt8) (key : Bytes)
    (cancelled : Bool) (dead : DeadRecords) : (group.readChain ordinal key cancelled disk dead).1 =
      (old.readChain ordinal key cancelled snapshot.disk dead).1 := by
  obtain ⟨history, hwhole, hcaptured⟩ := h.whole
  have hmoment := Snapshot.moment?_eq hs ho
  rw [hid] at hmoment
  have hkeeps : group.store.Keeps disk (groupPlace plan.base group.id) history :=
    hwhole.ready.keeps
  have hold : old.store.Keeps snapshot.disk (groupPlace plan.base group.id) history :=
    (hcaptured _ hmoment).keeps
  obtain ⟨hfits, hlimit⟩ := hf old ho
  have htail : group.store.log.tail = old.store.log.tail := by
    rw [hkeeps.tail_eq, hold.tail_eq]
  have hleft : group.store.log.Fits :=
    ⟨Nat.le_trans hkeeps.holds.flushed_le (htail ▸ hlimit), htail ▸ hfits.tail⟩
  have hright : old.store.log.Fits := ⟨Nat.le_trans hold.holds.flushed_le hlimit, hfits.tail⟩
  exact Store.readChain_same hkeeps hold hleft hright ordinal key cancelled dead

end Group

namespace Manager

variable {plan : Plan D} {completed : List (Snapshot D)} {snapshot : Snapshot D}
  {manager : Manager D} {disk : Disk}

theorem Follows.find_both {other : Manager D} (h : manager.Follows plan) (ho : other.Follows plan)
    (id : Nat) :
    (manager.groups.find? (fun group => group.id = id) = none ∧
      other.groups.find? (fun group => group.id = id) = none) ∨
    ∃ group ∈ manager.groups, ∃ found ∈ other.groups,
      manager.groups.find? (fun group => group.id = id) = some group ∧
      other.groups.find? (fun group => group.id = id) = some found ∧
      found.id = group.id ∧ found.predicates = group.predicates := by
  by_cases hid : id ∈ plan.groups.map Prod.fst
  · obtain ⟨⟨id, predicates⟩, hp, rfl⟩ := List.mem_map.mp hid
    obtain ⟨group, hg, hfind, hgid, hgp⟩ := h.find? hp
    obtain ⟨found, hf, hfound, hfid, hfp⟩ := ho.find? hp
    exact Or.inr ⟨group, hg, found, hf, hfind, hfound, hfid.trans hgid.symm, hfp.trans hgp.symm⟩
  · have hnone : ∀ {manager : Manager D}, manager.Follows plan →
        manager.groups.find? (fun group => group.id = id) = none := by
      intro manager hm
      rw [List.find?_eq_none]
      intro group hg he
      rw [← hm.ids, ← of_decide_eq_true he] at hid
      exact hid (List.mem_map_of_mem hg)
    exact Or.inl ⟨hnone h, hnone ho⟩

/-- If all groups have come back to a snapshot, all queries answer as they did when it was taken. -/
theorem answersAlike_of_restored (h : manager.Follows plan) (hs : snapshot.manager.Follows plan)
    (hf : snapshot.Fits)
    (hr : ∀ group ∈ manager.groups, group.Restored plan completed snapshot disk) :
    snapshot.manager.AnswersAlike snapshot.disk manager disk := by
  constructor
  · intro id
    rcases h.find_both hs id with ⟨hfind, hfound⟩ | ⟨group, -, old, -, hfind, hfound, -, hp⟩
    · rw [hfind, hfound]
    · rw [hfind, hfound, Option.map_some, Option.map_some, Group.names, Group.names, hp]
  · intro source key cancelled
    rw [Manager.readChain, Manager.readChain]
    rcases h.find_both hs source.group with ⟨hfind, hfound⟩ |
      ⟨group, hg, old, ho, hfind, hfound, hid, -⟩
    · rw [hfind, hfound]
    · rw [hfind, hfound]
      exact (hr group hg).readChain hs hf ho hid source.ordinal key cancelled []

theorem recoverGroup_ok {group : Group D} {token : Option Token}
    (h : group.Wakes plan completed disk)
    (hs : ∀ snapshot ∈ completed, snapshot.manager.Follows plan)
    (hf : ∀ snapshot ∈ completed, snapshot.Fits) (hl : completed.head? = some snapshot)
    (ht : ∀ expected, token = some expected → expected = snapshot.token) :
    ∃ store other, recoverGroup none none group (token, disk) =
        (.ok (), { group with store }, some snapshot.token, other) ∧
      { group with store }.Restored plan completed snapshot other ∧
      Disk.WorksIn (groupPlace plan.base group.id <+: ·) disk other := by
  obtain ⟨store, other, hrecover, hrestored, hworks⟩ := h.recover hs hf hl
  refine ⟨store, other, ?_, hrestored, hworks⟩
  simp only [recoverGroup, Group.onStore, hrecover]
  cases token with
  | none => rfl
  | some expected =>
    obtain rfl := ht expected rfl
    simp only [if_true]

/-- If all groups wake up where the same snapshots were completed, recovery comes to the newest. -/
theorem recover_newest (h : manager.Follows plan)
    (hw : ∀ group ∈ manager.groups, group.Wakes plan completed disk)
    (hs : ∀ snapshot ∈ completed, snapshot.manager.Follows plan)
    (hf : ∀ snapshot ∈ completed, snapshot.Fits) (hl : completed.head? = some snapshot) :
    ∃ after other, manager.recover none none disk = (.ok (some snapshot.token), after, other) ∧
      after.Follows plan ∧ after.identity = manager.identity ∧
      after.lastToken = (if manager.lastToken.value < snapshot.token.value then snapshot.token
        else manager.lastToken) ∧
      ∀ group ∈ after.groups, group.Restored plan completed snapshot other := by
  obtain ⟨groups, next, hall, hids, hrestored, -⟩ := onEach_ok (recoverGroup none none)
    (fun group (state : Option Token × Disk) => group.Wakes plan completed state.2 ∧
      ∀ expected, state.1 = some expected → expected = snapshot.token)
    (fun group (state : Option Token × Disk) =>
      group.Restored plan completed snapshot state.2 ∧ state.1 = some snapshot.token)
    (fun group state hg => by
      obtain ⟨hwakes, htoken⟩ := hg
      obtain ⟨store, other, hrecover, hafter, hworks⟩ := recoverGroup_ok hwakes hs hf hl htoken
      refine ⟨_, _, hrecover, rfl, ⟨hafter, rfl⟩, fun another hne =>
        ⟨fun hbefore => ?_, fun hdone => ?_⟩⟩
      · exact ⟨hbefore.1.frame hworks hne, fun expected he => (Option.some.inj he).symm⟩
      · exact ⟨hdone.1.frame hworks hne, rfl⟩)
    (none, disk) h.distinct fun group hg => ⟨hw group hg, by simp⟩
  have hfollows : Follows { manager with groups } plan :=
    ⟨h.dir, hids.trans h.ids, fun group hg => (hrestored group hg).1.mem⟩
  obtain ⟨group, hg⟩ := hfollows.exists_group
  obtain ⟨token, other⟩ := next
  obtain rfl : token = some snapshot.token := (hrestored group hg).2
  refine ⟨{ manager with
      groups
      lastToken := if manager.lastToken.value < snapshot.token.value then snapshot.token
        else manager.lastToken }, other, ?_,
    ⟨hfollows.dir, hfollows.ids, hfollows.planned⟩, rfl, rfl,
    fun group hg => (hrestored group hg).1⟩
  rw [recover_eq, onGroups, hall]

end Manager

end PredicateIndex
