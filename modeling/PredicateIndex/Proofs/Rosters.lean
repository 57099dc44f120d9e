import PredicateIndex.Proofs.GroupRecovery

/-!
# The same groups in every life

Which definitions a manager accepts, and under which ids, depends on the names
only that were taken before. So managers that are given the same definitions in
the same order have the same groups, each with its store in the same directory,
and give the same handles for them.
-/

set_option autoImplicit false

namespace PredicateIndex

variable {D : Type}

def Definitions.made (definitions : Definitions D) : List (Predicate D) :=
  definitions.predicates.map fun definition => ⟨definition.1, definitions.type, definition.2⟩

namespace Manager

def roster (names : List String) (next : Nat) : List (Definitions D) → List (Nat × Definitions D)
  | [] => []
  | definitions :: rest =>
    let added := definitions.predicates.map (·.1)
    match checkDefinitions ({ config := {}, identity := 0, names } : Manager D) definitions.type
      added with
    | .error _ => roster names next rest
    | .ok () => (next, definitions) :: roster (names ++ added) (next + 1) rest

def given (owner : Nat) (entry : Nat × Definitions D) : List (Registered D) :=
  List.zipWith (fun handle definition => ⟨entry.2.type, handle, definition.2⟩)
    (handles entry.2.type entry.1 owner 0 (entry.2.predicates.map (·.1))) entry.2.predicates

theorem roster_bounds {names : List String} {next : Nat} {definitions : List (Definitions D)}
    {entry : Nat × Definitions D} (h : entry ∈ roster names next definitions) :
    next ≤ entry.1 ∧ Sized entry.2.made := by
  induction definitions generalizing names next with
  | nil => cases h
  | cons first rest ih =>
    rw [roster] at h
    split at h
    · exact ih h
    · rename_i hcheck
      rcases List.mem_cons.mp h with rfl | h
      · exact ⟨Nat.le_refl _, sized_of_check hcheck⟩
      · obtain ⟨hle, hsized⟩ := ih h
        exact ⟨Nat.le_of_succ_le hle, hsized⟩

theorem nodup_roster (names : List String) (next : Nat) (definitions : List (Definitions D)) :
    ((roster names next definitions).map Prod.fst).Nodup := by
  induction definitions generalizing names next with
  | nil => exact List.nodup_nil
  | cons first rest ih =>
    rw [roster]
    split
    · exact ih names next
    · refine List.nodup_cons.mpr ⟨fun hm => ?_, ih _ _⟩
      obtain ⟨entry, he, hid⟩ := List.mem_map.mp hm
      have hle := (roster_bounds he).1
      omega

def Waits (plan : Plan D) (completed : List (Snapshot D)) (disk : Disk) (id : Nat) : Prop :=
  Store.Rests disk (plan.dir.child (Config.groupName id)) (groupPlace plan.base id)
    (completed.filterMap (·.moment? id))

theorem Waits.frame {plan : Plan D} {completed : List (Snapshot D)} {disk other : Disk}
    {id opened : Nat} (h : Waits plan completed disk id) (hd : plan.Hosts disk)
    (hw : Disk.WorksIn (groupPlace plan.base opened <+: ·) disk other) (hn : id ≠ opened) :
    Waits plan completed other id :=
  Store.Rests.frame h hw (not_prefix_groupPlace plan.base hn) hd.locksFiles

variable {plan : Plan D} {completed : List (Snapshot D)} {manager : Manager D} {disk : Disk}

theorem Waits.open {entry : Nat × Definitions D} {config : Config} (hd : plan.Hosts disk)
    (h : Waits plan completed disk entry.1) (hm : (entry.1, entry.2.made) ∈ plan.groups)
    (hc : config.dir = plan.dir) : ∃ group opened,
      Group.open? entry.1 entry.2.made config disk = (.ok group, opened) ∧ group.id = entry.1 ∧
        group.predicates = entry.2.made ∧ group.Wakes plan completed opened ∧
        Disk.WorksIn (groupPlace plan.base entry.1 <+: ·) disk opened := by
  obtain ⟨store, opened, hopen, hdir, harises, hworks⟩ :=
    Store.Rests.open h hd.wellFormed hd.locksFiles hd.homed (Config.plain_groupName _) config
  refine ⟨⟨entry.1, entry.2.made, store⟩, opened, ?_, rfl, rfl,
    ⟨⟨hd.frame hworks, hm, hdir⟩, harises⟩, hworks⟩
  have hplace : config.groupDir entry.1 = plan.dir.child (Config.groupName entry.1) := by
    rw [Config.groupDir, hc]
    rfl
  rw [Group.open?, hplace, hopen]

/-- Registering definitions opens the groups of the roster, and gives handles for them. -/
theorem registerAll_wakes {definitions : List (Definitions D)} (hd : plan.Hosts disk)
    (hc : manager.config.dir = plan.dir)
    (hg : ∀ group ∈ manager.groups, group.Wakes plan completed disk ∧ group.id < manager.nextGroup)
    (hr : ∀ entry ∈ roster manager.names manager.nextGroup definitions,
      (entry.1, entry.2.made) ∈ plan.groups ∧ Waits plan completed disk entry.1) :
    ∃ after opened, Manager.registerAll definitions manager disk =
        ((roster manager.names manager.nextGroup definitions).flatMap (given manager.identity),
          after, opened) ∧
      after.config = manager.config ∧ after.identity = manager.identity ∧
      after.lastToken = manager.lastToken ∧
      after.groups.map Group.id = manager.groups.map Group.id ++
        (roster manager.names manager.nextGroup definitions).map Prod.fst ∧
      ∀ group ∈ after.groups, group.Wakes plan completed opened := by
  induction definitions generalizing manager disk with
  | nil =>
    exact ⟨manager, disk, rfl, rfl, rfl, rfl, by simp [roster], fun group hm => (hg group hm).1⟩
  | cons first rest ih =>
    have hsame : manager.checkDefinitions first.type (first.predicates.map (·.1)) =
        checkDefinitions ({ config := {}, identity := 0, names := manager.names } : Manager D)
          first.type (first.predicates.map (·.1)) := rfl
    rw [roster] at hr ⊢
    rw [Manager.registerAll, register, hsame]
    cases hcheck : checkDefinitions
        ({ config := {}, identity := 0, names := manager.names } : Manager D) first.type
        (first.predicates.map (·.1)) with
    | error fault =>
      simp only [hcheck] at hr ⊢
      exact ih hd hc hg hr
    | ok =>
      simp only [hcheck] at hr ⊢
      obtain ⟨hplanned, hwaits⟩ := hr _ List.mem_cons_self
      obtain ⟨group, opened, hopen, hid, hmade, hwakes, hworks⟩ :=
        Waits.open hd hwaits hplanned hc
      rw [Definitions.made] at hopen
      simp only [hopen]
      -- opening one group works in its own directory, which no group before or after it has
      have hgroups : ∀ other ∈ manager.groups ++ [group],
          other.Wakes plan completed opened ∧ other.id < manager.nextGroup + 1 := by
        intro other ho
        rcases List.mem_append.mp ho with ho | ho
        · obtain ⟨hold, hlt⟩ := hg other ho
          exact ⟨hold.frame hworks (Nat.ne_of_lt hlt), Nat.lt_succ_of_lt hlt⟩
        · rw [List.mem_singleton.mp ho]
          exact ⟨hwakes, hid ▸ Nat.lt_succ_self _⟩
      have hrest : ∀ entry ∈ roster (manager.names ++ first.predicates.map (·.1))
          (manager.nextGroup + 1) rest,
          (entry.1, entry.2.made) ∈ plan.groups ∧ Waits plan completed opened entry.1 := by
        intro entry he
        obtain ⟨hm, hw⟩ := hr entry (List.mem_cons_of_mem _ he)
        have hle := (roster_bounds he).1
        exact ⟨hm, hw.frame hd hworks (by omega)⟩
      obtain ⟨after, last, hall, hconfig, hidentity, htoken, hids, hafter⟩ := @ih
        { manager with
          names := manager.names ++ first.predicates.map (·.1)
          groups := manager.groups ++ [group]
          nextGroup := manager.nextGroup + 1 } opened (hd.frame hworks) hc hgroups hrest
      refine ⟨after, last, ?_, hconfig, hidentity, htoken, ?_, hafter⟩
      · simp only [hall]
        rfl
      · rw [hids, List.map_append, List.map_singleton, hid, List.append_assoc]
        rfl

end Manager

end PredicateIndex
