import PredicateIndex.Proofs.KeyCodes
import PredicateIndex.Proofs.ManagerIndex

/-!
# Registering groups

A manager takes groups one after another, and each has a directory of its own.
A registration that fails leaves the groups that are there as they are. The
handles of a group name its predicates by their position.
-/

set_option autoImplicit false

namespace PredicateIndex

structure Definitions (D : Type) where
  type : KeyType
  predicates : List (String × (D → Option type.Value))

structure Registered (D : Type) where
  type : KeyType
  handle : Handle type
  key : D → Option type.Value

theorem Disk.homed_of_child {disk : Disk} {dir place : Path} {name : String} (hn : Path.Plain name)
    (h : Disk.Homed disk (dir.child name) place) :
    ∃ base, Disk.Homed disk dir base ∧ place = base ++ [name] := by
  have hr := h.resolve
  rw [Path.stem_child dir hn.1] at hr
  exact homed_of_resolve_child hn hr

namespace Manager

variable {D : Type}

/-- Registers groups in order; those that are refused are left out. -/
def registerAll : List (Definitions D) → Manager D → Disk →
    List (Registered D) × Manager D × Disk
  | [], manager, disk => ([], manager, disk)
  | definitions :: rest, manager, disk =>
    match manager.register definitions.type definitions.predicates disk with
    | (.error _, manager, disk) => registerAll rest manager disk
    | (.ok handles, manager, disk) =>
      let (others, manager, disk) := registerAll rest manager disk
      (List.zipWith (fun handle definition => ⟨definitions.type, handle, definition.2⟩) handles
        definitions.predicates ++ others, manager, disk)

def Names (manager : Manager D) (registered : Registered D) : Prop :=
  registered.handle.owner = manager.identity ∧
    ∃ group ∈ manager.groups, ∃ n, registered.handle.group = group.id ∧
      registered.handle.ordinal = UInt8.ofNat n ∧
      group.predicates[n]? = some ⟨registered.handle.name, registered.type, registered.key⟩

def schema (manager : Manager D) (id : Nat) : List (Predicate D) :=
  ((manager.groups.find? fun group => group.id = id).map Group.predicates).getD []

theorem schema_eq {manager : Manager D} (hd : manager.groups.Pairwise fun g h => g.id ≠ h.id)
    {group : Group D} (hg : group ∈ manager.groups) :
    manager.schema group.id = group.predicates := by
  rw [schema, find?_of_distinct hd hg]
  rfl

structure New (manager : Manager D) (disk : Disk) : Prop where
  wellFormed : disk.WellFormed
  distinct : manager.groups.Pairwise fun g h => g.id ≠ h.id
  below : ∀ group ∈ manager.groups, group.id < manager.nextGroup
  stores : ∀ group ∈ manager.groups, Sized group.predicates ∧
    ∃ base, Disk.Homed disk manager.config.dir base ∧
      group.store.Keeps disk (groupPlace base group.id) []

theorem getElem?_handles (type : KeyType) (group owner n : Nat) (names : List String) (i : Nat) :
    (handles type group owner n names)[i]? =
      names[i]?.map fun name => ⟨name, group, UInt8.ofNat (n + i), owner⟩ := by
  induction names generalizing n i with
  | nil => rfl
  | cons name rest ih =>
    cases i with
    | zero => rfl
    | succ i =>
      rw [handles, List.getElem?_cons_succ, List.getElem?_cons_succ, ih, Nat.add_right_comm,
        Nat.add_assoc]

theorem names_of_handles {manager : Manager D} {group : Group D} (hg : group ∈ manager.groups)
    {id owner : Nat} (hid : group.id = id) (howner : manager.identity = owner) {type : KeyType}
    {definitions : List (String × (D → Option type.Value))}
    (hp : group.predicates = definitions.map fun d => ⟨d.1, type, d.2⟩) {r : Registered D}
    (hr : r ∈ List.zipWith (fun handle definition => ⟨type, handle, definition.2⟩)
      (handles type id owner 0 (definitions.map (·.1))) definitions) :
    manager.Names r ∧ r.handle.group = id := by
  obtain ⟨n, hn⟩ := List.mem_iff_getElem?.mp hr
  rw [List.getElem?_zipWith, getElem?_handles, List.getElem?_map] at hn
  cases hd : definitions[n]? with
  | none => simp [hd] at hn
  | some definition =>
    simp only [hd, Option.map_some, Option.some.injEq, Nat.zero_add] at hn
    subst hn
    refine ⟨⟨howner.symm, group, hg, n, hid.symm, rfl, ?_⟩, rfl⟩
    rw [hp, List.getElem?_map, hd]
    rfl

theorem checkDefinitions_ok {manager : Manager D} {type : KeyType} {names : List String}
    (h : manager.checkDefinitions type names = .ok ()) :
    names ≠ [] ∧ names.length ≤ maxPredicates ∧ type.layout.validate = .ok () := by
  rw [checkDefinitions] at h
  by_cases hn : names = []
  · rw [if_pos hn] at h
    cases h
  · by_cases hl : maxPredicates < names.length
    · rw [if_neg hn, if_pos hl] at h
      cases h
    · rw [if_neg hn, if_neg hl] at h
      cases hv : type.layout.validate with
      | error fault =>
        simp only [hv, bind, Except.bind] at h
        cases h
      | ok => exact ⟨hn, Nat.le_of_not_lt hl, rfl⟩

theorem sized_of_check {manager : Manager D} {type : KeyType}
    {definitions : List (String × (D → Option type.Value))}
    (h : manager.checkDefinitions type (definitions.map (·.1)) = .ok ()) :
    Sized (definitions.map fun d => (⟨d.1, type, d.2⟩ : Predicate D)) := by
  obtain ⟨-, hl, hv⟩ := checkDefinitions_ok h
  refine ⟨by rw [List.length_map] at hl ⊢; exact hl, fun predicate hp data code hc => ?_⟩
  obtain ⟨definition, -, rfl⟩ := List.mem_map.mp hp
  obtain ⟨value, -, rfl⟩ := Option.map_eq_some_iff.mp hc
  have hle := KeyType.length_encode_le hv value
  have hm : maxKeySize = 256 := rfl
  show (type.encode value).length < 65536
  omega

/-- What comes of a registration: the definitions are refused, the directory of the next id cannot
be opened as a store, or the manager has one more group. -/
inductive Registers (manager : Manager D) (type : KeyType)
    (definitions : List (String × (D → Option type.Value))) (disk : Disk) :
    Except Fault (List (Handle type)) × Manager D × Disk → Prop
  | refused {fault : Fault}
    (hc : manager.checkDefinitions type (definitions.map (·.1)) = .error fault) :
    Registers manager type definitions disk (.error fault, manager, disk)
  | unopened {fault : Fault} {other : Disk}
    (hc : manager.checkDefinitions type (definitions.map (·.1)) = .ok ())
    (ho : Store.open? (manager.config.groupDir manager.nextGroup) manager.config disk =
      (.error fault, other)) :
    Registers manager type definitions disk
      (.error fault, { manager with nextGroup := manager.nextGroup + 1 }, other)
  | opened {store : Store} {other : Disk}
    (hc : manager.checkDefinitions type (definitions.map (·.1)) = .ok ())
    (ho : Store.open? (manager.config.groupDir manager.nextGroup) manager.config disk =
      (.ok store, other)) :
    Registers manager type definitions disk
      (.ok (handles type manager.nextGroup manager.identity 0 (definitions.map (·.1))),
        { manager with
          nextGroup := manager.nextGroup + 1
          names := manager.names ++ definitions.map (·.1)
          groups := manager.groups ++
            [⟨manager.nextGroup, definitions.map fun d => ⟨d.1, type, d.2⟩, store⟩] }, other)

theorem registers (manager : Manager D) (type : KeyType)
    (definitions : List (String × (D → Option type.Value))) (disk : Disk) :
    Registers manager type definitions disk (manager.register type definitions disk) := by
  rw [register]
  cases hc : manager.checkDefinitions type (definitions.map (·.1)) with
  | error fault => exact .refused hc
  | ok =>
    dsimp only
    rw [Group.open?]
    rcases ho : Store.open? (manager.config.groupDir manager.nextGroup) manager.config disk with
      ⟨fault | store, other⟩
    · exact .unopened hc ho
    · exact .opened hc ho

theorem distinct_concat {groups : List (Group D)} {group : Group D} {next : Nat}
    (hd : groups.Pairwise fun g h => g.id ≠ h.id) (hb : ∀ other ∈ groups, other.id < next)
    (hid : group.id = next) : (groups ++ [group]).Pairwise fun g h => g.id ≠ h.id := by
  refine List.pairwise_append.mpr ⟨hd, List.pairwise_singleton _ _, fun other ho added ha => ?_⟩
  rw [List.mem_singleton.mp ha, hid]
  exact Nat.ne_of_lt (hb other ho)

theorem below_concat {groups : List (Group D)} {group : Group D} {next : Nat}
    (hb : ∀ other ∈ groups, other.id < next) (hid : group.id = next) :
    ∀ other ∈ groups ++ [group], other.id < next + 1 := by
  intro other ho
  rcases List.mem_append.mp ho with ho | ho
  · exact Nat.lt_succ_of_lt (hb other ho)
  · rw [List.mem_singleton.mp ho, hid]
    exact Nat.lt_succ_self _

theorem keeps_opened {config : Config} {id : Nat} {disk other : Disk} {store : Store}
    (hw : disk.WellFormed) (h : Store.open? (config.groupDir id) config disk = (.ok store, other)) :
    ∃ base, Disk.Homed other config.dir base ∧ store.Keeps other (groupPlace base id) [] := by
  obtain ⟨place, lock, latest, ho, hk, -, -⟩ := Store.open_ok hw h
  have hhome : Disk.Homed other (config.groupDir id) place := ho.dir ▸ hk.homed
  obtain ⟨base, hbase, rfl⟩ := Disk.homed_of_child (Config.plain_groupName _) hhome
  exact ⟨base, hbase, hk⟩

namespace New

variable {manager : Manager D} {disk : Disk}

theorem opened {config : Config} {identity : Nat} {other : Disk} (hw : disk.WellFormed)
    (h : Manager.open? config identity disk = (.ok manager, other)) : manager.New other := by
  have hdirs := (Disk.addsDirs_createDirs disk config.dir).spares hw
  rw [Manager.open?] at h
  split at h
  · cases h
  · rename_i hcreate
    rw [hcreate] at hdirs
    cases h
    exact ⟨hdirs.wellFormed, List.Pairwise.nil, by simp, by simp⟩

theorem frame (h : manager.New disk) :
    let other := (Store.open? (manager.config.groupDir manager.nextGroup) manager.config disk).2
    other.WellFormed ∧ ∀ group ∈ manager.groups, Sized group.predicates ∧
      ∃ base, Disk.Homed other manager.config.dir base ∧
        group.store.Keeps other (groupPlace base group.id) [] := by
  have hs := Store.spares_open (manager.config.groupDir manager.nextGroup) manager.config h.wellFormed
  refine ⟨hs.wellFormed, fun group hg => ?_⟩
  obtain ⟨hsized, base, hd, hk⟩ := h.stores group hg
  have hbase := hd.mono hs.directory
  refine ⟨hsized, base, hbase, hk.frame hs ⟨?_, fun place hplace he => ?_⟩⟩
  · rw [List.getLast?_concat]
    decide
  · obtain ⟨root, hroot, rfl⟩ := Disk.homed_of_child (Config.plain_groupName _) hplace
    obtain rfl := hroot.unique hbase
    have hbelow := h.below group hg
    exact log_ne_log root (Nat.ne_of_lt hbelow) he

/-- A registration keeps the groups and, if it succeeds, adds one and gives its handles. -/
theorem register (h : manager.New disk) (type : KeyType)
    (definitions : List (String × (D → Option type.Value))) :
    ∃ result after other, manager.register type definitions disk = (result, after, other) ∧
      after.New other ∧ after.config = manager.config ∧ after.identity = manager.identity ∧
      (∀ group ∈ manager.groups, group ∈ after.groups) ∧
      ∀ handles, result = .ok handles → ∃ group ∈ after.groups,
        group.predicates = definitions.map (fun d => ⟨d.1, type, d.2⟩) ∧
        handles = Manager.handles type group.id manager.identity 0 (definitions.map (·.1)) := by
  have hr := registers manager type definitions disk
  obtain ⟨hwell, hstores⟩ := h.frame
  generalize manager.register type definitions disk = registered at hr ⊢
  refine ⟨_, _, _, rfl, ?_⟩
  cases hr with
  | refused => exact ⟨h, rfl, rfl, fun _ hg => hg, fun _ he => by cases he⟩
  | unopened hc ho =>
    rw [ho] at hwell hstores
    exact ⟨⟨hwell, h.distinct, fun group hg => Nat.lt_succ_of_lt (h.below group hg), hstores⟩, rfl,
      rfl, fun _ hg => hg, fun _ he => by cases he⟩
  | opened hc ho =>
    rw [ho] at hwell hstores
    obtain ⟨base, hbase, hk⟩ := keeps_opened h.wellFormed ho
    refine ⟨⟨hwell, distinct_concat h.distinct h.below rfl, below_concat h.below rfl,
      fun group hg => ?_⟩, rfl, rfl, fun group hg => List.mem_append_left _ hg, fun handles he =>
      ⟨_, List.mem_append_right _ (List.mem_singleton.mpr rfl), rfl, (Except.ok.inj he).symm⟩⟩
    rcases List.mem_append.mp hg with hg | hg
    · exact hstores group hg
    · rw [List.mem_singleton.mp hg]
      exact ⟨sized_of_check hc, base, hbase, hk⟩

/-- After any registrations every handle that was given names its predicate. -/
theorem registerAll (h : manager.New disk) (definitions : List (Definitions D)) :
    ∃ registered after other,
      Manager.registerAll definitions manager disk = (registered, after, other) ∧
      after.New other ∧ after.config = manager.config ∧ after.identity = manager.identity ∧
      (∀ group ∈ manager.groups, group ∈ after.groups) ∧
      ∀ r ∈ registered, after.Names r := by
  induction definitions generalizing manager disk with
  | nil => exact ⟨[], manager, disk, rfl, h, rfl, rfl, fun _ hg => hg, by simp⟩
  | cons first rest ih =>
    obtain ⟨result, middle, opened, hr, hn, hconfig, hidentity, hgroups, hhandles⟩ :=
      h.register first.type first.predicates
    obtain ⟨others, after, other, ha, hnew, hc, hi, hg, hnames⟩ := ih hn
    rw [Manager.registerAll, hr]
    cases result with
    | error fault =>
      exact ⟨others, after, other, ha, hnew, hc.trans hconfig, hi.trans hidentity,
        fun group hm => hg group (hgroups group hm), hnames⟩
    | ok handles =>
      obtain ⟨group, hgroup, hp, hh⟩ := hhandles handles rfl
      refine ⟨_, after, other, by simp only [ha]; rfl, hnew, hc.trans hconfig, hi.trans hidentity,
        fun group hm => hg group (hgroups group hm), fun r hmem => ?_⟩
      rcases List.mem_append.mp hmem with hmem | hmem
      · rw [hh] at hmem
        exact (names_of_handles (hg group hgroup) rfl (hi.trans hidentity) hp hmem).1
      · exact hnames r hmem

theorem base (h : manager.New disk) : ∃ base, ∀ group ∈ manager.groups,
    group.store.Keeps disk (groupPlace base group.id) [] := by
  cases hg : manager.groups with
  | nil => exact ⟨[], by simp⟩
  | cons first rest =>
    obtain ⟨-, base, hd, -⟩ := h.stores first (hg ▸ List.mem_cons_self)
    refine ⟨base, fun group hm => ?_⟩
    obtain ⟨-, other, ho, hk⟩ := h.stores group (hg ▸ hm)
    rwa [hd.unique ho]

theorem indexed (h : manager.New disk)
    (hr : ∀ group ∈ manager.groups, group.store.awaitingRecovery = false) :
    ∃ base, manager.Indexed disk base manager.schema fun _ => fun _ _ => false := by
  obtain ⟨base, hbase⟩ := h.base
  refine ⟨base, h.distinct, fun group hg => ?_⟩
  have hs := schema_eq h.distinct hg
  exact ⟨hs.symm, hs ▸ (h.stores group hg).1, hr group hg, [], hbase group hg, by simp,
    Store.indexOf_nil⟩

end New

end Manager

end PredicateIndex
