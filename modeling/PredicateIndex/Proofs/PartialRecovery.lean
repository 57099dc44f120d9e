import PredicateIndex.Proofs.CheckpointStarts
import PredicateIndex.Proofs.FailedChanges
import PredicateIndex.Proofs.RecoveryFrames

/-!
# Recoveries of all groups that fail

Recovering all groups goes from group to group and stops at the first one that
fails or comes to another token than those before it. Nothing is undone: the
groups before it are recovered, each as it would have been on its own, and a
group that came to another token is recovered to that one. So a failure has
changed nothing only if it is the first group that refused.
-/

set_option autoImplicit false

namespace PredicateIndex

theorem Store.recover_ok {store : Store} {disk : Disk} {index log : Option Token} {token : Token}
    (h : (store.recover index log disk).1 = .ok token) :
    (store.recover index log disk).2.1.awaitingRecovery = false ∧
      (store.recover index log disk).2.1.lastCheckpoint = some token := by
  by_cases hr : ∃ source, store.Admits index log disk source
  · obtain ⟨source, hr⟩ := hr
    by_cases hf : ∃ fault, store.ReplayFails source disk fault
    · obtain ⟨fault, hf⟩ := hf
      rw [hr.recover_broken hf] at h
      cases h
    · obtain ⟨records, hok⟩ := hr.recover_whole fun fault hc => hf ⟨fault, hc⟩
      rw [hok] at h ⊢
      cases h
      exact ⟨rfl, rfl⟩
  · obtain ⟨fault, herror⟩ := recover_unrestored fun source hs => hr ⟨source, hs⟩
    rw [herror] at h
    cases h

namespace Group

variable {D : Type}

def recovered (index log : Option Token) (disk : Disk) (group : Group D) : Group D :=
  { group with store := (group.store.recover index log disk).2.1 }

def landing (index log : Option Token) (disk : Disk) (group : Group D) : Except Fault Token :=
  (group.store.recover index log disk).1

def Declines (index log : Option Token) (disk : Disk) (group : Group D) (fault : Fault) : Prop :=
  group.landing index log disk = .error fault ∧
    ∀ source, group.store.Admits index log disk source →
      ¬ group.store.ReplayFails source disk fault

variable {group : Group D} {index log : Option Token} {disk : Disk} {fault : Fault}

theorem Declines.unchanged (h : group.Declines index log disk fault) :
    group.recovered index log disk = group ∧ (group.store.recover index log disk).2.2 = disk := by
  obtain ⟨hl, hclean⟩ := h
  rcases hr : group.store.recover index log disk with ⟨result, store, other⟩
  rw [landing, hr] at hl
  obtain rfl : result = .error fault := hl
  rcases Store.recover_error_cases hr with ⟨rfl, rfl, -⟩ | ⟨source, hadmits, hfails, -⟩
  · exact ⟨by rw [recovered, hr], rfl⟩
  · exact (hclean source hadmits hfails).elim

theorem error_cases (h : group.landing index log disk = .error fault) :
    group.Declines index log disk fault ∨ ∃ source, group.store.Admits index log disk source ∧
      group.store.ReplayFails source disk fault := by
  by_cases hf : ∃ source, group.store.Admits index log disk source ∧
      group.store.ReplayFails source disk fault
  · exact Or.inr hf
  · exact Or.inl ⟨h, fun source hs hc => hf ⟨source, hs, hc⟩⟩

end Group

namespace Manager

variable {D : Type} {index log : Option Token}

theorem log_elsewhere {store : Store} {disk : Disk} {base : Path} {id elsewhere : Nat}
    (h : store.Stands disk (groupPlace base id)) (hne : id ≠ elsewhere) (more : Path) :
    disk.entry? (groupPlace base elsewhere ++ more) ≠ some (.file store.log.file) := by
  intro he
  have hplace := h.wellFormed.separate _ _ _ he h.entry
  rw [groupPlace, groupPlace, List.append_assoc, List.append_assoc,
    List.append_cancel_left_eq] at hplace
  exact hne (Config.groupName_injective (List.cons.inj hplace).1).symm

theorem log_apart {store other : Store} {disk : Disk} {base : Path} {id elsewhere : Nat}
    (h : store.Stands disk (groupPlace base id))
    (ho : other.Stands disk (groupPlace base elsewhere)) (hne : id ≠ elsewhere) :
    other.log.file ≠ store.log.file :=
  fun hfile => log_elsewhere h hne [Log.fileName] (hfile ▸ ho.entry)

theorem recoverGroup_cases (index log : Option Token) (group : Group D) (known : Option Token)
    (disk : Disk) :
    (∃ fault, group.landing index log disk = .error fault ∧
      recoverGroup index log group (known, disk) = (.error fault, group.recovered index log disk,
        known, (group.store.recover index log disk).2.2)) ∨
    (∃ token, group.landing index log disk = .ok token ∧ (∀ expected ∈ known, expected = token) ∧
      recoverGroup index log group (known, disk) = (.ok (), group.recovered index log disk,
        some token, (group.store.recover index log disk).2.2)) ∨
    ∃ token expected, group.landing index log disk = .ok token ∧ known = some expected ∧
      token ≠ expected ∧
      recoverGroup index log group (known, disk) =
        (.error (.groupsDisagree group.id token expected), group.recovered index log disk, known,
          (group.store.recover index log disk).2.2) := by
  rcases hr : group.store.recover index log disk with ⟨fault | token, store, other⟩
  · refine Or.inl ⟨fault, by rw [Group.landing, hr], ?_⟩
    simp only [recoverGroup, Group.onStore, Group.recovered, hr]
  · right
    have hlands : group.landing index log disk = .ok token := by rw [Group.landing, hr]
    cases known with
    | none =>
      refine Or.inl ⟨token, hlands, by simp, ?_⟩
      simp only [recoverGroup, Group.onStore, Group.recovered, hr]
    | some expected =>
      by_cases he : expected = token
      · refine Or.inl ⟨token, hlands, by simp [he], ?_⟩
        simp only [recoverGroup, Group.onStore, Group.recovered, hr, he, if_true]
      · refine Or.inr ⟨token, expected, hlands, rfl, Ne.symm he, ?_⟩
        simp only [recoverGroup, Group.onStore, Group.recovered, hr, he, if_false]

/-- A recovery that began with a token that groups before it had come to, and stopped at a group. -/
structure StopsRecovery (index log : Option Token) (disk : Disk) (known : Option Token)
    (front : List (Group D)) (group : Group D) (fault : Fault) (opened other : Disk) : Prop where
  landed : ∃ landed : Option Token,
    (∀ early ∈ front, ∃ token ∈ landed, early.landing index log disk = .ok token) ∧
    (known ≠ none → landed = known) ∧ (front = [] → landed = known) ∧
    (group.landing index log disk = .error fault ∨
      ∃ token expected, group.landing index log disk = .ok token ∧ landed = some expected ∧
        token ≠ expected ∧ fault = .groupsDisagree group.id token expected)
  alone : front = [] → other = (group.store.recover index log opened).2.2
  entries : other.entries = opened.entries
  logs : ∀ early ∈ front ++ [group], other.content early.store.log.file =
    (early.store.recover index log disk).2.2.content early.store.log.file
  files : ∀ id, (∀ early ∈ front ++ [group], early.store.log.file ≠ id) →
    other.content id = opened.content id

section

variable {base : Path} {disk opened other : Disk} {first : Group D} {known : Option Token}

/-- A group is recovered as it would be on its own, whatever was done to the files of others. -/
theorem recovered_frame (hb : first.store.Stands disk (groupPlace base first.id))
    (hs : Disk.SameAt (groupPlace base first.id <+: ·) disk opened) :
    first.landing index log opened = first.landing index log disk ∧
      first.recovered index log opened = first.recovered index log disk := by
  obtain ⟨hresult, hstore, -⟩ := hb.recover_frame (Store.keepsDir_below _) hs index log
  refine ⟨hresult, ?_⟩
  rw [Group.recovered, hstore]
  rfl

namespace StopsRecovery

theorem atFirst (hb : first.store.Stands disk (groupPlace base first.id))
    (hs : Disk.SameAt (groupPlace base first.id <+: ·) disk opened) {fault : Fault}
    (hc : first.landing index log disk = .error fault ∨
      ∃ token expected, first.landing index log disk = .ok token ∧ known = some expected ∧
        token ≠ expected ∧ fault = .groupsDisagree first.id token expected) :
    StopsRecovery index log disk known [] first fault opened
      (first.store.recover index log opened).2.2 := by
  have hcontent := hb.content_recover (Store.keepsDir_below _) hs index log
  have hwrites := Store.writesOnly_recover first.store index log opened
  refine ⟨⟨known, by simp, fun _ => rfl, fun _ => rfl, hc⟩, fun _ => rfl, hwrites.entries, ?_, ?_⟩
  · simpa using hcontent
  · intro id hid
    exact hwrites.content id (hid first (by simp)).symm

theorem cons (hb : first.store.Stands disk (groupPlace base first.id))
    (hs : Disk.SameAt (groupPlace base first.id <+: ·) disk opened) {token : Token}
    (hl : first.landing index log disk = .ok token) (hk : ∀ expected ∈ known, expected = token)
    {front : List (Group D)} {group : Group D} {fault : Fault}
    (ha : ∀ early ∈ front ++ [group], early.store.log.file ≠ first.store.log.file)
    (h : StopsRecovery index log disk (some token) front group fault
      (first.store.recover index log opened).2.2 other) :
    StopsRecovery index log disk known (first :: front) group fault opened other := by
  have hcontent := hb.content_recover (Store.keepsDir_below _) hs index log
  have hwrites := Store.writesOnly_recover first.store index log opened
  obtain ⟨landed, hfront, hsome, -, hfault⟩ := h.landed
  have hlanded : landed = some token := hsome (by simp)
  refine ⟨⟨landed, List.forall_mem_cons.mpr ⟨⟨token, hlanded, hl⟩, hfront⟩, fun hknown => ?_,
    by simp, hfault⟩, by simp, h.entries.trans hwrites.entries, ?_, fun id hid => ?_⟩
  · obtain ⟨expected, he⟩ := Option.ne_none_iff_exists'.mp hknown
    rw [hlanded, he, hk expected he]
  · refine List.forall_mem_cons.mpr ⟨?_, h.logs⟩
    rw [h.files _ ha, hcontent]
  · have hlater := h.files id fun early he => hid early (List.mem_cons_of_mem first he)
    exact hlater.trans (hwrites.content id (hid first List.mem_cons_self).symm)

end StopsRecovery

end

theorem stopsRecovery_of_error {base : Path} {disk : Disk} {groups changed : List (Group D)}
    {known last : Option Token} {opened other : Disk} {fault : Fault}
    (hd : groups.Pairwise fun g h => g.id ≠ h.id)
    (hb : ∀ group ∈ groups, group.store.Stands disk (groupPlace base group.id))
    (hs : ∀ group ∈ groups, Disk.SameAt (groupPlace base group.id <+: ·) disk opened)
    (h : onEach (recoverGroup index log) groups (known, opened) =
      (.error fault, changed, last, other)) :
    ∃ front group rest, groups = front ++ group :: rest ∧
      changed = (front ++ [group]).map (Group.recovered index log disk) ++ rest ∧
      StopsRecovery index log disk known front group fault opened other := by
  induction groups generalizing known opened changed with
  | nil => cases h
  | cons first rest ih =>
    obtain ⟨hfirst, hrest⟩ := List.pairwise_cons.mp hd
    obtain ⟨hstands, hbrest⟩ := List.forall_mem_cons.mp hb
    obtain ⟨hsame, hsrest⟩ := List.forall_mem_cons.mp hs
    obtain ⟨hlanding, hrecovered⟩ := recovered_frame hstands hsame
    rw [onEach] at h
    rcases recoverGroup_cases index log first known opened with
      ⟨cause, hl, hop⟩ | ⟨token, hl, hknown, hop⟩ | ⟨token, expected, hl, hknown, hne, hop⟩ <;>
      rw [hop] at h <;> rw [hlanding] at hl <;> rw [hrecovered] at h
    · cases h
      exact ⟨[], first, rest, rfl, rfl, .atFirst hstands hsame (Or.inl hl)⟩
    · have hwrites := Store.writesOnly_recover first.store index log opened
      -- what is below the places of the other groups is not the log of this one
      have hothers : ∀ group ∈ rest, Disk.SameAt (groupPlace base group.id <+: ·) disk
          (first.store.recover index log opened).2.2 := by
        intro group hg
        refine (hsrest group hg).trans (.ofWrites hwrites fun p hp => ?_)
        obtain ⟨more, rfl⟩ := hp
        rw [Disk.entry?_congr hsame.entries]
        exact log_elsewhere hstands (hfirst group hg) more
      rcases hall : onEach (recoverGroup index log) rest
        (some token, (first.store.recover index log opened).2.2) with ⟨result, later, final⟩
      simp only [hall] at h
      cases h
      obtain ⟨front, group, others, rfl, rfl, hstops⟩ := ih hrest hbrest hothers hall
      refine ⟨first :: front, group, others, rfl, rfl, hstops.cons hstands hsame hl hknown ?_⟩
      intro early he
      have hm : early ∈ front ++ group :: others := by
        rw [List.append_cons]
        exact List.mem_append_left _ he
      exact log_apart hstands (hbrest early hm) (hfirst early hm)
    · cases h
      exact ⟨[], first, rest, rfl, rfl,
        .atFirst hstands hsame (Or.inr ⟨token, expected, hl, hknown, hne, rfl⟩)⟩

theorem recover_refused {manager : Manager D} {group : Group D} (hg : group ∈ manager.groups)
    (hrecords : group.store.log.isEmpty = false) (index log : Option Token) (disk : Disk) :
    ∃ fault, (manager.recover index log disk).1 = .error fault := by
  have heach : ∀ groups : List (Group D), group ∈ groups → ∀ state,
      ∃ fault, (onEach (recoverGroup index log) groups state).1 = .error fault := by
    intro groups
    induction groups with
    | nil => exact fun hm => by cases hm
    | cons first rest ih =>
      intro hm state
      rw [onEach]
      rcases hop : recoverGroup index log first state with ⟨cause | _, changed, next⟩
      · exact ⟨cause, rfl⟩
      · rcases List.mem_cons.mp hm with rfl | hm
        · have hstore : group.store.recover index log state.2 =
              (.error .storeNotEmpty, group.store, state.2) := by
            rw [Store.recover, hrecords]
            rfl
          simp only [recoverGroup, Group.onStore, hstore] at hop
          cases hop
        · exact ih hm next
  obtain ⟨fault, hfault⟩ := heach manager.groups hg (none, disk)
  refine ⟨fault, ?_⟩
  rcases hall : onEach (recoverGroup index log) manager.groups (none, disk) with
    ⟨result, groups, last⟩
  rw [hall] at hfault
  cases hfault
  rw [recover_eq, onGroups, hall]

theorem stopsRecovery {manager after : Manager D} {disk other : Disk} {fault : Fault}
    (h : manager.Stands disk) (hr : manager.recover index log disk = (.error fault, after, other)) :
    ∃ front group rest, manager.groups = front ++ group :: rest ∧
      after = { manager with
        groups := (front ++ [group]).map (Group.recovered index log disk) ++ rest } ∧
      StopsRecovery index log disk none front group fault disk other := by
  obtain ⟨base, hb⟩ := h.base
  rcases hall : onEach (recoverGroup index log) manager.groups (none, disk) with
    ⟨cause | _, changed, last, final⟩ <;> rw [recover_eq, onGroups, hall] at hr
  · cases hr
    obtain ⟨front, group, rest, hgroups, rfl, hstops⟩ := stopsRecovery_of_error h.distinct
      (fun group hg => (hb group hg).2) (fun group _ => .refl _ disk) hall
    exact ⟨front, group, rest, hgroups, rfl, hstops⟩
  · dsimp only at hr
    split at hr
    · rename_i heq
      cases heq
    · cases hr
    · cases hr

/-- How a recovery of all groups fails: those before one of them are recovered to one token, and
that one has declined, could not be replayed, or is recovered to another token. -/
structure RecoveredUpTo (manager : Manager D) (disk : Disk) (index log : Option Token)
    (fault : Fault) (after : Manager D) (other : Disk) (front : List (Group D)) (group : Group D)
    (rest : List (Group D)) (token : Token) : Prop where
  groups : manager.groups = front ++ group :: rest
  result : after = { manager with
    groups := (front ++ [group]).map (Group.recovered index log disk) ++ rest }
  recovered : ∀ early ∈ front, early.landing index log disk = .ok token ∧
    (early.recovered index log disk).store.awaitingRecovery = false ∧
    (early.recovered index log disk).store.lastCheckpoint = some token
  cause :
    group.Declines index log disk fault ∧ group.recovered index log disk = group ∧
      other.content group.store.log.file = disk.content group.store.log.file ∨
    (∃ source, group.store.Admits index log disk source ∧
      group.store.ReplayFails source disk fault) ∨
    front ≠ [] ∧ ∃ found, group.landing index log disk = .ok found ∧ found ≠ token ∧
      fault = .groupsDisagree group.id found token ∧
      (group.recovered index log disk).store.awaitingRecovery = false ∧
      (group.recovered index log disk).store.lastCheckpoint = some found
  entries : other.entries = disk.entries
  logs : ∀ early ∈ front ++ [group], other.content early.store.log.file =
    (early.store.recover index log disk).2.2.content early.store.log.file
  files : ∀ id, (∀ early ∈ front ++ [group], early.store.log.file ≠ id) →
    other.content id = disk.content id
  untouched : ∀ later ∈ rest,
    other.content later.store.log.file = disk.content later.store.log.file
  /-- If the first group declines, nothing has happened. -/
  unchanged : front = [] → group.Declines index log disk fault → after = manager ∧ other = disk
  /-- No other tokens help once a group has records. -/
  refused : ∀ early ∈ after.groups, early.store.log.isEmpty = false → ∀ index log disk,
    ∃ fault, (after.recover index log disk).1 = .error fault

namespace StopsRecovery

variable {manager : Manager D} {disk other : Disk} {known : Option Token} {front : List (Group D)}
  {group : Group D} {rest : List (Group D)} {fault : Fault}

/-- A group whose store fails has declined and is as before, or its log cannot be replayed. -/
theorem error_cases (h : StopsRecovery index log disk known front group fault disk other)
    (herror : group.landing index log disk = .error fault) :
    group.Declines index log disk fault ∧ group.recovered index log disk = group ∧
        other.content group.store.log.file = disk.content group.store.log.file ∨
      ∃ source, group.store.Admits index log disk source ∧
        group.store.ReplayFails source disk fault := by
  refine (Group.error_cases herror).imp_left fun hdeclines => ?_
  obtain ⟨hsame, hdisk⟩ := hdeclines.unchanged
  have hlog := h.logs group (List.mem_append_right front (List.mem_singleton_self group))
  rw [hdisk] at hlog
  exact ⟨hdeclines, hsame, hlog⟩

theorem untouched (h : StopsRecovery index log disk known front group fault disk other)
    (hs : manager.Stands disk) (hg : manager.groups = front ++ group :: rest) :
    ∀ later ∈ rest, other.content later.store.log.file = disk.content later.store.log.file := by
  intro later hl
  rw [List.append_cons] at hg
  obtain ⟨base, hb⟩ := hs.base
  have hstands : ∀ member ∈ (front ++ [group]) ++ rest,
      member.store.Stands disk (groupPlace base member.id) :=
    fun member hm => (hb member (hg ▸ hm)).2
  refine h.files _ fun early he => ?_
  have hne := (List.pairwise_append.mp (hg ▸ hs.distinct)).2.2 early he later hl
  exact log_apart (hstands later (List.mem_append_right _ hl))
    (hstands early (List.mem_append_left _ he)) hne.symm

end StopsRecovery

theorem recoveredUpTo {manager after : Manager D} {disk other : Disk} {fault : Fault}
    (h : manager.Stands disk) (hr : manager.recover index log disk = (.error fault, after, other)) :
    ∃ front group rest token,
      manager.RecoveredUpTo disk index log fault after other front group rest token := by
  obtain ⟨front, group, rest, hgroups, hafter, hstops⟩ := stopsRecovery h hr
  obtain ⟨landed, hfront, -, hfirst, hcause⟩ := hstops.landed
  have hunchanged : front = [] → group.Declines index log disk fault →
      after = manager ∧ other = disk := by
    rintro rfl hdeclines
    obtain ⟨hsame, hdisk⟩ := hdeclines.unchanged
    refine ⟨?_, (hstops.alone rfl).trans hdisk⟩
    rw [hafter, List.nil_append, List.map_singleton, hsame, List.singleton_append,
      ← List.nil_append (group :: rest), ← hgroups]
  have hrefused : ∀ early ∈ after.groups, early.store.log.isEmpty = false → ∀ index log disk,
      ∃ fault, (after.recover index log disk).1 = .error fault :=
    fun early he hrecords => recover_refused he hrecords
  have huntouched := hstops.untouched h hgroups
  cases landed with
  | none =>
    have hnone : ∀ early, early ∉ front := by
      intro early he
      obtain ⟨token, ht, -⟩ := hfront early he
      cases ht
    rcases hcause with herror | ⟨_, _, -, hsome, -⟩
    · exact ⟨front, group, rest, ⟨0⟩, hgroups, hafter, fun early he => absurd he (hnone early),
        (hstops.error_cases herror).imp_right Or.inl, hstops.entries, hstops.logs, hstops.files,
        huntouched, hunchanged, hrefused⟩
    · cases hsome
  | some token =>
    have hrecovered : ∀ early ∈ front, early.landing index log disk = .ok token ∧
        (early.recovered index log disk).store.awaitingRecovery = false ∧
        (early.recovered index log disk).store.lastCheckpoint = some token := by
      intro early he
      obtain ⟨found, hf, hl⟩ := hfront early he
      cases hf
      exact ⟨hl, Store.recover_ok hl⟩
    refine ⟨front, group, rest, token, hgroups, hafter, hrecovered, ?_, hstops.entries, hstops.logs,
      hstops.files, huntouched, hunchanged, hrefused⟩
    rcases hcause with herror | ⟨found, expected, hl, hsome, hne, hfault⟩
    · exact (hstops.error_cases herror).imp_right Or.inl
    · cases hsome
      have hbegun : front ≠ [] := fun hnil => by cases hfirst hnil
      exact Or.inr (Or.inr ⟨hbegun, found, hl, hne, hfault, Store.recover_ok hl⟩)

end Manager

namespace Primary

variable {K V : Type} [DecidableEq K]

/-- In any state that can be reached, a recovery of all groups that fails has recovered the groups
before the one at which it stopped. -/
theorem recover_stopped {config : Config} {identity : Nat} {disk opened last other : Disk}
    {manager after : Manager (KeyValue K V)} {actions : List (Action K V)} {primary : Primary K V}
    {index log : Option Token} {fault : Fault} (hw : disk.WellFormed)
    (hopen : Manager.open? config identity disk = (.ok manager, opened))
    (hrun : actAll actions (ofManager manager, opened) = (primary, last))
    (hr : primary.manager.recover index log last = (.error fault, after, other)) :
    ∃ front group rest token,
      primary.manager.RecoveredUpTo last index log fault after other front group rest token := by
  have hnew : Sound (ofManager manager : Primary K V) opened := .opened hw hopen
  have hsound := hnew.actAll actions
  rw [hrun] at hsound
  exact Manager.recoveredUpTo hsound.stands hr

def oneCheckpointed : List (Action Nat Nat) :=
  evenThenLarge ++
    [.perform (.upsert 1 4), .onStore 0 (.take .full ⟨1⟩), .onStore 0 .complete]

def recoversOne : Bool :=
  match Manager.open? (D := KeyValue Nat Nat) { dir := ["db"] } 1 (leftBehind oneCheckpointed) with
  | (.ok manager, opened) =>
    match actAll evenThenLarge (ofManager manager, opened) with
    | (primary, last) =>
      match primary.manager.recover none none last with
      | (.error fault, after, _) => decide (fault = .noLogCheckpoint ["db", "group-1"] ∧
          primary.manager.groups.map (·.store.awaitingRecovery) = [true, false] ∧
          after.groups.map (·.store.awaitingRecovery) = [false, false] ∧
          primary.manager.groups.map (·.store.log.tail) = [64, 64] ∧
          after.groups.map (·.store.log.tail) = [104, 64])
      | (.ok _, _) => false
  | (.error _, _) => false

theorem recover_stopped_one_checkpointed :
    ∃ (manager after : Manager (KeyValue Nat Nat)) (primary : Primary Nat Nat)
      (opened last other : Disk), (leftBehind oneCheckpointed).WellFormed ∧
      Manager.open? { dir := ["db"] } 1 (leftBehind oneCheckpointed) = (.ok manager, opened) ∧
      actAll evenThenLarge (ofManager manager, opened) = (primary, last) ∧
      primary.manager.recover none none last =
        (.error (.noLogCheckpoint ["db", "group-1"]), after, other) ∧
      ∃ front group rest token, primary.manager.RecoveredUpTo last none none
        (.noLogCheckpoint ["db", "group-1"]) after other front group rest token := by
  have hfacts : recoversOne = true := by decide +kernel
  unfold recoversOne at hfacts
  split at hfacts
  · rename_i manager opened hopen
    rcases hrun : actAll evenThenLarge (ofManager manager, opened) with ⟨primary, last⟩
    simp only [hrun] at hfacts
    split at hfacts
    · rename_i fault after other hr
      obtain ⟨rfl, -⟩ := of_decide_eq_true hfacts
      exact ⟨manager, after, primary, opened, last, other, wellFormed_leftBehind oneCheckpointed,
        hopen, hrun, hr, recover_stopped (wellFormed_leftBehind oneCheckpointed) hopen hrun hr⟩
    · cases hfacts
  · cases hfacts

/-- A recovery that fails is not undone: the first group serves its checkpoint. -/
theorem recover_stopped_leaves_recovered : ¬ ∀ (config : Config) (identity : Nat)
    (disk opened last other : Disk) (manager after : Manager (KeyValue Nat Nat))
    (actions : List (Action Nat Nat)) (primary : Primary Nat Nat) (index log : Option Token)
    (fault : Fault), disk.WellFormed → Manager.open? config identity disk = (.ok manager, opened) →
    actAll actions (ofManager manager, opened) = (primary, last) →
    primary.manager.recover index log last = (.error fault, after, other) →
    after.groups.map (·.store.log) = primary.manager.groups.map (·.store.log) ∧
      after.groups.map (·.store.heads) = primary.manager.groups.map (·.store.heads) ∧
      after.groups.map (·.store.sessions.commitPoints) =
        primary.manager.groups.map (·.store.sessions.commitPoints) ∧
      after.groups.map (·.store.awaitingRecovery) =
        primary.manager.groups.map (·.store.awaitingRecovery) ∧
      ∀ group ∈ primary.manager.groups,
        other.content group.store.log.file = last.content group.store.log.file := by
  have hfacts : recoversOne = true := by decide +kernel
  unfold recoversOne at hfacts
  intro h
  split at hfacts
  · rename_i manager opened hopen
    rcases hrun : actAll evenThenLarge (ofManager manager, opened) with ⟨primary, last⟩
    simp only [hrun] at hfacts
    split at hfacts
    · rename_i fault after other hr
      obtain ⟨-, hbefore, hafter, -⟩ := of_decide_eq_true hfacts
      obtain ⟨-, -, -, hsame, -⟩ :=
        h _ _ _ _ _ _ _ _ _ _ _ _ _ (wellFormed_leftBehind oneCheckpointed) hopen hrun hr
      rw [hbefore, hafter] at hsame
      exact absurd hsame (by decide)
    · cases hfacts
  · cases hfacts

end Primary

end PredicateIndex
