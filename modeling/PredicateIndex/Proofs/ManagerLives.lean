import PredicateIndex.Proofs.Chronicles
import PredicateIndex.Proofs.Rosters

/-!
# Lives of managers in one directory

Managers are created in a directory one after another. Each is given the same
groups, recovers them if a checkpoint of all groups was completed before, and is
closed at any time. Then the next one comes back to the last of the completed
checkpoints in all groups, and answers every query as it was answered when that
checkpoint was taken.
-/

set_option autoImplicit false

namespace PredicateIndex

variable {D : Type}

structure Life (D : Type) where
  config : Config := {}
  identity : Nat
  ops : List (Manager.Op D)

structure Annals (D : Type) where
  disk : Disk
  trackers : Nat → ChangeTracker D := fun _ => {}
  completed : List (Snapshot D) := []
  events : List Event := []

namespace Annals

def start (definitions : List (Definitions D)) (manager : Manager D) (disk : Disk)
    (annals : Annals D) : Chronicle D :=
  let (_, manager, disk) := Manager.registerAll definitions manager disk
  let trackers := annals.trackers
  let notes : Notes D := { completed := annals.completed }
  if annals.completed.isEmpty then
    { manager, disk, trackers, notes, events := .opened :: annals.events }
  else
    match manager.recover none none disk with
    | (.ok (some token), manager, disk) =>
      { manager, disk, trackers, notes, events := .recovered token :: .opened :: annals.events }
    | (_, manager, disk) =>
      { manager, disk, trackers, notes, events := .opened :: annals.events }

def live (dir : Path) (definitions : List (Definitions D)) (life : Life D) (annals : Annals D) :
    Annals D :=
  match Manager.open? { life.config with dir } life.identity annals.disk with
  | (.error _, disk) => { annals with disk }
  | (.ok manager, disk) =>
    let last := (annals.start definitions manager disk).run life.ops
    { disk := last.manager.close last.disk
      trackers := last.trackers
      completed := last.notes.completed
      events := last.events }

def run (dir : Path) (definitions : List (Definitions D)) : List (Life D) → Annals D → Annals D
  | [], annals => annals
  | life :: lives, annals => run dir definitions lives (annals.live dir definitions life)

structure Sound (annals : Annals D) (plan : Plan D) : Prop where
  waits : ∃ made, annals.disk.createDirs plan.dir = (.ok (), made) ∧ plan.Hosts made ∧
    ∀ group ∈ plan.groups, Manager.Waits plan annals.completed made group.1
  snapshots : ∀ snapshot ∈ annals.completed, snapshot.manager.Follows plan
  trackers : ∀ name, (annals.trackers name).Fits
  recorded : Recorded annals.events { completed := annals.completed : Notes D }

end Annals

namespace Manager

variable {plan : Plan D} {notes : Notes D} {manager : Manager D} {disk : Disk}

theorem worksIn_closeAll (own : Path → Prop) (groups : List (Group D)) (hw : disk.WellFormed) :
    Disk.WorksIn own disk (groups.foldl (fun disk group => group.store.close disk) disk) := by
  induction groups generalizing disk with
  | nil => exact .refl hw
  | cons group rest ih =>
    have hfirst : Disk.WorksIn own disk (group.store.close disk) :=
      FileLock.worksIn_release group.store.lock hw
    exact hfirst.trans (ih hfirst.wellFormed)

theorem waits_close {group : Group D} (hg : group ∈ manager.groups)
    (hn : group.Noted plan notes disk) :
    Waits plan notes.completed (manager.close disk) group.id := by
  have hnowhere : ∀ rest, ¬ (fun _ : Path => False) (groupPlace plan.base group.id ++ rest) :=
    fun _ h => h
  -- closing the groups before it and those behind it takes only locks, none of them its own
  obtain ⟨front, back, hgroups⟩ := List.append_of_mem hg
  obtain ⟨history, hwhole⟩ := hn.whole
  have hbefore := worksIn_closeAll (fun _ => False) front hn.hosts.wellFormed
  have hkept : Course.Whole _ (groupPlace plan.base group.id) history :=
    hwhole.frame hbefore hnowhere
  obtain ⟨newest, hcovered⟩ := hkept.close
  have hlogged : ∀ moment ∈ notes.completed.filterMap (·.moment? group.id),
      moment.kind.hasLog = true :=
    fun moment hm => hwhole.logged moment (List.mem_append_right _ hm)
  have hrests : Waits plan notes.completed (group.store.close
      (front.foldl (fun disk group => group.store.close disk) disk)) group.id := by
    rw [Waits, ← hn.dir]
    exact .covered hcovered hlogged
  have hclosed : Disk.WorksIn (fun _ => False) _ (group.store.close
      (front.foldl (fun disk group => group.store.close disk) disk)) :=
    FileLock.worksIn_release group.store.lock hbefore.wellFormed
  have hafter := worksIn_closeAll (fun _ => False) back hclosed.wellFormed
  rw [close, hgroups, List.foldl_append, List.foldl_cons]
  exact Store.Rests.frame hrests hafter hnowhere
    (hclosed.locksFiles (hbefore.locksFiles hn.hosts.locksFiles))

end Manager

namespace Chronicle

theorem Sound.close {chronicle : Chronicle D} {plan : Plan D} (h : chronicle.Sound plan) :
    Annals.Sound
      { disk := chronicle.manager.close chronicle.disk
        trackers := chronicle.trackers
        completed := chronicle.notes.completed
        events := chronicle.events } plan := by
  obtain ⟨group, hg⟩ := h.follows.exists_group
  have hosts := (h.noted group hg).hosts.frame
    (Manager.worksIn_closeAll (fun _ => False) chronicle.manager.groups
      (h.noted group hg).hosts.wellFormed)
  refine ⟨⟨_, Disk.createDirs_homed hosts.homed, hosts, fun entry he => ?_⟩, fun snapshot hs => ?_,
    h.trackers, h.dated.close⟩
  · obtain ⟨found, hf, -, hid, -⟩ := h.follows.find? he
    rw [← hid]
    exact Manager.waits_close hf (h.noted found hf)
  · exact h.snapshots snapshot (List.mem_append_right _ hs)

end Chronicle

namespace Annals

variable {annals : Annals D} {plan : Plan D} {definitions : List (Definitions D)}

theorem Sound.opens (h : annals.Sound plan)
    (hp : plan.groups = (Manager.roster [] 0 definitions).map fun entry => (entry.1, entry.2.made))
    (config : Config) (identity : Nat) : ∃ opened ready prepared,
      Manager.open? (D := D) { config with dir := plan.dir } identity annals.disk =
        (.ok { config := { config with dir := plan.dir }, identity }, opened) ∧
      Manager.registerAll definitions { config := { config with dir := plan.dir }, identity }
          opened =
        ((Manager.roster [] 0 definitions).flatMap (Manager.given identity), ready, prepared) ∧
      ready.lastToken = ⟨0⟩ ∧ ready.Follows plan ∧
      ∀ group ∈ ready.groups, group.Wakes plan annals.completed prepared := by
  obtain ⟨made, hmade, hosts, hwaits⟩ := h.waits
  have hroster : ∀ entry ∈ Manager.roster [] 0 definitions,
      (entry.1, entry.2.made) ∈ plan.groups ∧ Manager.Waits plan annals.completed made entry.1 := by
    intro entry he
    have hm : (entry.1, entry.2.made) ∈ plan.groups := hp ▸ List.mem_map_of_mem he
    exact ⟨hm, hwaits _ hm⟩
  obtain ⟨ready, prepared, hall, hconfig, -, htoken, hids, hwakes⟩ := @Manager.registerAll_wakes
    D plan annals.completed { config := { config with dir := plan.dir }, identity } made definitions
    hosts rfl (by simp) hroster
  refine ⟨made, ready, prepared, ?_, hall, htoken, ⟨by rw [hconfig], ?_, fun group hg => ?_⟩, hwakes⟩
  · rw [Manager.open?, hmade]
  · rw [hids, hp, List.map_map]
    rfl
  · exact (hwakes group hg).mem

theorem Sound.start (h : annals.Sound plan)
    (hf : ∀ snapshot ∈ annals.completed, snapshot.Fits) {manager ready : Manager D}
    {registered : List (Registered D)} {opened prepared : Disk}
    (hr : Manager.registerAll definitions manager opened = (registered, ready, prepared))
    (ht : ready.lastToken = ⟨0⟩) (hp : ready.Follows plan)
    (hw : ∀ group ∈ ready.groups, group.Wakes plan annals.completed prepared) :
    (annals.start definitions manager opened).Sound plan := by
  rw [Annals.start, hr]
  cases hl : annals.completed with
  | nil =>
    rw [hl] at hw
    have hrecorded := h.recorded
    rw [hl] at hrecorded
    exact ⟨hp, fun group hg => (hw group hg).noted, by simp [Notes.snapshots], h.trackers,
      ht ▸ hrecorded.opened⟩
  | cons snapshot rest =>
    have hhead : annals.completed.head? = some snapshot := by rw [hl]; rfl
    obtain ⟨after, other, hrecover, hfollows, -, hlast, hrestored⟩ :=
      Manager.recover_newest hp hw h.snapshots hf hhead
    have hdated := h.recorded.reopened hhead
    have hsnapshots := h.snapshots
    rw [ht] at hlast
    rw [hl] at hdated hsnapshots hrestored
    simp only [List.isEmpty_cons, Bool.false_eq_true, if_false, hrecover]
    exact ⟨hfollows, fun group hg => (hrestored group hg).noted, hsnapshots, h.trackers,
      hlast ▸ hdated⟩

theorem grows_start (definitions : List (Definitions D)) (manager : Manager D) (disk : Disk)
    (annals : Annals D) : annals.events <:+ (annals.start definitions manager disk).events ∧
      (annals.start definitions manager disk).notes.completed = annals.completed := by
  rw [start]
  rcases Manager.registerAll definitions manager disk with ⟨registered, ready, prepared⟩
  dsimp only
  split
  · exact ⟨List.suffix_cons _ _, rfl⟩
  · split
    · exact ⟨(List.suffix_cons _ _).trans (List.suffix_cons _ _), rfl⟩
    · exact ⟨List.suffix_cons _ _, rfl⟩

theorem grows_live (dir : Path) (definitions : List (Definitions D)) (life : Life D)
    (annals : Annals D) : annals.events <:+ (annals.live dir definitions life).events ∧
      annals.completed <:+ (annals.live dir definitions life).completed := by
  rw [live]
  split
  · exact ⟨List.suffix_refl _, List.suffix_refl _⟩
  · rename_i manager disk _
    obtain ⟨hevents, hcompleted⟩ := grows_start definitions manager disk annals
    obtain ⟨hlater, hmore⟩ := Chronicle.grows_run life.ops (annals.start definitions manager disk)
    exact ⟨hevents.trans hlater, hcompleted ▸ hmore⟩

theorem grows_run (dir : Path) (definitions : List (Definitions D)) (lives : List (Life D))
    (annals : Annals D) : annals.events <:+ (run dir definitions lives annals).events ∧
      annals.completed <:+ (run dir definitions lives annals).completed := by
  induction lives generalizing annals with
  | nil => exact ⟨List.suffix_refl _, List.suffix_refl _⟩
  | cons life lives ih =>
    obtain ⟨hevents, hcompleted⟩ := grows_live dir definitions life annals
    obtain ⟨hlater, hmore⟩ := ih (annals.live dir definitions life)
    exact ⟨hevents.trans hlater, hcompleted.trans hmore⟩

/-- A life leaves what the next one needs. -/
theorem Sound.live (h : annals.Sound plan)
    (hp : plan.groups = (Manager.roster [] 0 definitions).map fun entry => (entry.1, entry.2.made))
    (hf : ∀ snapshot ∈ annals.completed, snapshot.Fits) (life : Life D)
    (hb : Event.Bounded (annals.live plan.dir definitions life).events) :
    (annals.live plan.dir definitions life).Sound plan := by
  obtain ⟨opened, ready, prepared, hopen, hregister, htoken, hfollows, hwakes⟩ :=
    h.opens hp life.config life.identity
  rw [Annals.live, hopen] at hb ⊢
  exact ((h.start hf hregister htoken hfollows hwakes).run hb).close

theorem Sound.run (h : annals.Sound plan)
    (hp : plan.groups = (Manager.roster [] 0 definitions).map fun entry => (entry.1, entry.2.made))
    {lives : List (Life D)}
    (hf : ∀ snapshot ∈ (run plan.dir definitions lives annals).completed, snapshot.Fits)
    (hb : Event.Bounded (run plan.dir definitions lives annals).events) :
    (run plan.dir definitions lives annals).Sound plan := by
  induction lives generalizing annals with
  | nil => exact h
  | cons life lives ih =>
    have hgrows := grows_run plan.dir definitions (life :: lives) annals
    obtain ⟨hlater, -⟩ := grows_run plan.dir definitions lives
      (annals.live plan.dir definitions life)
    have hlive := h.live hp (fun snapshot hs => hf snapshot (hgrows.2.subset hs)) life
      fun token ht => hb token (hlater.subset ht)
    exact ih hlive hf hb

theorem sound_empty {disk made : Disk} (hm : disk.createDirs plan.dir = (.ok (), made))
    (he : made.EmptyDir plan.dir plan.base) : ({ disk } : Annals D).Sound plan where
  waits := by
    refine ⟨made, hm, ⟨he.wellFormed, he.homed, he.locks⟩, fun group _ => .blank fun rest => ?_⟩
    rw [Manager.groupPlace, List.append_assoc]
    exact he.nothing _ (by simp)
  snapshots := by simp
  trackers _ := ChangeTracker.fits_of_groups rfl
  recorded :=
    { ascend := by
        intro later token earlier hnil
        simp at hnil
      issued := by simp [Notes.snapshots]
      descending := List.Pairwise.nil
      found := by simp }

/-- After any lives in a directory that was missing or empty, the next manager that is given the
same groups comes back to the last completed checkpoint in all of them, and answers every query as
it was answered when that checkpoint was taken; and every token was issued above those that were
known then. -/
theorem recover_of_lives {disk made : Disk} {dir base : Path}
    (hmade : disk.createDirs dir = (.ok (), made)) (hempty : made.EmptyDir dir base)
    {definitions : List (Definitions D)} (hsome : Manager.roster [] 0 definitions ≠ [])
    {lives : List (Life D)} {annals : Annals D} (hrun : run dir definitions lives { disk } = annals)
    (hfits : ∀ snapshot ∈ annals.completed, snapshot.Fits) (hbounded : Event.Bounded annals.events) :
    Event.Ascend annals.events ∧
    ∀ (config : Config) (identity : Nat), ∃ manager opened ready prepared,
      Manager.open? { config with dir } identity annals.disk = (.ok manager, opened) ∧
      Manager.registerAll definitions manager opened =
        ((Manager.roster [] 0 definitions).flatMap (Manager.given identity), ready, prepared) ∧
      ready.groups.map Group.id = (Manager.roster [] 0 definitions).map Prod.fst ∧
      ∀ snapshot, annals.completed.head? = some snapshot → ∃ after other,
        ready.recover none none prepared = (.ok (some snapshot.token), after, other) ∧
        after.groups.map Group.id = ready.groups.map Group.id ∧
        (∀ group ∈ after.groups, group.store.awaitingRecovery = false ∧
          group.store.lastCheckpoint = some snapshot.token) ∧
        ∀ terms combinator settings, after.ask other terms combinator settings =
          snapshot.manager.ask snapshot.disk terms combinator settings := by
  obtain ⟨plan, rfl, rfl, hp⟩ : ∃ plan : Plan D, plan.dir = dir ∧ plan.base = base ∧
      plan.groups = (Manager.roster [] 0 definitions).map fun entry => (entry.1, entry.2.made) := by
    refine ⟨⟨dir, base, _, ?_, ?_, ?_⟩, rfl, rfl, rfl⟩
    · simpa using hsome
    · rw [List.map_map]
      exact Manager.nodup_roster [] 0 definitions
    · intro group hg
      obtain ⟨entry, he, rfl⟩ := List.mem_map.mp hg
      exact (Manager.roster_bounds he).2
  -- what one life leaves the next one needs, so the invariant holds after all of them
  have hsound : annals.Sound plan := by
    rw [← hrun] at hfits hbounded ⊢
    exact (sound_empty hmade hempty).run hp hfits hbounded
  refine ⟨hsound.recorded.ascend, fun config identity => ?_⟩
  obtain ⟨opened, ready, prepared, hopen, hregister, -, hfollows, hwakes⟩ :=
    hsound.opens hp config identity
  refine ⟨_, opened, ready, prepared, hopen, hregister, ?_, fun snapshot hl => ?_⟩
  · rw [hfollows.ids, hp, List.map_map]
    rfl
  · have hmember := List.mem_of_head? hl
    obtain ⟨after, other, hrecover, hafter, -, -, hrestored⟩ :=
      Manager.recover_newest hfollows hwakes hsound.snapshots hfits hl
    refine ⟨after, other, hrecover, hafter.ids.trans hfollows.ids.symm, fun group hg => ?_,
      fun terms combinator settings => ?_⟩
    · obtain ⟨history, hwhole, -⟩ := (hrestored group hg).whole
      exact ⟨hwhole.ready.awaitingRecovery, (hrestored group hg).lastCheckpoint⟩
    · exact (Manager.answersAlike_of_restored hafter (hsound.snapshots snapshot hmember)
        (hfits snapshot hmember) hrestored).ask terms combinator settings

def evenThenLarge : List (Definitions Nat) :=
  [{ type := .bool, predicates := [("even", fun n => some (n % 2 == 0))] },
    { type := .bool, predicates := [("large", fun n => if 3 < n then some true else none)] }]

def twoLives : List (Life Nat) :=
  [{ identity := 0
     ops := [.upsert 2 ⟨2, 1⟩ none, .upsert 5 ⟨5, 1⟩ none, .take 10, .upsert 4 ⟨4, 1⟩ none,
       .complete, .upsert 6 ⟨6, 1⟩ none] },
    { identity := 1
      ops := [.setBefore 0 2 ⟨2, 1⟩, .setAfter 0 8 ⟨8, 1⟩, .update 0, .take 3, .evict, .complete,
        .upsert 4 ⟨4, 1⟩ none, .take 3] }]

def evenOrLarge : List QueryTerms :=
  [⟨.bool, [(⟨"even", 0, 0, 0⟩, [true])]⟩, ⟨.bool, [(⟨"large", 1, 0, 0⟩, [true])]⟩]

def twoLivesRecorded : Bool :=
  let annals := run ["db"] evenThenLarge twoLives { disk := .withDir "db" }
  decide ((∀ snapshot ∈ annals.completed, snapshot.Fits) ∧ Event.Bounded annals.events ∧
      annals.events = [.issued ⟨12⟩, .completed ⟨11⟩, .issued ⟨11⟩, .recovered ⟨10⟩, .opened,
        .completed ⟨10⟩, .issued ⟨10⟩, .opened]) &&
    match annals.completed.head? with
    | some snapshot =>
      match snapshot.manager.ask snapshot.disk evenOrLarge none {} with
      | .ok ids => decide (snapshot.token = ⟨11⟩ ∧ ids = [⟨5, 1⟩, ⟨8, 1⟩])
      | .error _ => false
    | none => false

theorem recover_of_two_lives : ∃ (annals : Annals Nat) (snapshot : Snapshot Nat),
    run ["db"] evenThenLarge twoLives { disk := .withDir "db" } = annals ∧
      annals.completed.head? = some snapshot ∧ snapshot.token = ⟨11⟩ ∧
      annals.events = [.issued ⟨12⟩, .completed ⟨11⟩, .issued ⟨11⟩, .recovered ⟨10⟩, .opened,
        .completed ⟨10⟩, .issued ⟨10⟩, .opened] ∧ Event.Ascend annals.events ∧
      ∃ manager opened registered ready prepared after other,
        Manager.open? { dir := ["db"] } 2 annals.disk = (.ok manager, opened) ∧
        Manager.registerAll evenThenLarge manager opened = (registered, ready, prepared) ∧
        ready.recover none none prepared = (.ok (some ⟨11⟩), after, other) ∧
        (∀ terms combinator settings, after.ask other terms combinator settings =
          snapshot.manager.ask snapshot.disk terms combinator settings) ∧
        after.ask other evenOrLarge none {} = .ok [⟨5, 1⟩, ⟨8, 1⟩] := by
  have hfacts : twoLivesRecorded = true := by decide +kernel
  unfold twoLivesRecorded at hfacts
  obtain ⟨annals, hrun⟩ : ∃ annals,
    run ["db"] evenThenLarge twoLives { disk := .withDir "db" } = annals := ⟨_, rfl⟩
  rw [hrun] at hfacts
  obtain ⟨hlives, hlast⟩ := Bool.and_eq_true_iff.mp hfacts
  obtain ⟨hfits, hbounded, hevents⟩ := of_decide_eq_true hlives
  have hempty : (Disk.withDir "db").EmptyDir ["db"] ["db"] := Disk.emptyDir_withDir (by decide)
  obtain ⟨hascend, hnext⟩ := recover_of_lives (Disk.createDirs_homed hempty.homed) hempty
    (by decide) hrun hfits hbounded
  split at hlast
  · rename_i snapshot hhead
    split at hlast
    · rename_i ids hask
      obtain ⟨htoken, rfl⟩ := of_decide_eq_true hlast
      obtain ⟨manager, opened, ready, prepared, hopen, hregister, -, hrecover⟩ :=
        hnext { dir := ["db"] } 2
      obtain ⟨after, other, hrecovered, -, -, hanswers⟩ := hrecover snapshot hhead
      rw [htoken] at hrecovered
      exact ⟨annals, snapshot, hrun, hhead, htoken, hevents, hascend, manager, opened, _, ready,
        prepared, after, other, hopen, hregister, hrecovered, hanswers,
        (hanswers evenOrLarge none {}).trans hask⟩
    · cases hlast
  · cases hlast

/-- Without groups nothing comes back; a token that was issued and not completed is
forgotten with the manager; and above the greatest token there is none. -/
theorem limits_of_lives :
    (∃ (annals : Annals Nat) (snapshot : Snapshot Nat) (opened : Disk),
      run ["db"] [] [{ identity := 0, ops := [.take 1, .complete] }] { disk := .withDir "db" } =
          annals ∧
        annals.completed = [snapshot] ∧ snapshot.token = ⟨1⟩ ∧
        Manager.open? { dir := ["db"] } 1 annals.disk =
          (.ok { config := { dir := ["db"] }, identity := 1 : Manager Nat }, opened) ∧
        (Manager.recover { config := { dir := ["db"] }, identity := 1 : Manager Nat }
          none none opened).1 = .ok none) ∧
    (run ["db"] evenThenLarge
      [{ identity := 0, ops := [.take 10] }, { identity := 1, ops := [.take 3] }]
      { disk := .withDir "db" }).events =
        [.issued ⟨3⟩, .opened, .issued ⟨10⟩, .opened] ∧
    (run ["db"] evenThenLarge
      [{ identity := 0, ops := [.take 18446744073709551615, .complete, .take 3] }]
      { disk := .withDir "db" }).events =
        [.issued ⟨3⟩, .completed ⟨18446744073709551615⟩, .issued ⟨18446744073709551615⟩,
          .opened] := by
  refine ⟨?_, by decide +kernel, by decide +kernel⟩
  exact ⟨_, _, _, rfl, rfl, rfl, rfl, rfl⟩

end Annals

end PredicateIndex
