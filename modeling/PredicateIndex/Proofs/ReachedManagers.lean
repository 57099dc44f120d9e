import PredicateIndex.Proofs.LiveManagers
import PredicateIndex.Proofs.ManagerLives

/-!
# States that a manager can come to

A manager is created in a directory, or in one where managers have lived before
and then comes back to their last checkpoint; from then on anything may be
asked of it, and predicates may be registered. In all these states its chains
can be read, since a snapshot has only ever been taken of groups whose chains
could be read, and recovery brings back the records of a snapshot.
-/

set_option autoImplicit false

namespace PredicateIndex

variable {D : Type}

theorem Plan.exists_of_roster (dir base : Path) {definitions : List (Definitions D)}
    (h : Manager.roster [] 0 definitions ≠ []) :
    ∃ plan : Plan D, plan.dir = dir ∧ plan.base = base ∧ plan.groups =
      (Manager.roster [] 0 definitions).map fun entry => (entry.1, entry.2.made) := by
  refine ⟨⟨dir, base, _, ?_, ?_, fun group hg => ?_⟩, rfl, rfl, rfl⟩
  · simpa using h
  · rw [List.map_map]
    exact Manager.nodup_roster [] 0 definitions
  · obtain ⟨entry, he, rfl⟩ := List.mem_map.mp hg
    exact (Manager.roster_bounds he).2

def Snapshot.Legible (snapshot : Snapshot D) : Prop :=
  ∀ group ∈ snapshot.manager.groups, ∃ place, group.Legible place snapshot.disk

theorem Group.Restored.legible {group : Group D} {plan : Plan D} {completed : List (Snapshot D)}
    {snapshot : Snapshot D} {disk : Disk} (h : group.Restored plan completed snapshot disk)
    (hf : snapshot.manager.Follows plan) (hl : snapshot.Legible) :
    ∃ place, group.Legible place disk := by
  obtain ⟨history, hwhole, hcaptured⟩ := h.whole
  obtain ⟨source, hs, -, hid, -⟩ := hf.find? h.mem
  have hready := hcaptured _ (hid ▸ Snapshot.moment?_eq hf hs)
  obtain ⟨place, -, records, hk, ho⟩ := hl source hs
  -- the log of the snapshot has only one list of records, which is the one that came back
  obtain rfl : history = records := by
    have hsame := Except.ok.inj (hready.keeps.records.symm.trans hk.records)
    rw [← Log.map_addressed Log.origin history, hsame, Log.map_addressed]
  exact ⟨_, plan.sized _ h.mem, history, hwhole.ready.keeps, ho⟩

namespace Chronicle

theorem snapshots_step (op : Manager.Op D) (chronicle : Chronicle D) {snapshot : Snapshot D}
    (h : snapshot ∈ (chronicle.step op).notes.snapshots) :
    snapshot ∈ chronicle.notes.snapshots ∨
      (snapshot.manager = chronicle.manager ∧ snapshot.disk = chronicle.disk) := by
  cases op with
  | upsert data id tracker =>
    cases tracker with
    | none => exact .inl h
    | some name =>
      rw [step] at h
      split at h <;> exact .inl h
  | take clock =>
    rw [step] at h
    split at h
    · rcases List.mem_append.mp h with h | h
      · rw [List.mem_singleton.mp h]
        exact .inr ⟨rfl, rfl⟩
      · exact .inl (List.mem_append_right _ h)
    · exact .inl h
  | complete =>
    rw [step] at h
    split at h
    · exact .inl h
    · exact .inl h
  | _ => exact .inl h

theorem Live.snapshots_run {chronicle : Chronicle D} (h : chronicle.Live)
    (hs : ∀ snapshot ∈ chronicle.notes.snapshots, snapshot.Legible) (ops : List (Manager.Op D)) :
    (chronicle.run ops).Live ∧
      ∀ snapshot ∈ (chronicle.run ops).notes.snapshots, snapshot.Legible := by
  induction ops generalizing chronicle with
  | nil => exact ⟨h, hs⟩
  | cons op ops ih =>
    refine ih (h.ask op).live fun snapshot hm => ?_
    rcases snapshots_step op chronicle hm with hm | ⟨hmanager, hdisk⟩
    · exact hs snapshot hm
    · intro group hg
      rw [hmanager] at hg
      exact hdisk ▸ h.legible group hg

theorem Live.ofEmpty {manager : Manager D} {disk : Disk} (hw : disk.WellFormed)
    (hg : manager.groups = []) : Live { manager, disk } :=
  ⟨⟨hw, by simp [hg], by simp [hg], by simp [hg]⟩, by simp [hg],
    fun _ => ChangeTracker.fits_of_groups rfl⟩

theorem Live.registerAll {chronicle : Chronicle D} (h : chronicle.Live)
    (definitions : List (Definitions D)) :
    Live { chronicle with
      manager := (Manager.registerAll definitions chronicle.manager chronicle.disk).2.1
      disk := (Manager.registerAll definitions chronicle.manager chronicle.disk).2.2 } := by
  induction definitions generalizing chronicle with
  | nil => exact h
  | cons first rest ih =>
    have hfirst := (h.register first).live
    rw [Manager.registerAll]
    rw [Manager.Deed.step] at hfirst
    rcases hr : chronicle.manager.register first.type first.predicates chronicle.disk with
      ⟨fault | handles, manager, disk⟩ <;> rw [hr] at hfirst <;> exact ih hfirst

end Chronicle

namespace Annals

variable {annals : Annals D} {plan : Plan D} {definitions : List (Definitions D)}

theorem Sound.live_start (h : annals.Sound plan)
    (hp : plan.groups = (Manager.roster [] 0 definitions).map fun entry => (entry.1, entry.2.made))
    (hf : ∀ snapshot ∈ annals.completed, snapshot.Fits)
    (hl : ∀ snapshot ∈ annals.completed, snapshot.Legible) {config : Config} {identity : Nat}
    {manager : Manager D} {opened : Disk}
    (hopen : Manager.open? { config with dir := plan.dir } identity annals.disk =
      (.ok manager, opened)) : (annals.start definitions manager opened).Live := by
  obtain ⟨made, hmade, hosts, -⟩ := h.waits
  obtain ⟨found, ready, prepared, hfound, hregister, -, hfollows, hwakes⟩ :=
    h.opens hp config identity
  rw [Manager.open?, hmade] at hfound hopen
  cases hopen
  cases hfound
  have hempty : Chronicle.Live
      { manager :=
          ({ config := { config with dir := plan.dir }, identity } : Manager D), disk := opened } :=
    .ofEmpty hosts.wellFormed rfl
  have hlive := hempty.registerAll definitions
  rw [hregister] at hlive
  rw [Annals.start, hregister]
  cases hc : annals.completed with
  | nil => exact ⟨hlive.stands, hlive.legible, h.trackers⟩
  | cons snapshot rest =>
    have hhead : annals.completed.head? = some snapshot := by rw [hc]; rfl
    have hmember : snapshot ∈ annals.completed := List.mem_of_head? hhead
    obtain ⟨after, other, hrecover, -, -, -, hrestored⟩ :=
      Manager.recover_newest hfollows hwakes h.snapshots hf hhead
    have hstands := hlive.stands.recover none none
    simp only [List.isEmpty_cons, Bool.false_eq_true, if_false, hrecover] at hstands ⊢
    exact ⟨hstands, fun group hg =>
      (hrestored group hg).legible (h.snapshots snapshot hmember) (hl snapshot hmember), h.trackers⟩

theorem snapshots_start (definitions : List (Definitions D)) (manager : Manager D) (disk : Disk)
    (annals : Annals D) :
    (annals.start definitions manager disk).notes.snapshots = annals.completed := by
  rw [start]
  rcases Manager.registerAll definitions manager disk with ⟨registered, ready, prepared⟩
  dsimp only
  repeat' split
  all_goals rfl

theorem Sound.legible_live (h : annals.Sound plan)
    (hp : plan.groups = (Manager.roster [] 0 definitions).map fun entry => (entry.1, entry.2.made))
    (hf : ∀ snapshot ∈ annals.completed, snapshot.Fits)
    (hl : ∀ snapshot ∈ annals.completed, snapshot.Legible) (life : Life D) :
    ∀ snapshot ∈ (annals.live plan.dir definitions life).completed, snapshot.Legible := by
  rw [Annals.live]
  split
  · exact hl
  · rename_i manager opened hopen
    have hstart : ∀ snapshot ∈ (annals.start definitions manager opened).notes.snapshots,
        snapshot.Legible := by rwa [snapshots_start]
    obtain ⟨-, hall⟩ := (h.live_start hp hf hl hopen).snapshots_run hstart life.ops
    exact fun snapshot hs => hall snapshot (List.mem_append_right _ hs)

theorem Sound.legible_run (h : annals.Sound plan)
    (hp : plan.groups = (Manager.roster [] 0 definitions).map fun entry => (entry.1, entry.2.made))
    (hl : ∀ snapshot ∈ annals.completed, snapshot.Legible) {lives : List (Life D)}
    (hf : ∀ snapshot ∈ (Annals.run plan.dir definitions lives annals).completed, snapshot.Fits)
    (hb : Event.Bounded (Annals.run plan.dir definitions lives annals).events) :
    ∀ snapshot ∈ (Annals.run plan.dir definitions lives annals).completed, snapshot.Legible := by
  induction lives generalizing annals with
  | nil => exact hl
  | cons life lives ih =>
    have hgrows := grows_run plan.dir definitions (life :: lives) annals
    obtain ⟨hlater, -⟩ := grows_run plan.dir definitions lives
      (annals.live plan.dir definitions life)
    have hfits : ∀ snapshot ∈ annals.completed, snapshot.Fits := fun snapshot hs =>
      hf snapshot (hgrows.2.subset hs)
    exact ih (h.live hp hfits life fun token ht => hb token (hlater.subset ht))
      (h.legible_live hp hfits hl life) hf hb

/-- After any lives in a directory that was missing or empty, the next manager that is given the
same groups is live from the start. -/
theorem live_of_lives {disk made : Disk} {dir base : Path}
    (hmade : disk.createDirs dir = (.ok (), made)) (hempty : made.EmptyDir dir base)
    (hsome : Manager.roster [] 0 definitions ≠ []) {lives : List (Life D)}
    (hrun : run dir definitions lives { disk } = annals)
    (hfits : ∀ snapshot ∈ annals.completed, snapshot.Fits) (hbounded : Event.Bounded annals.events)
    {config : Config} {identity : Nat} {manager : Manager D} {opened : Disk}
    (hopen : Manager.open? { config with dir } identity annals.disk = (.ok manager, opened)) :
    (annals.start definitions manager opened).Live := by
  obtain ⟨plan, rfl, rfl, hp⟩ := Plan.exists_of_roster dir base hsome
  have hsound := sound_empty hmade hempty
  rw [← hrun] at hfits hbounded hopen ⊢
  exact (hsound.run hp hfits hbounded).live_start hp hfits
    (hsound.legible_run hp (by simp) hfits hbounded) hopen

end Annals

inductive Chronicle.Reached : Chronicle D → Prop
  /-- A manager is created in any directory, whatever is in it. -/
  | opened {config : Config} {identity : Nat} {disk opened : Disk} {manager : Manager D}
      (hw : disk.WellFormed)
      (hopen : Manager.open? config identity disk = (.ok manager, opened)) :
      Reached { manager, disk := opened }
  /-- A manager is created where others have lived, and comes back to their last checkpoint. -/
  | revived {disk made opened : Disk} {dir base : Path} {definitions : List (Definitions D)}
      {lives : List (Life D)} {annals : Annals D} {config : Config} {identity : Nat}
      {manager : Manager D} (hmade : disk.createDirs dir = (.ok (), made))
      (hempty : made.EmptyDir dir base) (hsome : Manager.roster [] 0 definitions ≠ [])
      (hrun : Annals.run dir definitions lives { disk } = annals)
      (hfits : ∀ snapshot ∈ annals.completed, snapshot.Fits)
      (hbounded : Event.Bounded annals.events)
      (hopen : Manager.open? { config with dir } identity annals.disk = (.ok manager, opened)) :
      Reached (annals.start definitions manager opened)
  /-- Something is asked of the manager, or predicates are registered. -/
  | step {chronicle : Chronicle D} (h : Reached chronicle) (deed : Manager.Deed D) :
      Reached (deed.step chronicle).2

namespace Chronicle.Reached

variable {chronicle : Chronicle D}

theorem live (h : chronicle.Reached) : chronicle.Live := by
  induction h with
  | opened hw hopen => exact .opened hw hopen
  | revived hmade hempty hsome hrun hfits hbounded hopen =>
    exact Annals.live_of_lives hmade hempty hsome hrun hfits hbounded hopen
  | step h deed ih => exact (ih.step deed).live

theorem run (h : chronicle.Reached) (deeds : List (Manager.Deed D)) :
    Reached (Manager.Deed.run deeds chronicle).2 := by
  induction deeds generalizing chronicle with
  | nil => exact h
  | cons deed rest ih => exact ih (h.step deed)

end Chronicle.Reached

def Chronicle.ofDeeds (config : Config) (deeds : List (Manager.Deed D)) : Option (Chronicle D) :=
  match Manager.open? config 0 {} with
  | (.error _, _) => none
  | (.ok manager, opened) => some (Manager.Deed.run deeds { manager, disk := opened }).2

theorem Chronicle.reached_of_deeds {config : Config} {deeds : List (Manager.Deed D)}
    {chronicle : Chronicle D} (h : Chronicle.ofDeeds config deeds = some chronicle) :
    chronicle.Reached := by
  rw [Chronicle.ofDeeds] at h
  rcases hopen : Manager.open? (D := D) config 0 {} with ⟨fault | manager, opened⟩ <;>
    rw [hopen] at h <;> cases h
  exact (Chronicle.Reached.opened .empty hopen).run deeds

def numbersStored : Option (Chronicle Nat) :=
  Chronicle.ofDeeds { dir := ["db"] }
    [.register { type := .bool,
                 predicates := [("even", fun n => some (n % 2 == 0)),
                   ("large", fun n => if 3 < n then some true else none)] },
      .ask (.upsert 4 ⟨7, 1⟩ none), .ask (.upsert 2 ⟨2, 9⟩ none), .ask .evict,
      .ask (.upsert 6 ⟨7, 1⟩ none)]

end PredicateIndex
