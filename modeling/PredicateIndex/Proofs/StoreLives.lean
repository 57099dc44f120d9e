import PredicateIndex.Proofs.Neighbours

/-!
# From one life of a store to the next

Before its first life the directory of a store need not be there; later it has
what the completed checkpoints need. Either way the store opens, and recovery
without tokens gives back the newest checkpoint, while other stores on the same
disk notice nothing.
-/

set_option autoImplicit false

namespace PredicateIndex

namespace Store

inductive Rests (disk : Disk) (dir place : Path) : List Moment → Prop where
  | blank (h : ∀ rest, disk.entry? (place ++ rest) = none) : Rests disk dir place []
  | covered {completed : List Moment} {history : List LogRecord}
      (h : Timeline.Covered ⟨disk, completed⟩ dir place history)
      (logged : ∀ moment ∈ completed, moment.kind.hasLog = true) : Rests disk dir place completed

structure Arises (store : Store) (disk : Disk) (place : Path) (completed : List Moment) : Prop where
  reopened : store.Reopened disk place completed
  ascending : store.sessions.commitPoints.Ascending
  logged : ∀ moment ∈ completed, moment.kind.hasLog = true
  covered : ∃ start history, Timeline.Covered ⟨start, completed⟩ store.dir place history

variable {own : Path → Prop} {store : Store} {disk other : Disk} {dir place base : Path}
  {name : String} {completed : List Moment}

theorem Rests.frame (h : Rests disk dir place completed) (hw : Disk.WorksIn own disk other)
    (hp : ∀ rest, ¬ own (place ++ rest)) (hf : disk.LocksFiles) :
    Rests other dir place completed := by
  cases h with
  | blank h =>
    refine .blank fun rest => ?_
    rw [hw.entry _ (hp rest), h rest]
  | covered h hlog => exact .covered { h with left := hw.left hp hf h.left } hlog

theorem Arises.frame (h : store.Arises disk place completed) (hw : Disk.WorksIn own disk other)
    (hp : ∀ rest, ¬ own (place ++ rest)) : store.Arises other place completed :=
  { h with reopened := hw.reopened hp h.reopened }

theorem Rests.made (h : Rests disk (dir.child name) (base ++ [name]) completed)
    (hw : disk.WellFormed) (hf : disk.LocksFiles) (hd : Disk.Homed disk dir base)
    (hn : Path.Plain name) : ∃ made history, disk.createDirs (dir.child name) = (.ok (), made) ∧
      Timeline.Covered ⟨made, completed⟩ (dir.child name) (base ++ [name]) history ∧
      (∀ moment ∈ completed, moment.kind.hasLog = true) ∧
      Disk.WorksIn (base ++ [name] <+: ·) disk made := by
  cases h with
  | covered h hlog =>
    exact ⟨disk, _, Disk.createDirs_homed h.left.openable.homed, h, hlog, .refl hw⟩
  | blank h =>
    have hnone : disk.entry? (base ++ [name]) = none := by simpa using h []
    obtain ⟨made, hmade, hdirs⟩ := Disk.ensureDir_child hd hn fun id he => by
      rw [hnone] at he
      cases he
    have hworks : Disk.WorksIn (base ++ [name] <+: ·) disk made :=
      hdirs.worksIn hw fun p hp => by simp [List.mem_singleton.mp hp]
    have hempty : made.EmptyDir (dir.child name) (base ++ [name]) :=
      { wellFormed := hworks.wellFormed
        homed := (hd.mono hworks.directory).child hn (by simp [hdirs.entry])
        nothing := fun rest hrest => by
          rw [hdirs.entry, if_neg (by simpa using hrest)]
          exact h rest
        locks := hworks.locksFiles hf }
    refine ⟨made, [], Disk.createDirsUnder_of_ok hmade, ?_, by simp, hworks⟩
    exact
      { left := hempty.left
        endsOnLog := fun last hl => by cases hl
        fronts := by simp
        newest := by simp
        empty := fun _ => rfl }

theorem Rests.open (h : Rests disk (dir.child name) (base ++ [name]) completed)
    (hw : disk.WellFormed) (hf : disk.LocksFiles) (hd : Disk.Homed disk dir base)
    (hn : Path.Plain name) (config : Config) : ∃ store opened,
      Store.open? (dir.child name) config disk = (.ok store, opened) ∧
      store.dir = dir.child name ∧ store.Arises opened (base ++ [name]) completed ∧
      Disk.WorksIn (base ++ [name] <+: ·) disk opened := by
  obtain ⟨made, history, hmade, hcovered, hlog, hfirst⟩ := h.made hw hf hd hn
  have hhome := hcovered.left.openable.homed
  obtain ⟨store, opened, lock, hopen, hopened, hre⟩ := hcovered.left.open config
  have hsame :
      Store.open? (dir.child name) config disk = Store.open? (dir.child name) config made := by
    rw [Store.open?, Store.open?, hmade, Disk.createDirs_homed hhome]
  have hworks : Disk.WorksIn (base ++ [name] <+: ·) made
      (Store.open? (dir.child name) config made).2 :=
    worksIn_open hfirst.wellFormed hhome (List.prefix_append _) config
  rw [hopen] at hworks
  refine ⟨store, opened, hsame.trans hopen, hopened.dir, ⟨hre, ?_, hlog, made, history, ?_⟩,
    hfirst.trans hworks⟩
  · rw [hopened.sessions]
    exact List.Pairwise.nil
  · rw [hopened.dir]
    exact hcovered

theorem Arises.whole (h : store.Arises disk place []) :
    Course.Whole { store, disk } place [] where
  sound := h.reopened.sound (by simp)
  ready := ⟨h.reopened.keeps, h.reopened.awaitingRecovery, h.ascending⟩
  logged := by simp [Course.moments]
  fronts := by simp [Course.moments]

theorem lastCheckpoint_replayFrom {source : RecoverySource} {token : Token}
    (h : (store.replayFrom source disk).1 = .ok token) :
    (store.replayFrom source disk).2.lastCheckpoint = some token := by
  rw [replayFrom] at h ⊢
  split at h
  · cases h
  · cases h
    rfl

theorem lastCheckpoint_recover {index log : Option Token} {token : Token}
    (h : (store.recover index log disk).1 = .ok token) :
    (store.recover index log disk).2.1.lastCheckpoint = some token := by
  rw [recover] at h ⊢
  by_cases he : (!store.log.isEmpty) = true
  · rw [if_pos he] at h
    cases h
  · rw [if_neg he] at h ⊢
    split at h
    · cases h
    · split at h
      · cases h
      · exact lastCheckpoint_replayFrom h

/-- With checkpoints recovery gives back the newest one. -/
theorem Arises.recover (h : store.Arises disk place completed)
    (hfits : ∀ moment ∈ completed, moment.Fits) {last : Moment} (hl : completed.head? = some last) :
    ∃ recovered other history, store.recover none none disk = (.ok last.token, recovered, other) ∧
      recovered.dir = store.dir ∧ recovered.lastCheckpoint = some last.token ∧
      last.Captured place history ∧
      Course.Whole { store := recovered, disk := other, completed } place history ∧
      Disk.WorksIn (place <+: ·) disk other := by
  obtain ⟨start, history, hcovered⟩ := h.covered
  have hre := h.reopened
  have hlast := hcovered.newest last hl
  have hfind : completed.find? (·.kind.hasLog) = some last := hcovered.find?.trans hl
  obtain ⟨recovered, other, hrecover, hready, -⟩ := hcovered.resumes hfits hre hl
  have hsource : ∃ source, store.recoverySource none none disk = .ok source ∧
      source.log = last.log := by
    rcases hre.source_newest hfits hfind with ⟨fault, hs⟩ | ⟨source, hs, -, hlog⟩
    · cases (hre.recover_error hs).symm.trans hrecover
    · exact ⟨source, hs, hlog⟩
  obtain ⟨source, hs, hlog⟩ := hsource
  obtain ⟨same, final, hsame, hdir, hsound⟩ :=
    hre.sound_recover hfits hfind hlast.keeps.toLogs hs hlog
  rw [hrecover] at hsame
  obtain ⟨rfl, rfl⟩ := Prod.mk.inj hsame
  have hnoted := lastCheckpoint_recover (congrArg Prod.fst hrecover)
  rw [hrecover] at hnoted
  refine ⟨recovered, other, history, hrecover, hdir, hnoted, hlast,
    ⟨hsound, hready, fun moment hm => ?_, fun moment hm => ?_⟩, ?_⟩
  · exact h.logged moment hm
  · obtain ⟨front, back, hcaptured, hwhole⟩ := hcovered.fronts moment hm
    exact ⟨front, hcaptured, back, hwhole⟩
  · have hwrites := writesOnly_recover store none none disk
    rw [hrecover] at hwrites
    exact hwrites.worksIn hre.keeps.wellFormed hre.keeps.entry (List.prefix_append _ _)

end Store

end PredicateIndex
