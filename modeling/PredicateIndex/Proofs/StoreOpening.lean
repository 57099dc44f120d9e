import PredicateIndex.Proofs.StoreState

/-!
# Opening a store

A store opens without records: its log starts empty, whatever its file holds.
Opening touches the lock file and the log of the directory and nothing else,
also when it fails.
-/

set_option autoImplicit false

namespace PredicateIndex

theorem Disk.Spares.lock {kept : Path → Prop} {disk other : Disk} (h : Disk.Spares kept disk other)
    {file : Nat} (hl : file ∉ other.locked) :
    Disk.Spares kept disk { other with locked := file :: other.locked } where
  wellFormed :=
    { inRange := h.wellFormed.inRange
      separate := h.wellFormed.separate
      locks := List.nodup_cons.mpr ⟨hl, h.wellFormed.locks⟩ }
  directory := h.directory
  file := h.file

namespace FileLock

theorem acquire_ok {dir : Path} {name : String} {disk other : Disk} {lock : FileLock}
    (hw : disk.WellFormed) (hn : Path.Plain name)
    (h : acquire (dir.child name) disk = (.ok lock, other)) :
    ∃ place, Disk.Homed disk dir place ∧ other.entry? (place ++ [name]) = some (.file lock.file) ∧
      Disk.Spares (· ≠ place ++ [name]) disk other := by
  rw [acquire] at h
  cases ho : disk.openFile (dir.child name) with
  | error cause =>
    rw [ho] at h
    cases h
  | ok opened =>
    obtain ⟨file, opened⟩ := opened
    obtain ⟨place, hd, he, hs⟩ := Disk.openFile_ok hw hn ho
    rw [ho] at h
    by_cases hl : file ∈ opened.locked
    · simp [hl] at h
    · simp only [hl, if_false, Prod.mk.injEq, Except.ok.injEq] at h
      obtain ⟨rfl, rfl⟩ := h
      have hwrites := Disk.writesOnly_setContent opened file (ownerText opened.process)
      have hspares := hwrites.spares hs.wellFormed he
      exact ⟨place, hd, he, (hs.weaken fun _ _ => trivial).trans (hspares.lock hl)⟩

theorem spares_acquire (dir : Path) {name : String} {disk : Disk} (hw : disk.WellFormed)
    (hn : Path.Plain name) :
    Disk.Spares (·.getLast? ≠ some name) disk (acquire (dir.child name) disk).2 := by
  rw [acquire]
  cases ho : disk.openFile (dir.child name) with
  | error cause => exact .refl hw
  | ok opened =>
    obtain ⟨file, opened⟩ := opened
    obtain ⟨place, hd, he, hs⟩ := Disk.openFile_ok hw hn ho
    have hne : ∀ p : Path, p.getLast? ≠ some name → p ≠ place ++ [name] := by
      rintro p hp rfl
      exact hp (by simp)
    have hwrites : ∀ bytes, Disk.Spares (·.getLast? ≠ some name) disk
        (opened.setContent file bytes) := by
      intro bytes
      have hspares := (Disk.writesOnly_setContent opened file bytes).spares hs.wellFormed he
      exact (hs.weaken fun _ _ => trivial).trans (hspares.weaken hne)
    by_cases hl : file ∈ opened.locked
    · simp only [hl, if_true]
      exact hwrites []
    · simp only [hl, if_false]
      exact (hwrites (ownerText opened.process)).lock hl

theorem spares_release (lock : FileLock) {disk : Disk} (hw : disk.WellFormed) :
    Disk.Spares (fun _ => True) disk (lock.release disk) where
  wellFormed :=
    { inRange := hw.inRange
      separate := hw.separate
      locks := hw.locks.erase lock.file }
  directory _ h := h
  file _ _ _ h := ⟨h, rfl⟩

end FileLock

namespace Store

structure Opened (store : Store) (dir : Path) (config : Config) (lock : FileLock)
    (latest : Option Token) : Prop where
  dir : store.dir = dir
  lock : store.lock = lock
  heads : store.heads = []
  sessions : store.sessions = .ofCapacity config.sessionPoolSize
  captured : store.captured = none
  lastCheckpoint : store.lastCheckpoint = none
  awaitingRecovery : store.awaitingRecovery = latest.isSome
  logMemorySize : store.logMemorySize = config.logMemorySize

theorem keeps_empty {store : Store} {disk : Disk} {place : Path} (hw : disk.WellFormed)
    (hd : Disk.Homed disk store.dir place) (hheads : store.heads = [])
    (hl : store.log = Log.empty store.log.file (store.dir.child Log.fileName))
    (hh : store.log.Holds disk []) (he : disk.entry? (place ++ [Log.fileName]) =
      some (.file store.log.file)) : store.Keeps disk place [] where
  wellFormed := hw
  homed := hd
  path := by rw [hl]; rfl
  entry := he
  start := by rw [hl]; rfl
  holds := hh
  aligned := ⟨[], [], rfl, by rw [hl]; rfl⟩
  storable := by simp
  heads := hheads
  linked := linked_nil

theorem openLocked_ok {dir : Path} {config : Config} {lock : FileLock} {disk other : Disk}
    {store : Store} (hw : disk.WellFormed)
    (h : openLocked dir config lock disk = (.ok store, other)) :
    ∃ place latest, store.Opened dir config lock latest ∧ store.Keeps other place [] ∧
      CheckpointDir.latestLog dir other = .ok latest ∧
      Disk.Spares (· ≠ place ++ [Log.fileName]) disk other := by
  rw [openLocked] at h
  cases hlog : Log.open? dir disk with
  | mk result opened =>
    cases result with
    | error fault =>
      rw [hlog] at h
      cases h
    | ok log =>
      obtain ⟨place, hd, hempty, hholds, he, hs⟩ := Log.holds_open hw hlog
      rw [hlog] at h
      cases hlatest : CheckpointDir.latestLog dir opened with
      | error fault =>
        simp only [hlatest] at h
        cases h
      | ok latest =>
        simp only [hlatest] at h
        by_cases hcut : latest.isNone ∧ Log.origin < (opened.content log.file).length
        · rw [if_pos hcut, Log.restore_of_le Log.origin (Nat.le_of_lt hcut.2)] at h
          simp only [Prod.mk.injEq, Except.ok.injEq] at h
          obtain ⟨rfl, rfl⟩ := h
          have hwrites := Disk.writesOnly_setContent opened log.file
            ((opened.content log.file).resize Log.origin)
          have hspares := hwrites.spares hs.wellFormed he
          have hsame : Log.empty log.file (dir.child Log.fileName) =
              { log with
                start := Log.origin, head := Log.origin, flushed := Log.origin,
                tail := Log.origin, buffer := [] } := by
            rw [hempty]
            rfl
          refine ⟨place, latest, ⟨rfl, rfl, rfl, rfl, rfl, rfl, rfl, rfl⟩, ?_, hlatest,
            hs.trans hspares⟩
          refine keeps_empty hspares.wellFormed (hd.mono fun p hp => ?_) rfl hsame.symm ?_ he
          · exact hspares.directory p (hs.directory p hp)
          · rw [← hsame]
            apply Log.holds_empty
            · rw [Disk.setLength, Disk.length_setContent]
              exact hs.wellFormed.inRange _ _ he
            · apply Nat.le_of_eq
              rw [Disk.setLength, Disk.content_setContent (hs.wellFormed.inRange _ _ he),
                Bytes.length_resize]
        · rw [if_neg hcut] at h
          simp only [Prod.mk.injEq, Except.ok.injEq] at h
          obtain ⟨rfl, rfl⟩ := h
          refine ⟨place, latest, ⟨rfl, rfl, rfl, rfl, rfl, rfl, rfl, rfl⟩, ?_, hlatest, hs⟩
          exact keeps_empty hs.wellFormed (hd.mono hs.directory) rfl hempty hholds he

/-- A store that has been opened has no records and touched only its own lock and log. -/
theorem open_ok {dir : Path} {config : Config} {disk other : Disk} {store : Store}
    (hw : disk.WellFormed) (h : Store.open? dir config disk = (.ok store, other)) :
    ∃ place lock latest, store.Opened dir config lock latest ∧ store.Keeps other place [] ∧
      CheckpointDir.latestLog dir other = .ok latest ∧
      Disk.Spares (fun p => p ≠ place ++ [lockFile] ∧ p ≠ place ++ [Log.fileName]) disk other := by
  rw [Store.open?] at h
  have hdirs := (Disk.addsDirs_createDirs disk dir).spares hw
  cases hmade : disk.createDirs dir with
  | mk result made =>
    rw [hmade] at h hdirs
    cases result with
    | error cause => cases h
    | ok =>
      cases hlock : FileLock.acquire (dir.child lockFile) made with
      | mk result held =>
        simp only [hlock] at h
        cases result with
        | error fault => cases h
        | ok lock =>
          have hn : Path.Plain lockFile := by decide
          obtain ⟨place, hd, -, hs⟩ := FileLock.acquire_ok hdirs.wellFormed hn hlock
          cases hopen : openLocked dir config lock held with
          | mk result opened =>
            simp only [hopen] at h
            cases result with
            | error fault => cases h
            | ok opened =>
              simp only [Prod.mk.injEq, Except.ok.injEq] at h
              obtain ⟨rfl, rfl⟩ := h
              obtain ⟨home, latest, ho, hk, hl, hlog⟩ := openLocked_ok hs.wellFormed hopen
              have hhome : home = place := by
                have hkept := (hd.mono hs.directory).mono hlog.directory
                exact Disk.Homed.unique (ho.dir ▸ hk.homed) hkept
              subst hhome
              refine ⟨home, lock, latest, ho, hk, hl, ?_⟩
              have hfirst := (hdirs.weaken fun _ _ => trivial).trans hs
              exact (hfirst.weaken fun p hp => hp.1).trans (hlog.weaken fun p hp => hp.2)

def SparesOpening (dir : Path) (final : Disk) (p : Path) : Prop :=
  p.getLast? ≠ some lockFile ∧ ∀ place, Disk.Homed final dir place → p ≠ place ++ [Log.fileName]

theorem spares_openLog (dir : Path) {disk : Disk} (hw : disk.WellFormed) :
    Disk.Spares (SparesOpening dir (Log.open? dir disk).2) disk (Log.open? dir disk).2 := by
  rw [Log.open?]
  cases ho : disk.openFile (dir.child Log.fileName) with
  | error cause => exact .refl hw
  | ok opened =>
    obtain ⟨file, opened⟩ := opened
    obtain ⟨place, hd, he, hs⟩ := Disk.openFile_ok hw (by decide) ho
    dsimp only
    split
    · have hspares := (Disk.writesOnly_setContent opened file
        ((opened.content file).overwrite 0 Log.header)).spares hs.wellFormed he
      have hfinal := (hd.mono hs.directory).mono hspares.directory
      exact (hs.weaken fun _ _ => trivial).trans (hspares.weaken fun p hp => hp.2 place hfinal)
    · split <;> exact hs.weaken fun _ _ => trivial

theorem spares_openLocked (dir : Path) (config : Config) (lock : FileLock) {disk : Disk}
    (hw : disk.WellFormed) :
    Disk.Spares (SparesOpening dir (openLocked dir config lock disk).2) disk
      (openLocked dir config lock disk).2 := by
  have hopen := spares_openLog dir hw
  rw [openLocked]
  cases hlog : Log.open? dir disk with
  | mk result opened =>
    rw [hlog] at hopen
    cases result with
    | error fault => exact hopen
    | ok log =>
      obtain ⟨place, hd, -, -, he, hs⟩ := Log.holds_open hw hlog
      dsimp only
      cases hlatest : CheckpointDir.latestLog dir opened with
      | error fault => exact hopen
      | ok latest =>
        dsimp only
        split
        · cases hr : log.restore Log.origin Log.origin opened with
          | error fault => exact hopen
          | ok restored =>
            obtain ⟨restored, other⟩ := restored
            obtain ⟨-, rfl, -⟩ := Log.restore_ok hr
            have hspares := (Disk.writesOnly_setContent opened log.file
              ((opened.content log.file).resize Log.origin)).spares hs.wellFormed he
            have hfinal := (hd.mono hs.directory).mono hspares.directory
            exact (hs.weaken fun p hp => hp.2 place hfinal).trans
              (hspares.weaken fun p hp => hp.2 place hfinal)
        · exact hopen

theorem spares_open (dir : Path) (config : Config) {disk : Disk} (hw : disk.WellFormed) :
    Disk.Spares (SparesOpening dir (Store.open? dir config disk).2) disk
      (Store.open? dir config disk).2 := by
  have hdirs := (Disk.addsDirs_createDirs disk dir).spares hw
  rw [Store.open?]
  cases hmade : disk.createDirs dir with
  | mk result made =>
    rw [hmade] at hdirs
    cases result with
    | error cause => exact hdirs.weaken fun _ _ => trivial
    | ok =>
      have hlock := FileLock.spares_acquire dir hdirs.wellFormed
          (show Path.Plain lockFile by decide)
      have hfirst : ∀ q : Path → Prop, (∀ p, q p → p.getLast? ≠ some lockFile) →
          Disk.Spares q disk (FileLock.acquire (dir.child lockFile) made).2 := fun q hq =>
        (hdirs.weaken fun _ _ => trivial).trans (hlock.weaken hq)
      dsimp only
      cases hacquire : FileLock.acquire (dir.child lockFile) made with
      | mk result held =>
        rw [hacquire] at hfirst hlock
        cases result with
        | error fault => exact hfirst _ fun p hp => hp.1
        | ok lock =>
          have hopen := spares_openLocked dir config lock hlock.wellFormed
          dsimp only
          cases hlocked : openLocked dir config lock held with
          | mk result opened =>
            rw [hlocked] at hopen
            cases result with
            | error fault =>
              have hrelease := FileLock.spares_release lock hopen.wellFormed
              have hsame : ∀ p, SparesOpening dir (lock.release opened) p →
                  SparesOpening dir opened p := fun p hp =>
                ⟨hp.1, fun place hd => hp.2 place (hd.mono hrelease.directory)⟩
              exact ((hfirst _ fun p hp => hp.1).trans (hopen.weaken hsame)).trans
                (hrelease.weaken fun _ _ => trivial)
            | ok store => exact (hfirst _ fun p hp => hp.1).trans hopen

end Store

end PredicateIndex
