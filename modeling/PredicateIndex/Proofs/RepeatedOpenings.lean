import PredicateIndex.Proofs.RecoveryFrames

/-!
# Opening a directory that holds a checkpoint

Opening a store where a log checkpoint stands fills the lock file, and gives a
log file that is missing or too short its header. Records and checkpoints stay
as they are, whether the opening succeeds or fails. Where a store has been open
already, an opening writes to the lock file only.
-/

set_option autoImplicit false

namespace PredicateIndex

namespace Disk

variable {disk other last : Disk} {dir place path p : Path} {name : String} {id : FileId}

def Adds (place : Path) (disk other : Disk) : Prop :=
  (other.entries = disk.entries ∧ other.files.length = disk.files.length) ∨
    (disk.entry? place = none ∧ ∃ id, other.entries = (place, .file id) :: disk.entries)

theorem exists?_iff :
    disk.exists? path = true ↔ ∃ p, disk.resolve path = .ok p ∧ (disk.entry? p).isSome := by
  rw [exists?, locate]
  cases hr : disk.resolve path with
  | error cause => simp [bind, Except.bind, Except.isOk, Except.toBool]
  | ok p =>
    cases he : disk.entry? p <;>
      simp [bind, Except.bind, he, pure, Except.pure, Except.isOk, Except.toBool, throw, throwThe,
        MonadExceptOf.throw]

theorem adds_openFile (hd : Homed disk dir place) (hn : Path.Plain name)
    (h : disk.openFile (dir.child name) = .ok (id, other)) : Adds (place ++ [name]) disk other := by
  rw [openFile_child hd hn] at h
  split at h
  · cases h
    exact .inl ⟨rfl, rfl⟩
  · cases h
  · rename_i he
    cases h
    exact .inr ⟨he, _, rfl⟩

namespace Adds

theorem refl (place : Path) (disk : Disk) : Adds place disk disk := .inl ⟨rfl, rfl⟩

theorem writes (h : Adds place disk other) (hw : WritesOnly id other last) :
    Adds place disk last := by
  rcases h with ⟨he, hl⟩ | ⟨hn, id, he⟩
  · exact .inl ⟨hw.entries.trans he, hw.length.trans hl⟩
  · exact .inr ⟨hn, id, hw.entries.trans he⟩

theorem same (h : Adds place disk other) {entry : Entry} (he : disk.entry? place = some entry) :
    other.entries = disk.entries ∧ other.files.length = disk.files.length := by
  rcases h with h | ⟨hn, -⟩
  · exact h
  · rw [hn] at he
    cases he

theorem entry?_eq (h : Adds place disk other) (hp : p ≠ place) :
    other.entry? p = disk.entry? p := by
  rcases h with ⟨he, -⟩ | ⟨-, id, he⟩
  · rw [entry?_congr he]
  · rw [ entry?, entry?, he, Lookup.cons_eq, if_neg hp]

theorem directory_iff (h : Adds place disk other) :
    other.entry? p = some .directory ↔ disk.entry? p = some .directory := by
  by_cases hp : p = place
  · subst hp
    rcases h with ⟨he, -⟩ | ⟨hn, id, he⟩
    · rw [entry?_congr he]
    · have hroot : p ≠ [] := by
        rintro rfl
        rw [entry?_root] at hn
        cases hn
      rw [hn, entry?, if_neg hroot, he, Lookup.cons_eq, if_pos rfl]
      simp
  · rw [h.entry?_eq hp]

theorem resolve_iff (h : Adds place disk other) :
    other.resolve path = .ok p ↔ disk.resolve path = .ok p :=
  ⟨resolve_mono fun _ => h.directory_iff.mp, resolve_mono fun _ => h.directory_iff.mpr⟩

theorem exists?_eq (h : Adds place disk other) (hn : Path.Plain name)
    (hne : ∀ front, front ++ [name] ≠ place) :
    other.exists? (dir.child name) = disk.exists? (dir.child name) := by
  rw [Bool.eq_iff_iff, exists?_iff, exists?_iff]
  simp only [h.resolve_iff]
  refine exists_congr fun p => and_congr_right fun hr => ?_
  obtain ⟨front, -, rfl⟩ := homed_of_resolve_child hn hr
  rw [h.entry?_eq (hne front)]

theorem children_eq (h : Adds place disk other) (hne : ∀ name, place ≠ dir ++ [name]) :
    other.children dir = disk.children dir := by
  rcases h with ⟨he, -⟩ | ⟨-, id, he⟩
  · rw [children, children, he]
  · have hnone : childName? dir place = none := by
      cases hc : childName? dir place with
      | none => rfl
      | some name => exact (hne name (childName?_eq_some.mp hc)).elim
    rw [children, children, he, List.filterMap_cons, hnone]
    rfl

end Adds

end Disk

namespace CheckpointDir

variable {disk other : Disk} {dir place : Path} {file name : String}

theorem tokensWith_adds (hd : Disk.Homed disk dir place) (hn : Path.Plain name)
    (hroot : file ≠ "checkpoints") (hfile : file ≠ name)
    (h : Disk.Adds (place ++ [file]) disk other) :
    tokensWith dir name other = tokensWith dir name disk := by
  have hplain : Path.Plain "checkpoints" := by decide
  have hother : Disk.Homed other dir place := hd.mono fun p hp => h.directory_iff.mpr hp
  have hentry : other.entry? (place ++ ["checkpoints"]) = disk.entry? (place ++ ["checkpoints"]) :=
    h.entry?_eq (by simp [hroot.symm])
  have hchildren : other.children (place ++ ["checkpoints"]) =
      disk.children (place ++ ["checkpoints"]) := h.children_eq (by simp)
  have hexists : ∀ child : String, other.exists? (((root dir).child child).child name) =
      disk.exists? (((root dir).child child).child name) := fun child =>
    h.exists?_eq hn (by simp [hfile.symm])
  have hlocate : other.locate (root dir) = disk.locate (root dir) := by
    cases he : disk.entry? (place ++ ["checkpoints"]) with
    | none => rw [root, hd.locate_none hplain he, hother.locate_none hplain (hentry.trans he)]
    | some entry =>
      rw [root, hd.locate_child hplain he, hother.locate_child hplain (hentry.trans he)]
  rw [tokensWith, tokensWith, hlocate]
  cases he : disk.entry? (place ++ ["checkpoints"]) with
  | none => rw [root, hd.locate_none hplain he]
  | some entry =>
    rw [root, hd.locate_child hplain he]
    cases entry with
    | file id => rfl
    | directory =>
      rw [root] at hexists
      simp only [hchildren, hexists]

theorem latestLog_adds (hd : Disk.Homed disk dir place) (hroot : file ≠ "checkpoints")
    (hfile : file ≠ logFile) (h : Disk.Adds (place ++ [file]) disk other) :
    latestLog dir other = latestLog dir disk := by
  rw [latestLog, latestLog, tokensWith_adds hd (by decide) hroot hfile h]

end CheckpointDir

theorem FileLock.adds_acquire {disk : Disk} {dir place : Path} {name : String}
    (hd : Disk.Homed disk dir place) (hn : Path.Plain name) :
    Disk.Adds (place ++ [name]) disk (acquire (dir.child name) disk).2 := by
  rw [acquire]
  cases ho : disk.openFile (dir.child name) with
  | error cause => exact .refl _ disk
  | ok found =>
    obtain ⟨file, opened⟩ := found
    have hfill : ∀ bytes, Disk.Adds (place ++ [name]) disk (opened.setContent file bytes) :=
      fun bytes =>
        (Disk.adds_openFile hd hn ho).writes (Disk.writesOnly_setContent opened file bytes)
    dsimp only
    split
    · exact hfill []
    · exact hfill (ownerText opened.process)

namespace Log

variable {disk : Disk} {dir place : Path} {id : FileId}

theorem adds_open (hd : Disk.Homed disk dir place) :
    Disk.Adds (place ++ [fileName]) disk (Log.open? dir disk).2 := by
  rw [Log.open?]
  cases ho : disk.openFile (dir.child fileName) with
  | error cause => exact .refl _ disk
  | ok found =>
    obtain ⟨file, opened⟩ := found
    have hadds := Disk.adds_openFile hd (by decide) ho
    dsimp only
    split
    · exact hadds.writes (Disk.writesOnly_setContent opened file _)
    · split <;> exact hadds

theorem open_headed (hd : Disk.Homed disk dir place)
    (he : disk.entry? (place ++ [fileName]) = some (.file id))
    (hl : origin ≤ (disk.content id).length) : (Log.open? dir disk).2 = disk := by
  rw [Log.open?, Disk.openFile_child hd (by decide), he]
  dsimp only
  rw [if_neg (Nat.not_lt.mpr hl)]
  split <;> rfl

/-- A shorter one gets its header, and nothing else is left in it. -/
theorem open_short (hd : Disk.Homed disk dir place)
    (he : disk.entry? (place ++ [fileName]) = some (.file id))
    (hl : (disk.content id).length < origin) :
    (Log.open? dir disk).2 = disk.setContent id header := by
  have hheader : header.length = origin := by decide
  rw [Log.open?, Disk.openFile_child hd (by decide), he]
  dsimp only
  rw [if_pos hl, Disk.write, Bytes.overwrite_inside (Nat.zero_le _), hheader, Nat.zero_add,
    List.drop_eq_nil_of_le (Nat.le_of_lt hl)]
  simp

def KeptUnderHeader (before after : Bytes) : Prop :=
  after = before ∨ before.length < origin ∧ after = header

theorem KeptUnderHeader.trans {first second third : Bytes} (h : KeptUnderHeader first second)
    (ht : KeptUnderHeader second third) : KeptUnderHeader first third := by
  rcases h with rfl | ⟨hl, rfl⟩
  · exact ht
  · rcases ht with rfl | ⟨hheader, -⟩
    · exact .inr ⟨hl, rfl⟩
    · exact absurd hheader (by decide)

end Log

namespace Store

/-- What stores may have done to a disk that were opened in a directory, but wrote nothing there
and were not recovered. -/
structure Visited (place : Path) (disk other : Disk) : Prop where
  wellFormed : other.WellFormed
  directory : ∀ p, disk.entry? p = some .directory → other.entry? p = some .directory
  entry : ∀ p, p ≠ place ++ [lockFile] → p ≠ place ++ [Log.fileName] →
    other.entry? p = disk.entry? p
  content : ∀ p id, p ≠ place ++ [lockFile] → p ≠ place ++ [Log.fileName] →
    disk.entry? p = some (.file id) → other.content id = disk.content id
  log : ∀ id, disk.entry? (place ++ [Log.fileName]) = some (.file id) →
    other.entry? (place ++ [Log.fileName]) = some (.file id) ∧
      Log.KeptUnderHeader (disk.content id) (other.content id)
  latest : ∀ dir, Disk.Homed disk dir place →
    CheckpointDir.latestLog dir other = CheckpointDir.latestLog dir disk

namespace Visited

variable {disk other last : Disk} {dir place : Path}

theorem refl (h : disk.WellFormed) : Visited place disk disk where
  wellFormed := h
  directory _ hp := hp
  entry _ _ _ := rfl
  content _ _ _ _ _ := rfl
  log _ he := ⟨he, .inl rfl⟩
  latest _ _ := rfl

theorem trans (h : Visited place disk other) (ho : Visited place other last) :
    Visited place disk last where
  wellFormed := ho.wellFormed
  directory p hp := ho.directory p (h.directory p hp)
  entry p hlock hlog := (ho.entry p hlock hlog).trans (h.entry p hlock hlog)
  content p id hlock hlog he :=
    (ho.content p id hlock hlog ((h.entry p hlock hlog).trans he)).trans
      (h.content p id hlock hlog he)
  log id he := by
    obtain ⟨hfirst, hkept⟩ := h.log id he
    obtain ⟨hsecond, hlater⟩ := ho.log id hfirst
    exact ⟨hsecond, hkept.trans hlater⟩
  latest dir hd := (ho.latest dir (hd.mono h.directory)).trans (h.latest dir hd)

theorem acquire (hw : disk.WellFormed) (hd : Disk.Homed disk dir place) :
    Visited place disk (FileLock.acquire (dir.child lockFile) disk).2 := by
  have hn : Path.Plain lockFile := by decide
  have hne : place ++ [Log.fileName] ≠ place ++ [lockFile] := by simp [Log.fileName, lockFile]
  have hworks : Disk.WorksIn (· = place ++ [lockFile]) disk _ :=
    FileLock.worksIn_acquire hw hd hn rfl
  refine ⟨hworks.wellFormed, hworks.directory, fun p hlock _ => hworks.entry p hlock,
    fun p id hlock _ => hworks.content p id hlock, fun id he => ?_, fun other ho => ?_⟩
  · exact ⟨(hworks.entry _ hne).trans he, .inl (hworks.content _ id hne he)⟩
  · exact CheckpointDir.latestLog_adds ho (by decide) (by decide) (FileLock.adds_acquire hd hn)

theorem openLog (hw : disk.WellFormed) (hd : Disk.Homed disk dir place) :
    Visited place disk (Log.open? dir disk).2 := by
  have hworks : Disk.WorksIn (· = place ++ [Log.fileName]) disk _ := Log.worksIn_open hw hd rfl
  refine ⟨hworks.wellFormed, hworks.directory, fun p _ hlog => hworks.entry p hlog,
    fun p id _ hlog => hworks.content p id hlog, fun id he => ?_, fun other ho => ?_⟩
  · by_cases hl : (disk.content id).length < Log.origin
    · rw [Log.open_short hd he hl]
      exact ⟨he, .inr ⟨hl, Disk.content_setContent (hw.inRange _ _ he) _⟩⟩
    · rw [Log.open_headed hd he (Nat.le_of_not_lt hl)]
      exact ⟨he, .inl rfl⟩
  · exact CheckpointDir.latestLog_adds ho (by decide) (by decide) (Log.adds_open hd)

theorem release (hw : disk.WellFormed) (lock : FileLock) :
    Visited place disk (lock.release disk) where
  wellFormed := (FileLock.spares_release lock hw).wellFormed
  directory _ hp := hp
  entry _ _ _ := rfl
  content _ _ _ _ _ := rfl
  log _ he := ⟨he, .inl rfl⟩
  latest _ _ := rfl

end Visited

def waiting (dir : Path) (config : Config) (lock : FileLock) (log : Log) : Store :=
  { dir, lock, log, sessions := .ofCapacity config.sessionPoolSize, awaitingRecovery := true
    logMemorySize := config.logMemorySize }

structure Furnished (place : Path) (disk : Disk) : Prop where
  lock : ∃ id, disk.entry? (place ++ [lockFile]) = some (.file id)
  log : ∃ id, disk.entry? (place ++ [Log.fileName]) = some (.file id) ∧
    Log.origin ≤ (disk.content id).length

section

variable {disk other : Disk} {dir place : Path} {token : Token}

theorem open_cases (hw : disk.WellFormed) (hd : Disk.Homed disk dir place)
    (hl : CheckpointDir.latestLog dir disk = .ok (some token)) (config : Config) :
    (∃ fault, Store.open? dir config disk =
      (.error fault, (FileLock.acquire (dir.child lockFile) disk).2)) ∨
    ∃ lock held, FileLock.acquire (dir.child lockFile) disk = (.ok lock, held) ∧
      ((∃ fault, Store.open? dir config disk =
          (.error fault, lock.release (Log.open? dir held).2)) ∨
        ∃ log opened, Log.open? dir held = (.ok log, opened) ∧
          Store.open? dir config disk = (.ok (waiting dir config lock log), opened)) := by
  have hacquire := Visited.acquire hw hd
  rw [Store.open?, Disk.createDirs_homed hd]
  dsimp only
  cases hlock : FileLock.acquire (dir.child lockFile) disk with
  | mk result held =>
    rw [hlock] at hacquire
    cases result with
    | error fault => exact .inl ⟨fault, rfl⟩
    | ok lock =>
      refine .inr ⟨lock, held, rfl, ?_⟩
      have hhome := hd.mono hacquire.directory
      have hlatest : CheckpointDir.latestLog dir (Log.open? dir held).2 = .ok (some token) :=
        ((Visited.openLog hacquire.wellFormed hhome).latest dir hhome).trans
          ((hacquire.latest dir hd).trans hl)
      dsimp only
      rw [openLocked]
      cases hlog : Log.open? dir held with
      | mk result opened =>
        rw [hlog] at hlatest
        cases result with
        | error fault => exact .inl ⟨fault, rfl⟩
        | ok log =>
          refine .inr ⟨log, opened, rfl, ?_⟩
          simp only [hlatest]
          rfl

theorem visited_open (hw : disk.WellFormed) (hd : Disk.Homed disk dir place)
    (hl : CheckpointDir.latestLog dir disk = .ok (some token)) (config : Config) :
    Visited place disk (Store.open? dir config disk).2 := by
  have hacquire := Visited.acquire hw hd
  rcases open_cases hw hd hl config with ⟨fault, ho⟩ | ⟨lock, held, hlock, h⟩
  · rw [ho]
    exact hacquire
  · rw [hlock] at hacquire
    have hlog := hacquire.trans (.openLog hacquire.wellFormed (hd.mono hacquire.directory))
    rcases h with ⟨fault, ho⟩ | ⟨log, opened, hopened, ho⟩
    · rw [ho]
      exact hlog.trans (.release hlog.wellFormed lock)
    · rw [ho]
      rwa [hopened] at hlog

/-- Where a store has been opened before, only the lock file is written to. -/
theorem Furnished.sameAt_open (h : Furnished place disk) (hw : disk.WellFormed)
    (hd : Disk.Homed disk dir place)
    (hl : CheckpointDir.latestLog dir disk = .ok (some token)) (config : Config) :
    Disk.SameAt (· ≠ place ++ [lockFile]) disk (Store.open? dir config disk).2 := by
  have hn : Path.Plain lockFile := by decide
  have hne : place ++ [Log.fileName] ≠ place ++ [lockFile] := by simp [Log.fileName, lockFile]
  obtain ⟨id, hlock⟩ := h.lock
  obtain ⟨file, hentry, hlength⟩ := h.log
  have hvisited := Visited.acquire hw hd
  have hworks : Disk.WorksIn (· = place ++ [lockFile]) disk
      (FileLock.acquire (dir.child lockFile) disk).2 := FileLock.worksIn_acquire hw hd hn rfl
  obtain ⟨hentries, hfiles⟩ := (FileLock.adds_acquire hd hn).same hlock
  have hsame : Disk.SameAt (· ≠ place ++ [lockFile]) disk
      (FileLock.acquire (dir.child lockFile) disk).2 := ⟨hentries, hfiles, hworks.content⟩
  have hopen : (Log.open? dir (FileLock.acquire (dir.child lockFile) disk).2).2 =
      (FileLock.acquire (dir.child lockFile) disk).2 :=
    Log.open_headed (hd.mono hvisited.directory) ((hworks.entry _ hne).trans hentry)
      ((hworks.content _ file hne hentry).symm ▸ hlength)
  rcases open_cases hw hd hl config with ⟨fault, ho⟩ | ⟨lock, held, hheld, h⟩
  · rw [ho]
    exact hsame
  · rw [hheld] at hsame hopen
    rcases h with ⟨fault, ho⟩ | ⟨log, opened, hopened, ho⟩
    · rw [ho, hopen]
      exact ⟨hsame.entries, hsame.length, hsame.content⟩
    · rw [hopened] at hopen
      obtain rfl : opened = held := hopen
      rw [ho]
      exact hsame

theorem Furnished.frame (h : Furnished place disk)
    (hs : Disk.SameAt (· ≠ place ++ [lockFile]) disk other) : Furnished place other := by
  have hne : place ++ [Log.fileName] ≠ place ++ [lockFile] := by simp [Log.fileName, lockFile]
  obtain ⟨id, hlock⟩ := h.lock
  obtain ⟨file, hentry, hlength⟩ := h.log
  refine ⟨⟨id, by rw [Disk.entry?_congr hs.entries, hlock]⟩,
    ⟨file, by rw [Disk.entry?_congr hs.entries, hentry], ?_⟩⟩
  rw [hs.content _ file hne hentry]
  exact hlength

theorem furnished_open (hw : disk.WellFormed) (hd : Disk.Homed disk dir place)
    (hl : CheckpointDir.latestLog dir disk = .ok (some token)) {config : Config} {store : Store}
    (h : Store.open? dir config disk = (.ok store, other)) :
    Furnished place other ∧ ∃ lock file,
      other.entry? (place ++ [Log.fileName]) = some (.file file) ∧
        store = waiting dir config lock (Log.empty file (dir.child Log.fileName)) := by
  have hne : place ++ [lockFile] ≠ place ++ [Log.fileName] := by simp [Log.fileName, lockFile]
  rcases open_cases hw hd hl config with ⟨fault, ho⟩ | ⟨lock, held, hheld, ⟨fault, ho⟩ |
    ⟨log, opened, hopened, ho⟩⟩ <;> rw [ho] at h <;> cases h
  obtain ⟨home, hhome, hlock, hspares⟩ := FileLock.acquire_ok hw (by decide) hheld
  obtain rfl := hhome.unique hd
  obtain ⟨target, htarget, hempty, hholds, hentry, hkept⟩ :=
    Log.holds_open hspares.wellFormed hopened
  obtain rfl := htarget.unique (hd.mono hspares.directory)
  have hlength := hholds.reaches
  rw [hempty] at hlength
  exact ⟨⟨⟨_, (hkept.file _ _ hne hlock).1⟩, ⟨_, hentry, hlength⟩⟩,
    lock, log.file, hentry, congrArg (waiting dir config lock) hempty⟩

end

end Store

end PredicateIndex
