import PredicateIndex.Proofs.CheckpointParts
import PredicateIndex.Proofs.StoreOpening

/-!
# Opening a store again

A directory that a store has left can be opened again: its lock is free, the
log in it begins with the signature, and its checkpoint directory can be read.
What the checkpoints need of the log survives as long as there are some.
-/

set_option autoImplicit false

namespace PredicateIndex

namespace FileLock

def Free (disk : Disk) (place : Path) : Prop :=
  (disk.entry? place = none ∧ disk.files.length ∉ disk.locked) ∨
    ∃ id, disk.entry? place = some (.file id) ∧ id ∉ disk.locked

variable {disk : Disk} {dir place : Path} {name : String}

theorem Free.not_directory (h : Free disk place) : disk.entry? place ≠ some .directory := by
  rcases h with ⟨he, -⟩ | ⟨id, he, -⟩ <;> simp [he]

theorem acquire_free (hw : disk.WellFormed) (hd : Disk.Homed disk dir place)
    (hn : Path.Plain name) (hf : Free disk (place ++ [name])) :
    ∃ lock held, acquire (dir.child name) disk = (.ok lock, held) ∧
      held.entry? (place ++ [name]) = some (.file lock.file) ∧
      Disk.ChangesOnly (place ++ [name]) disk held := by
  obtain ⟨id, opened, hopen, hentry, hcontent, hlocked, hid⟩ :=
    Disk.openFile_exact hd hn hf.not_directory
  obtain ⟨-, -, -, hs⟩ := Disk.openFile_ok hw hn hopen
  have hat : opened.entry? (place ++ [name]) = some (.file id) := by
    rw [hentry]
    exact if_pos rfl
  have hopened : Disk.ChangesOnly (place ++ [name]) disk opened :=
    ⟨fun p hp => by rw [hentry, if_neg hp], fun p i _ _ => hcontent i⟩
  have hfree : id ∉ opened.locked := by
    rw [hlocked]
    rcases hf with ⟨he, hl⟩ | ⟨file, he, hl⟩ <;> rcases hid with hid | ⟨hid, rfl⟩
    · rw [he] at hid
      cases hid
    · exact hl
    · rw [he] at hid
      exact Entry.file.inj (Option.some.inj hid) ▸ hl
    · rw [he] at hid
      cases hid
  have hwrites := Disk.writesOnly_setContent opened id (ownerText opened.process)
  have hfilled := hwrites.changesOnly hs.wellFormed hat
  refine ⟨⟨id, dir.child name⟩, { opened.setContent id (ownerText opened.process) with
    locked := id :: opened.locked }, ?_, hat, hopened.trans ⟨hfilled.entry, hfilled.content⟩⟩
  simp only [acquire, hopen]
  exact if_neg hfree

end FileLock

namespace Log

def Signed (disk : Disk) (file : FileId) : Prop :=
  (disk.content file).take signature.length = signature

variable {disk : Disk} {dir place : Path}

theorem length_signature : signature.length = 6 := by decide

theorem header_eq : header = signature ++ List.replicate (origin - 6) 0 := by decide

theorem open_signed (hw : disk.WellFormed) (hd : Disk.Homed disk dir place)
    (hs : disk.entry? (place ++ [fileName]) = none ∨
      ∃ id, disk.entry? (place ++ [fileName]) = some (.file id) ∧ Signed disk id) :
    ∃ log opened, Log.open? dir disk = (.ok log, opened) ∧ Signed opened log.file ∧
      Disk.ChangesOnly (place ++ [fileName]) disk opened ∧
      ∀ id, disk.entry? (place ++ [fileName]) = some (.file id) →
        origin ≤ (disk.content id).length → log.file = id ∧ opened.content id = disk.content id := by
  have hn : Path.Plain fileName := by decide
  have hnodir : disk.entry? (place ++ [fileName]) ≠ some .directory := by
    rcases hs with he | ⟨id, he, -⟩ <;> simp [he]
  obtain ⟨file, opened, hopen, hentry, hcontent, -, hid⟩ := Disk.openFile_exact hd hn hnodir
  obtain ⟨-, -, -, hspares⟩ := Disk.openFile_ok hw hn hopen
  have hat : opened.entry? (place ++ [fileName]) = some (.file file) := by
    rw [hentry]
    exact if_pos rfl
  have hr := hspares.wellFormed.inRange _ _ hat
  have hopened : Disk.ChangesOnly (place ++ [fileName]) disk opened :=
    ⟨fun p hp => by rw [hentry, if_neg hp], fun p i _ _ => hcontent i⟩
  have hfile : ∀ id, disk.entry? (place ++ [fileName]) = some (.file id) → file = id := by
    intro id he
    rcases hid with hid | ⟨hid, -⟩
    · rw [he] at hid
      exact (Entry.file.inj (Option.some.inj hid)).symm
    · rw [he] at hid
      cases hid
  rw [Log.open?, hopen]
  by_cases hl : (opened.content file).length < origin
  · have hwrites := Disk.writesOnly_setContent opened file
      ((opened.content file).overwrite 0 header)
    have hfilled := hwrites.changesOnly hspares.wellFormed hat
    refine ⟨_, _, by simp only [if_pos hl]; rfl, ?_, hopened.trans hfilled, fun id he hlen => ?_⟩
    · show ((opened.write file 0 header).content file).take signature.length = signature
      rw [Disk.write, Disk.content_setContent hr, Bytes.overwrite_inside (Nat.zero_le _), header_eq,
        List.take_zero, List.nil_append, List.append_assoc]
      exact List.take_left
    · rw [← hfile id he, ← hcontent] at hlen
      omega
  · have hsigned : Signed opened file := by
      rcases hs with he | ⟨id, he, hsigned⟩
      · rcases hid with hid | ⟨-, rfl⟩
        · rw [he] at hid
          cases hid
        · rw [hcontent, Disk.content] at hl
          simp [origin] at hl
      · rw [Signed, hcontent, hfile id he]
        exact hsigned
    refine ⟨_, _, by simp only [if_neg hl, if_pos (show _ = _ from hsigned)]; rfl, hsigned, hopened,
      fun id he _ => ⟨hfile id he, hcontent id⟩⟩

theorem signed_resize {disk : Disk} {file : FileId} (hr : file < disk.files.length)
    (h : Signed disk file) {length : Nat} (hl : signature.length ≤ length) :
    Signed (disk.setLength file length) file := by
  have hlen : signature.length ≤ (disk.content file).length := by
    have hs := congrArg List.length h
    rw [List.length_take] at hs
    omega
  rw [Signed] at h ⊢
  rw [Disk.setLength, Disk.content_setContent hr, Bytes.resize, List.take_append_of_le_length,
    List.take_take,
    Nat.min_eq_left hl, h]
  rw [List.length_take]
  omega

end Log

namespace Store

structure Openable (disk : Disk) (dir place : Path) : Prop where
  wellFormed : disk.WellFormed
  homed : Disk.Homed disk dir place
  tidy : CheckpointDir.Tidy disk place
  lock : FileLock.Free disk (place ++ [lockFile])
  log : disk.entry? (place ++ [Log.fileName]) = none ∨
    ∃ id, disk.entry? (place ++ [Log.fileName]) = some (.file id) ∧ Log.Signed disk id

structure Tends (store : Store) (disk : Disk) (place : Path) : Prop where
  tidy : CheckpointDir.Tidy disk place
  lock : disk.entry? (place ++ [lockFile]) = some (.file store.lock.file)
  signed : Log.Signed disk store.log.file

theorem rootPlace_ne_lock (place : Path) (rest : Path) :
    CheckpointDir.rootPlace place ++ rest ≠ place ++ [lockFile] := by
  simp [CheckpointDir.rootPlace, lockFile]

theorem rootPlace_ne_log (place : Path) (rest : Path) :
    CheckpointDir.rootPlace place ++ rest ≠ place ++ [Log.fileName] := by
  simp [CheckpointDir.rootPlace, Log.fileName]

theorem lock_ne_log (place : Path) : place ++ [lockFile] ≠ place ++ [Log.fileName] := by
  simp [lockFile, Log.fileName]

theorem openLocked_signed {disk : Disk} {dir place : Path} (hw : disk.WellFormed)
    (hd : Disk.Homed disk dir place) (ht : CheckpointDir.Tidy disk place)
    (hs : disk.entry? (place ++ [Log.fileName]) = none ∨
      ∃ id, disk.entry? (place ++ [Log.fileName]) = some (.file id) ∧ Log.Signed disk id)
    (config : Config) (lock : FileLock) :
    ∃ store opened, openLocked dir config lock disk = (.ok store, opened) ∧
      Log.Signed opened store.log.file ∧ Disk.ChangesOnly (place ++ [Log.fileName]) disk opened ∧
      ∀ token, (CheckpointDir.part? disk place token CheckpointDir.logFile).isSome →
        ∀ id, disk.entry? (place ++ [Log.fileName]) = some (.file id) →
          Log.origin ≤ (disk.content id).length →
          store.log.file = id ∧ opened.content id = disk.content id := by
  obtain ⟨log, opened, hopen, hsigned, hchange, hkept⟩ := Log.open_signed hw hd hs
  obtain ⟨home, hhome, -, hholds, he, hspares⟩ := Log.holds_open hw hopen
  obtain rfl := hhome.unique hd
  have hfree := rootPlace_ne_log home
  obtain ⟨latest, hlatest, hnone⟩ :=
    (ht.frame hchange hfree).latestLog_ok (hd.mono hspares.directory)
  rw [openLocked, hopen]
  simp only [hlatest]
  by_cases hcut : latest.isNone ∧ Log.origin < (opened.content log.file).length
  · rw [if_pos hcut, Log.restore_of_le Log.origin (Nat.le_of_lt hcut.2)]
    have hwrites := Disk.writesOnly_setContent opened log.file
      ((opened.content log.file).resize Log.origin)
    refine ⟨_, _, rfl, ?_, hchange.trans (hwrites.changesOnly hspares.wellFormed he),
      fun token hp => ?_⟩
    · exact Log.signed_resize hholds.inRange hsigned (by rw [Log.length_signature]; decide)
    · have hnever := hnone (by simpa using hcut.1) token
      rw [CheckpointDir.part?_frame hchange hfree] at hnever
      simp [hnever] at hp
  · rw [if_neg hcut]
    exact ⟨_, _, rfl, hsigned, hchange, fun _ _ => hkept⟩

/-- A store can be opened, has the parts that were there and, if a log part is among them, the
bytes of the log. -/
theorem Openable.open {disk : Disk} {dir place : Path} (h : Openable disk dir place)
    (config : Config) :
    ∃ store opened latest lock, Store.open? dir config disk = (.ok store, opened) ∧
      store.Opened dir config lock latest ∧ store.Keeps opened place [] ∧
      store.Tends opened place ∧
      (∀ token name, CheckpointDir.part? opened place token name =
        CheckpointDir.part? disk place token name) ∧
      CheckpointDir.latestLog dir opened = .ok latest ∧
      ∀ token, (CheckpointDir.part? disk place token CheckpointDir.logFile).isSome →
        ∀ id, disk.entry? (place ++ [Log.fileName]) = some (.file id) →
          Log.origin ≤ (disk.content id).length →
          store.log.file = id ∧ opened.content id = disk.content id := by
  obtain ⟨lock, held, hlock, hat, hheld⟩ :=
    FileLock.acquire_free h.wellFormed h.homed (show Path.Plain lockFile by decide) h.lock
  obtain ⟨home, hhome, -, hspares⟩ :=
    FileLock.acquire_ok h.wellFormed (show Path.Plain lockFile by decide) hlock
  obtain rfl := hhome.unique h.homed
  have htidy := h.tidy.frame hheld (rootPlace_ne_lock home)
  have hparts := CheckpointDir.part?_frame hheld (rootPlace_ne_lock home)
  have hlog : held.entry? (home ++ [Log.fileName]) = none ∨
      ∃ id, held.entry? (home ++ [Log.fileName]) = some (.file id) ∧ Log.Signed held id := by
    rw [hheld.entry _ (lock_ne_log home).symm]
    refine h.log.imp_right fun ⟨id, he, hs⟩ => ⟨id, he, ?_⟩
    rw [Log.Signed, hheld.content _ id (lock_ne_log home).symm he]
    exact hs
  obtain ⟨store, opened, hopen, hsigned, hchange, hkept⟩ := openLocked_signed hspares.wellFormed
    (h.homed.mono hspares.directory) htidy hlog config lock
  have hstore : Store.open? dir config disk = (.ok store, opened) := by
    rw [Store.open?, Disk.createDirs_homed h.homed]
    simp only [hlock, hopen]
  obtain ⟨place, found, latest, ho, hk, hlatest, hall⟩ := open_ok h.wellFormed hstore
  obtain rfl : place = home := Disk.Homed.unique (ho.dir ▸ hk.homed) (h.homed.mono hall.directory)
  have hfound : store.lock = lock := by
    obtain ⟨_, _, hsame, -⟩ := openLocked_ok hspares.wellFormed hopen
    exact hsame.lock
  refine ⟨store, opened, latest, found, hstore, ho, hk, ⟨?_, ?_, hsigned⟩, fun token name => ?_,
    hlatest, fun token hp id he hl => ?_⟩
  · exact htidy.frame hchange (rootPlace_ne_log place)
  · rw [hchange.entry _ (lock_ne_log place), hat, hfound]
  · rw [CheckpointDir.part?_frame hchange (rootPlace_ne_log place), hparts]
  · have hsame := hheld.content _ id (lock_ne_log place).symm he
    obtain ⟨hfile, hcontent⟩ := hkept token (by rwa [hparts]) id
      (by rw [hheld.entry _ (lock_ne_log place).symm, he]) (by rwa [hsame])
    exact ⟨hfile, hcontent.trans hsame⟩

/-- Once it is closed, a store that tended its directory can be opened again. -/
theorem Tends.close {store : Store} {disk : Disk} {place : Path} {history : List LogRecord}
    (h : store.Tends disk place) (hk : store.Logs disk place history) :
    Openable (store.close disk) store.dir place where
  wellFormed := (FileLock.spares_release store.lock hk.wellFormed).wellFormed
  homed := hk.homed.mono (FileLock.spares_release store.lock hk.wellFormed).directory
  tidy := ⟨h.tidy.root, h.tidy.child, h.tidy.leaf⟩
  lock := Or.inr ⟨store.lock.file, h.lock, fun hm =>
    (hk.wellFormed.locks.mem_erase_iff.mp hm).1 rfl⟩
  log := Or.inr ⟨store.log.file, hk.entry, h.signed⟩

end Store

end PredicateIndex
