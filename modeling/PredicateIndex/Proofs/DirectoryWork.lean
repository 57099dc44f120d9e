import PredicateIndex.Proofs.CheckpointWriting
import PredicateIndex.Proofs.Recovering

/-!
# Working in a directory of one's own

Whatever a store does to the disk it does below the place of its directory: it
opens, writes and renames files there, makes directories there and locks a file
there. What stands at all other places stays, entry by entry and byte by byte,
so stores in different directories do not notice each other.
-/

set_option autoImplicit false

namespace PredicateIndex

namespace Disk

def LocksFiles (disk : Disk) : Prop := ∀ id ∈ disk.locked, id < disk.files.length

/-- The other disk differs only in what is one's own: at all other places the entries and the bytes
of the files are the same, and no file there has got locked. -/
structure WorksIn (own : Path → Prop) (disk other : Disk) : Prop where
  wellFormed : other.WellFormed
  directory : ∀ p, disk.entry? p = some .directory → other.entry? p = some .directory
  entry : ∀ p, ¬ own p → other.entry? p = disk.entry? p
  content : ∀ p id, ¬ own p → disk.entry? p = some (.file id) → other.content id = disk.content id
  locked : ∀ id ∈ other.locked, id ∈ disk.locked ∨
    ∀ p, ¬ own p → other.entry? p ≠ some (.file id)
  locksFiles : disk.LocksFiles → other.LocksFiles

variable {own : Path → Prop} {disk other last : Disk} {dir place : Path} {name : String}
  {id : FileId}

namespace WorksIn

theorem refl (h : disk.WellFormed) : WorksIn own disk disk where
  wellFormed := h
  directory _ hp := hp
  entry _ _ := rfl
  content _ _ _ _ := rfl
  locked _ hi := Or.inl hi
  locksFiles hl := hl

theorem trans (h : WorksIn own disk other) (ho : WorksIn own other last) :
    WorksIn own disk last where
  wellFormed := ho.wellFormed
  directory p hp := ho.directory p (h.directory p hp)
  entry p hp := (ho.entry p hp).trans (h.entry p hp)
  content p id hp he :=
    (ho.content p id hp ((h.entry p hp).trans he)).trans (h.content p id hp he)
  locked i hi := by
    rcases ho.locked i hi with hi | hi
    · refine (h.locked i hi).imp_right fun hfree p hp => ?_
      rw [ho.entry p hp]
      exact hfree p hp
    · exact Or.inr hi
  locksFiles hl := ho.locksFiles (h.locksFiles hl)

theorem unlocked (hw : other.WellFormed)
    (hd : ∀ p, disk.entry? p = some .directory → other.entry? p = some .directory)
    (he : ∀ p, ¬ own p → other.entry? p = disk.entry? p)
    (hc : ∀ p id, ¬ own p → disk.entry? p = some (.file id) → other.content id = disk.content id)
    (hl : other.locked = disk.locked) (hf : disk.files.length ≤ other.files.length) :
    WorksIn own disk other where
  wellFormed := hw
  directory := hd
  entry := he
  content := hc
  locked _ hi := Or.inl (hl ▸ hi)
  locksFiles h id hi := Nat.lt_of_lt_of_le (h id (hl ▸ hi)) hf

theorem spares (h : WorksIn own disk other) : Spares (fun p => ¬ own p) disk other where
  wellFormed := h.wellFormed
  directory := h.directory
  file p id hp he := ⟨(h.entry p hp).trans he, h.content p id hp he⟩

end WorksIn

theorem WritesOnly.worksIn (h : WritesOnly id disk other) (hw : disk.WellFormed)
    (he : disk.entry? place = some (.file id)) (ho : own place) : WorksIn own disk other := by
  apply WorksIn.unlocked (h.wellFormed hw)
  · intro p hp
    rw [h.entry?_eq p, hp]
  · exact fun p _ => h.entry?_eq p
  · intro p i hp hi
    apply h.content i
    rintro rfl
    exact hp (hw.separate p place i hi he ▸ ho)
  · exact h.locked
  · exact Nat.le_of_eq h.length.symm

theorem openFile_worksIn (hw : disk.WellFormed) (hd : Homed disk dir place) (hn : Path.Plain name)
    (ho : own (place ++ [name])) (h : disk.openFile (dir.child name) = .ok (id, other)) :
    other.entry? (place ++ [name]) = some (.file id) ∧ WorksIn own disk other := by
  rw [openFile_child hd hn] at h
  split at h
  · rename_i found he
    cases h
    exact ⟨he, .refl hw⟩
  · cases h
  · rename_i he
    cases h
    have hs := spares_addFile hw (by simp) he
    refine ⟨by simp [entry?_addFile], .unlocked hs.wellFormed hs.directory (fun p hp => ?_)
      (fun _ i _ _ => content_addFile disk _ i) rfl (by simp [addFile])⟩
    rw [entry?_addFile (by simp), if_neg]
    rintro rfl
    exact hp ho

theorem MakesDirs.worksIn {dirs : List Path} (h : MakesDirs dirs disk other) (hw : disk.WellFormed)
    (ho : ∀ p ∈ dirs, own p) : WorksIn own disk other := by
  have hfile : ∀ p i, other.entry? p = some (.file i) → disk.entry? p = some (.file i) := by
    intro p i hp
    rw [h.entry] at hp
    split at hp
    · cases hp
    · exact hp
  have hwell : other.WellFormed :=
    { inRange := fun p i hp => by
        rw [h.files]
        exact hw.inRange p i (hfile p i hp)
      separate := fun p q i hp hq => hw.separate p q i (hfile p i hp) (hfile q i hq)
      locks := h.locked ▸ hw.locks }
  refine .unlocked hwell (fun p hp => ?_) (fun p hp => ?_) (fun p i _ _ => ?_) h.locked
    (Nat.le_of_eq (by rw [h.files]))
  · rw [h.entry, hp]
    exact ite_self _
  · rw [h.entry, if_neg fun hm => hp (ho p hm)]
  · rw [content, content, h.files]

theorem rename_worksIn {origin : Path} (hw : disk.WellFormed) (hr : origin ≠ []) (hp : place ≠ [])
    (he : disk.entry? origin = some (.file id)) (hd : disk.entry? place ≠ some .directory)
    (ho : own origin) (hown : own place) : WorksIn own disk { disk with
      entries := (place, .file id) :: disk.entries.filter fun e => e.1 ≠ origin ∧
        e.1 ≠ place } := by
  have hs := spares_rename hw hr hp he hd
  refine .unlocked hs.wellFormed hs.directory (fun p hfree => ?_) (fun _ _ _ _ => rfl) rfl
    (Nat.le_refl _)
  rw [entry?_rename hr hp, if_neg, if_neg]
  · rintro rfl
    exact hfree ho
  · rintro rfl
    exact hfree hown

theorem worksIn_renameChild {origin : String} (hw : disk.WellFormed) (hd : Homed disk dir place)
    (horigin : Path.Plain origin) (hn : Path.Plain name)
    (he : disk.entry? (place ++ [origin]) = some (.file id)) (ho : own (place ++ [origin]))
    (hown : own (place ++ [name])) :
    disk.rename (dir.child origin) (dir.child name) = .error .isDirectory ∨
      ∃ other, disk.rename (dir.child origin) (dir.child name) = .ok other ∧
        WorksIn own disk other := by
  have hsource := hd.locate_child horigin he
  have htarget := hd.resolve_child hn
  by_cases hdir : disk.entry? (place ++ [name]) = some .directory
  · left
    simp only [rename, hsource, htarget, bind, Except.bind, hdir, if_true]
    rfl
  · exact Or.inr ⟨_, rename_eq hsource htarget hdir,
      rename_worksIn hw (by simp) (by simp) he hdir ho hown⟩

theorem lock_worksIn (hw : disk.WellFormed) (he : disk.entry? place = some (.file id))
    (ho : own place) (hl : id ∉ disk.locked) :
    WorksIn own disk { disk with locked := id :: disk.locked } where
  wellFormed := ⟨hw.inRange, hw.separate, List.nodup_cons.mpr ⟨hl, hw.locks⟩⟩
  directory _ hp := hp
  entry _ _ := rfl
  content _ _ _ _ := rfl
  locked i hi := by
    rcases List.mem_cons.mp hi with rfl | hi
    · exact Or.inr fun p hp hf => hp (hw.separate p place i hf he ▸ ho)
    · exact Or.inl hi
  locksFiles hf i hi := by
    rcases List.mem_cons.mp hi with rfl | hi
    · exact hw.inRange place i he
    · exact hf i hi

end Disk

namespace FileLock

variable {own : Path → Prop} {disk : Disk} {dir place : Path} {name : String}

theorem worksIn_release (lock : FileLock) (hw : disk.WellFormed) :
    Disk.WorksIn own disk (lock.release disk) where
  wellFormed := (spares_release lock hw).wellFormed
  directory _ hp := hp
  entry _ _ := rfl
  content _ _ _ _ := rfl
  locked _ hi := Or.inl (List.mem_of_mem_erase hi)
  locksFiles hf i hi := hf i (List.mem_of_mem_erase hi)

theorem worksIn_acquire (hw : disk.WellFormed) (hd : Disk.Homed disk dir place)
    (hn : Path.Plain name) (ho : own (place ++ [name])) :
    Disk.WorksIn own disk (acquire (dir.child name) disk).2 := by
  rw [acquire]
  cases hopen : disk.openFile (dir.child name) with
  | error cause => exact .refl hw
  | ok opened =>
    obtain ⟨file, opened⟩ := opened
    obtain ⟨he, hworks⟩ := Disk.openFile_worksIn hw hd hn ho hopen
    have hfill : ∀ bytes, Disk.WorksIn own disk (opened.setContent file bytes) := fun bytes =>
      hworks.trans ((Disk.writesOnly_setContent opened file bytes).worksIn hworks.wellFormed he ho)
    dsimp only
    split
    · exact hfill []
    · rename_i hfree
      have hfilled := hfill (ownerText opened.process)
      exact hfilled.trans (Disk.lock_worksIn hfilled.wellFormed he ho hfree)

end FileLock

namespace Log

variable {own : Path → Prop} {disk : Disk} {dir place : Path}

theorem worksIn_open (hw : disk.WellFormed) (hd : Disk.Homed disk dir place)
    (ho : own (place ++ [fileName])) : Disk.WorksIn own disk (Log.open? dir disk).2 := by
  rw [Log.open?]
  cases hopen : disk.openFile (dir.child fileName) with
  | error cause => exact .refl hw
  | ok opened =>
    obtain ⟨file, opened⟩ := opened
    obtain ⟨he, hworks⟩ := Disk.openFile_worksIn hw hd (by decide) ho hopen
    dsimp only
    split
    · exact hworks.trans ((Disk.writesOnly_setContent opened file
        ((opened.content file).overwrite 0 header)).worksIn hworks.wellFormed he ho)
    · split <;> exact hworks

end Log

namespace CheckpointDir

variable {own : Path → Prop} {disk : Disk} {dir place : Path} {name : String}

theorem Tidy.worksIn_write (h : Tidy disk place) (hw : disk.WellFormed)
    (hd : Disk.Homed disk dir place) (ho : ∀ rest, own (place ++ rest)) (token : Token)
    (hn : Path.Plain name) (hdraft : Path.Plain (draftFile name)) (payload : Bytes) :
    Disk.WorksIn own disk (write dir token name payload disk).2 := by
  obtain ⟨made, hmade, hdirs⟩ := Disk.createDirs_grandchild hd
    (show Path.Plain "checkpoints" by decide) token.plain_text h.root (fun id he => by
      obtain ⟨hf, -⟩ := h.child token.text _ he
      cases hf)
  have hown : ∀ name, own (tokenPlace place token ++ [name]) := by
    intro name
    rw [tokenPlace, rootPlace, List.append_assoc, List.append_assoc]
    exact ho _
  have hworks : Disk.WorksIn own disk made := by
    refine hdirs.worksIn hw fun p hp => ?_
    rcases (by simpa using hp : p = _ ∨ p = _) with rfl | rfl
    · exact ho _
    · rw [show place ++ ["checkpoints", token.text] = place ++ (["checkpoints"] ++ [token.text])
        from rfl]
      exact ho _
  have htoken : made.entry? (tokenPlace place token) = some .directory := by
    rw [hdirs.entry, if_pos (by simp [tokenPlace, rootPlace])]
  have hroot : made.entry? (rootPlace place) = some .directory := by
    rw [hdirs.entry, if_pos (by simp [rootPlace])]
  have hhome : Disk.Homed made (tokenDir dir token) (tokenPlace place token) :=
    ((hd.mono hworks.directory).child (by decide) hroot).child token.plain_text htoken
  rw [write_made (show disk.createDirs (tokenDir dir token) = (.ok (), made) from hmade)]
  cases hopen : made.openFile ((tokenDir dir token).child (draftFile name)) with
  | error cause => exact hworks
  | ok opened =>
    obtain ⟨file, opened⟩ := opened
    obtain ⟨he, hopened⟩ := Disk.openFile_worksIn hworks.wellFormed hhome hdraft (hown _) hopen
    have hwrites := (Disk.writesOnly_setContent opened file (Frame.wrap payload)).worksIn
      hopened.wellFormed he (hown (draftFile name))
    have hfilled := (hworks.trans hopened).trans hwrites
    have hkept := (hhome.mono hopened.directory).mono hwrites.directory
    rcases Disk.worksIn_renameChild hwrites.wellFormed hkept hdraft hn he (hown _) (hown _) with
      hfail | ⟨other, hrename, hmoved⟩
    · simp only [hfail]
      exact hfilled
    · simp only [hrename]
      exact hfilled.trans hmoved

theorem Tidy.worksIn_writePart (h : Tidy disk place) (hw : disk.WellFormed)
    (hd : Disk.Homed disk dir place) (ho : ∀ rest, own (place ++ rest)) (hn : name ∈ partFiles)
    (part : Option (Token × Bytes)) : Disk.WorksIn own disk (writePart dir name part disk).2 := by
  obtain ⟨hplain, hdraft⟩ := plain_partFiles name hn
  rcases part with _ | ⟨token, payload⟩
  · exact .refl hw
  · exact h.worksIn_write hw hd ho token hplain hdraft payload

end CheckpointDir

namespace Store

variable {own : Path → Prop} {store : Store} {disk : Disk} {dir place : Path}
  {history : List LogRecord}

theorem worksIn_openLocked (hw : disk.WellFormed) (hd : Disk.Homed disk dir place)
    (ho : own (place ++ [Log.fileName])) (config : Config) (lock : FileLock) :
    Disk.WorksIn own disk (openLocked dir config lock disk).2 := by
  have hworks := Log.worksIn_open hw hd ho
  rw [openLocked]
  cases hlog : Log.open? dir disk with
  | mk result opened =>
    rw [hlog] at hworks
    cases result with
    | error fault => exact hworks
    | ok log =>
      obtain ⟨home, hhome, -, -, he, -⟩ := Log.holds_open hw hlog
      obtain rfl := hhome.unique hd
      dsimp only
      split
      · exact hworks
      · split
        · split
          · exact hworks
          · rename_i hrestore
            obtain ⟨-, rfl, -⟩ := Log.restore_ok hrestore
            exact hworks.trans ((Disk.writesOnly_setContent opened log.file
              ((opened.content log.file).resize Log.origin)).worksIn hworks.wellFormed he ho)
        · exact hworks

theorem worksIn_open (hw : disk.WellFormed) (hd : Disk.Homed disk dir place)
    (ho : ∀ rest, own (place ++ rest)) (config : Config) :
    Disk.WorksIn own disk (Store.open? dir config disk).2 := by
  have hlock := FileLock.worksIn_acquire hw hd (show Path.Plain lockFile by decide) (ho _)
  rw [Store.open?, Disk.createDirs_homed hd]
  dsimp only
  cases hacquire : FileLock.acquire (dir.child lockFile) disk with
  | mk result held =>
    rw [hacquire] at hlock
    cases result with
    | error fault => exact hlock
    | ok lock =>
      have hopen := hlock.trans (worksIn_openLocked hlock.wellFormed (hd.mono hlock.directory)
        (ho _) config lock)
      dsimp only
      cases hopened : openLocked dir config lock held with
      | mk result opened =>
        rw [hopened] at hopen
        cases result with
        | error fault => exact hopen.trans (FileLock.worksIn_release lock hopen.wellFormed)
        | ok store => exact hopen

theorem Logs.worksIn_evictIfFull (h : store.Logs disk place history)
    (ho : own (place ++ [Log.fileName])) : Disk.WorksIn own disk (store.evictIfFull disk).2 := by
  rw [Store.evictIfFull]
  split
  · exact (Log.Holds.writesOnly_evict store.log disk).worksIn h.wellFormed h.entry ho
  · exact .refl h.wellFormed

theorem Tends.worksIn_complete (h : store.Tends disk place) (hl : store.Logs disk place history)
    (ho : ∀ rest, own (place ++ rest)) : Disk.WorksIn own disk (store.complete disk).2.2 := by
  cases hc : store.captured with
  | none =>
    rw [Store.complete, hc]
    exact .refl hl.wellFormed
  | some captured =>
    refine (complete_keeps (fun after other => Disk.Homed other after.dir place ∧
      CheckpointDir.Tidy other place ∧ Disk.WorksIn own disk other) hc ?_ ?_ ?_).2.2
    · obtain ⟨htends, hlogs, -⟩ := h.beforeParts hl captured
      refine ⟨hlogs.homed, htends.tidy, ?_⟩
      rw [Store.beforeParts]
      split
      · exact (Log.Holds.writesOnly_flush store.log disk).worksIn hl.wellFormed hl.entry (ho _)
      · exact .refl hl.wellFormed
    · rintro name hn part after other ⟨hd, ht, hw⟩
      have hworks := ht.worksIn_writePart hw.wellFormed hd ho hn part
      obtain ⟨second, hsecond, htidy, -⟩ := ht.writePart_ok hw.wellFormed hd hn part
      rw [hsecond] at hworks ⊢
      exact ⟨hd.mono hworks.directory, htidy, hw.trans hworks⟩
    · exact fun _ _ hk => hk

/-- Every operation of a store works in the directory of the store. -/
theorem Tends.worksIn_step (h : store.Tends disk place) (hl : store.Logs disk place history)
    (ho : ∀ rest, own (place ++ rest)) (op : Op) :
    Disk.WorksIn own disk (Store.step op (store, disk)).2 := by
  have hrefl : Disk.WorksIn own disk disk := .refl hl.wellFormed
  have hd := does_step op store disk
  generalize Store.step op (store, disk) = after at hd ⊢
  cases hd with
  | @written session key id tombstone => exact (hl.write key id tombstone).worksIn_evictIfFull (ho _)
  | flush => exact (Log.Holds.writesOnly_flush store.log disk).worksIn hl.wellFormed hl.entry (ho _)
  | evict => exact (Log.Holds.writesOnly_evict store.log disk).worksIn hl.wellFormed hl.entry (ho _)
  | complete => exact h.worksIn_complete hl ho
  | _ => exact hrefl

theorem writesOnly_recover (store : Store) (index log : Option Token) (disk : Disk) :
    Disk.WritesOnly store.log.file disk (store.recover index log disk).2.2 := by
  rw [Store.recover]
  split
  · exact .refl _ _
  · split
    · exact .refl _ _
    · split
      · exact .refl _ _
      · rename_i hrestore
        obtain ⟨-, rfl, -⟩ := Log.restore_ok hrestore
        exact Disk.writesOnly_setContent _ _ _

end Store

end PredicateIndex
