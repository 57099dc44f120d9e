import PredicateIndex.Proofs.Generations

/-!
# Recoveries that fail

A recovery checks everything that it can check before it changes anything: that
nothing has been written, that both checkpoints can be read and go together, and
that the log file is long enough. Then it restores the log and the heads, and
only after that reads the records to be replayed. If one of these is damaged the
log stays cut off and restored, the heads stay those of the index part, and the
store refuses every further recovery because its log is not empty any more.
-/

set_option autoImplicit false

namespace PredicateIndex.Store

variable {store failed : Store} {disk other : Disk} {index log : Option Token}
  {source : RecoverySource} {fault : Fault}

def truncated (store : Store) (source : RecoverySource) (disk : Disk) : Disk :=
  disk.setLength store.log.file source.log.tail.toNat

/-- The checks of a recovery pass that come before it changes anything. -/
structure Admits (store : Store) (index log : Option Token) (disk : Disk)
    (source : RecoverySource) : Prop where
  empty : store.log.isEmpty = true
  chosen : store.recoverySource index log disk = .ok source
  reaches : source.log.tail.toNat ≤ (disk.content store.log.file).length

def ReplayFails (store : Store) (source : RecoverySource) (disk : Disk) (fault : Fault) : Prop :=
  (store.restored source).log.scan source.replayFrom source.log.tail.toNat
    (store.truncated source disk) = .error fault

theorem Admits.recover_eq (h : store.Admits index log disk source) :
    store.recover index log disk =
      (((store.restored source).replayFrom source (store.truncated source disk)).1,
        ((store.restored source).replayFrom source (store.truncated source disk)).2,
        store.truncated source disk) := by
  simp only [recover, h.empty, h.chosen, Log.restore_of_le source.log.start.toNat h.reaches]
  rfl

theorem recover_unrestored (h : ∀ source, ¬ store.Admits index log disk source) :
    ∃ fault, store.recover index log disk = (.error fault, store, disk) := by
  rw [recover]
  by_cases hempty : store.log.isEmpty = true
  · rw [hempty]
    cases hs : store.recoverySource index log disk with
    | error fault => exact ⟨fault, rfl⟩
    | ok source =>
      have hl : (disk.content store.log.file).length < source.log.tail.toNat :=
        Nat.lt_of_not_le fun hl => h source ⟨hempty, hs, hl⟩
      simp only [Log.restore, hl, ↓reduceIte]
      exact ⟨_, rfl⟩
  · simp only [hempty]
    exact ⟨_, rfl⟩

theorem Admits.recover_broken (h : store.Admits index log disk source)
    (hf : store.ReplayFails source disk fault) :
    store.recover index log disk =
      (.error fault, store.restored source, store.truncated source disk) := by
  rw [ReplayFails] at hf
  rw [h.recover_eq, replayFrom, hf]

theorem Admits.recover_whole (h : store.Admits index log disk source)
    (hf : ∀ fault, ¬ store.ReplayFails source disk fault) :
    ∃ records, store.recover index log disk =
      (.ok source.token, store.replayed source records, store.truncated source disk) := by
  rw [h.recover_eq, replayFrom]
  cases hs : (store.restored source).log.scan source.replayFrom source.log.tail.toNat
      (store.truncated source disk) with
  | error fault => exact (hf fault hs).elim
  | ok records => exact ⟨records, rfl⟩

theorem recoverySource_congr {store other : Store} (h : other.dir = store.dir)
    (index log : Option Token) (disk : Disk) :
    other.recoverySource index log disk = store.recoverySource index log disk := by
  simp only [recoverySource, chooseLog, chooseIndex, h]

theorem recover_result_congr {store other : Store} (hd : other.dir = store.dir)
    (hl : other.log.path = store.log.path) (hf : other.log.file = store.log.file)
    (he : other.log.isEmpty = store.log.isEmpty) (index log : Option Token) (disk : Disk) :
    (other.recover index log disk).1 = (store.recover index log disk).1 := by
  rw [recover, recover, he, recoverySource_congr hd]
  by_cases hempty : store.log.isEmpty = true
  · simp only [hempty, Bool.not_true, Bool.false_eq_true, ↓reduceIte]
    cases store.recoverySource index log disk with
    | error fault => rfl
    | ok source =>
      simp only [Log.restore, hf]
      by_cases hreach : (disk.content store.log.file).length < source.log.tail.toNat
      · simp only [hreach, ↓reduceIte]
      · simp only [hreach, ↓reduceIte, replayFrom, hl]
        split <;> rfl
  · simp only [hempty, Bool.not_false, ↓reduceIte]

theorem Logs.read_truncated {place : Path} (h : store.Logs disk place [])
    (hr : source.log.tail.toNat ≤ (disk.content store.log.file).length) :
    (store.truncated source disk).read store.log.path =
      .ok ((disk.content store.log.file).take source.log.tail.toNat) := by
  have hn : Path.Plain Log.fileName := by decide
  have hw := Disk.writesOnly_setContent disk store.log.file
    ((disk.content store.log.file).resize source.log.tail.toNat)
  have hhomed : Disk.Homed (store.truncated source disk) store.dir place :=
    h.homed.mono fun p hd => (hw.entry?_eq p).trans hd
  have hentry : Disk.entry? (store.truncated source disk) (place ++ [Log.fileName]) =
      some (.file store.log.file) := (hw.entry?_eq _).trans h.entry
  have hcontent : (store.truncated source disk).content store.log.file =
      (disk.content store.log.file).take source.log.tail.toNat := by
    rw [truncated, Disk.setLength, Disk.content_setContent h.holds.inRange, Bytes.resize,
      Nat.sub_eq_zero_of_le hr, List.replicate_zero, List.append_nil]
  rw [h.path, Disk.read, Disk.find, hhomed.locate_child hn hentry]
  exact congrArg Except.ok hcontent

/-- In a store without writes the replay fails on a part of the log file that does not consist of
whole records, or if it would begin before the log part. -/
theorem Logs.replayFails_iff {place : Path} (h : store.Logs disk place [])
    (hr : store.Admits index log disk source) :
    store.ReplayFails source disk fault ↔
      source.replayFrom < source.log.tail.toNat ∧
        if source.replayFrom < source.log.start.toNat then
          fault = .addressOutOfRange source.replayFrom
        else
          Log.records (source.log.tail.toNat - source.replayFrom) source.replayFrom
            (((disk.content store.log.file).take source.log.tail.toNat).drop source.replayFrom) =
              .error fault := by
  have hread : (store.truncated source disk).read (store.restored source).log.path = _ :=
    h.read_truncated hr.reaches
  rw [ReplayFails, Log.scan]
  by_cases hbehind : source.log.tail.toNat ≤ source.replayFrom
  · rw [if_pos hbehind]
    constructor
    · intro hok
      cases hok
    · intro hf
      omega
  · have hfrom : source.replayFrom < source.log.tail.toNat := Nat.lt_of_not_le hbehind
    rw [if_neg hbehind, and_iff_right hfrom]
    by_cases hstart : source.replayFrom < source.log.start.toNat
    · have hout : source.replayFrom < (store.restored source).log.start ∨
          (store.restored source).log.flushed < source.log.tail.toNat := Or.inl hstart
      rw [if_pos hout, if_pos hstart, Except.error.injEq, eq_comm]
    · have hin : ¬ (source.replayFrom < (store.restored source).log.start ∨
          (store.restored source).log.flushed < source.log.tail.toNat) :=
        fun ho => ho.elim hstart (Nat.lt_irrefl _)
      have hlength : (((disk.content store.log.file).take source.log.tail.toNat).drop
          source.replayFrom).length = source.log.tail.toNat - source.replayFrom := by
        have hreach := hr.reaches
        simp only [List.length_drop, List.length_take]
        omega
      have hsplit := Bytes.split?_append
        (((disk.content store.log.file).take source.log.tail.toNat).drop source.replayFrom) []
      rw [List.append_nil, hlength] at hsplit
      rw [if_neg hin, if_neg hstart, hread]
      simp only [hsplit, hlength]

theorem Admits.unique {last : RecoverySource} (h : store.Admits index log disk source)
    (hl : store.Admits index log disk last) : last = source :=
  Except.ok.inj (hl.chosen.symm.trans h.chosen)

/-- A failed recovery has changed nothing, or it is the replay that failed. -/
theorem recover_error_cases (h : store.recover index log disk = (.error fault, failed, other)) :
    (failed = store ∧ other = disk ∧
        ∀ source, store.Admits index log disk source → ¬ store.ReplayFails source disk fault) ∨
      ∃ source, store.Admits index log disk source ∧ store.ReplayFails source disk fault ∧
        failed = store.restored source ∧ other = store.truncated source disk := by
  by_cases hr : ∃ source, store.Admits index log disk source
  · obtain ⟨source, hr⟩ := hr
    by_cases hf : ∃ cause, store.ReplayFails source disk cause
    · obtain ⟨cause, hf⟩ := hf
      rw [hr.recover_broken hf] at h
      cases h
      exact Or.inr ⟨source, hr, hf, rfl, rfl⟩
    · obtain ⟨records, hok⟩ := hr.recover_whole fun cause hc => hf ⟨cause, hc⟩
      rw [hok] at h
      cases h
  · have hno : ∀ source, ¬ store.Admits index log disk source := fun source hs => hr ⟨source, hs⟩
    obtain ⟨cause, herror⟩ := recover_unrestored hno
    rw [herror] at h
    cases h
    exact Or.inl ⟨rfl, rfl, fun source hs => (hno source hs).elim⟩

theorem recover_restored (hs : source.log.start ≠ source.log.tail) :
    (store.restored source).recover index log disk =
      (.error .storeNotEmpty, store.restored source, disk) := by
  have hne : source.log.tail.toNat ≠ source.log.start.toNat :=
    fun h => hs (UInt64.toNat_inj.mp h.symm)
  have hempty : (store.restored source).log.isEmpty = false := decide_eq_false hne
  rw [recover, hempty]
  rfl

/-- What a recovery that fails leaves: everything, unless it could not replay the log. Then the log is
the one of the log part, its file is cut off there, the heads are those of the index part, and
every further recovery is refused, unless the log part has no records. -/
theorem recover_failed (h : store.recover index log disk = (.error fault, failed, other)) :
    failed.sessions = store.sessions ∧ failed.captured = store.captured ∧
      failed.lastCheckpoint = store.lastCheckpoint ∧
      failed.awaitingRecovery = store.awaitingRecovery ∧
      ((∀ source, store.Admits index log disk source → ¬ store.ReplayFails source disk fault) →
        failed = store ∧ other = disk) ∧
      ∀ source, store.Admits index log disk source → store.ReplayFails source disk fault →
        failed.heads = .restore source.heads ∧
        failed.log = { store.log with
          start := source.log.start.toNat, head := source.log.tail.toNat
          flushed := source.log.tail.toNat, tail := source.log.tail.toNat, buffer := [] } ∧
        other = disk.setLength store.log.file source.log.tail.toNat ∧
        (source.log.start ≠ source.log.tail → ∀ index log disk,
          failed.recover index log disk = (.error .storeNotEmpty, failed, disk)) ∧
        (source.log.start = source.log.tail → ∀ index log disk,
          (failed.recover index log disk).1 = (store.recover index log disk).1) := by
  rcases recover_error_cases h with ⟨rfl, rfl, hno⟩ | ⟨source, hr, hf, rfl, rfl⟩
  · exact ⟨rfl, rfl, rfl, rfl, fun _ => ⟨rfl, rfl⟩, fun source hs hb => (hno source hs hb).elim⟩
  · refine ⟨rfl, rfl, rfl, rfl, fun hno => (hno source hr hf).elim, fun last hl _ => ?_⟩
    obtain rfl := hr.unique hl
    refine ⟨rfl, rfl, rfl, fun hs index log disk => recover_restored hs, fun hs index log disk => ?_⟩
    have hempty : (store.restored last).log.isEmpty = true :=
      decide_eq_true (congrArg UInt64.toNat hs.symm)
    have hsame : (store.restored last).log.isEmpty = store.log.isEmpty := hempty.trans hr.empty.symm
    exact @recover_result_congr store (store.restored last) rfl rfl rfl hsame index log disk

def turnBit (path : Path) (offset : Nat) (disk : Disk) : Disk :=
  match disk.find path with
  | .error _ => disk
  | .ok id => disk.setContent id ((disk.content id).modify offset (· ^^^ 1))

/-- Two records with a log checkpoint after the first and a full one after the second. After the
store has been closed the first record is damaged. -/
def damagedDisk : Disk :=
  let key (byte : UInt8) : CompositeKey := [{ ordinal := 0, key := some [byte] }]
  let life : Generation := ⟨{},
    [.upsert ⟨1, 0, 0⟩ (key 170) ⟨1, 1⟩ false, .take .log ⟨1⟩, .complete,
      .upsert ⟨1, 0, 0⟩ (key 187) ⟨2, 1⟩ false, .take .full ⟨2⟩, .complete]⟩
  turnBit ["db", "log.dat"] 90 (Timeline.live ["db"] life { disk := .withDir "db" }).disk

def recoveriesFail : Bool :=
  match open? ["db"] {} damagedDisk with
  | (.ok store, opened) =>
    match store.recover none (some ⟨3⟩) opened, store.recover none (some ⟨1⟩) opened,
      store.recoverySource none (some ⟨3⟩) opened,
      store.recoverySource none (some ⟨1⟩) opened with
    | (.error missing, _, _), (.error broken, _, _), .error _, .ok source =>
      decide (missing = .noCheckpointFile "log.meta" ⟨3⟩ ∧ broken = .badChecksum ∧
        store.log.isEmpty = true ∧
        source.log.tail.toNat ≤ (opened.content store.log.file).length ∧
        (store.restored source).log.scan source.replayFrom source.log.tail.toNat
          (store.truncated source opened) = .error .badChecksum ∧
        source.log.start ≠ source.log.tail ∧ source.log.tail = 103)
    | _, _, _, _ => false
  | (.error _, _) => false

/-- A checkpoint that is not there changes nothing, the damaged record does. -/
theorem recover_failed_twice : ∃ (store kept failed : Store) (opened same other : Disk)
    (source : RecoverySource), open? ["db"] {} damagedDisk = (.ok store, opened) ∧
      store.recover none (some ⟨3⟩) opened = (.error (.noCheckpointFile "log.meta" ⟨3⟩), kept, same) ∧
      kept = store ∧ same = opened ∧
      store.recover none (some ⟨1⟩) opened = (.error .badChecksum, failed, other) ∧
      failed.awaitingRecovery = store.awaitingRecovery ∧
      source.log.tail = 103 ∧ failed.log.tail = source.log.tail.toNat ∧
      other = opened.setLength store.log.file source.log.tail.toNat ∧
      ∀ index log disk, failed.recover index log disk = (.error .storeNotEmpty, failed, disk) := by
  have hfacts : recoveriesFail = true := by decide +kernel
  unfold recoveriesFail at hfacts
  split at hfacts
  · rename_i store opened hopen
    split at hfacts
    · rename_i missing kept same broken failed other cause source hkept hfailed hcause hsource
      obtain ⟨rfl, rfl, hempty, hreaches, hscan, hrecords, htail⟩ := of_decide_eq_true hfacts
      obtain ⟨-, -, -, -, hunchanged, -⟩ := recover_failed hkept
      obtain ⟨-, -, -, hawaiting, -, hbroken⟩ := recover_failed hfailed
      obtain ⟨hstore, hdisk⟩ := hunchanged fun chosen hr => by
        cases hr.chosen.symm.trans hcause
      obtain ⟨-, hlog, hcut, hrefused, -⟩ := hbroken source ⟨hempty, hsource, hreaches⟩ hscan
      refine ⟨store, kept, failed, opened, same, other, source, hopen, hkept, hstore, hdisk,
        hfailed, hawaiting, htail, ?_, hcut, hrefused hrecords⟩
      rw [hlog]
    · cases hfacts
  · cases hfacts

def recoveryIsLost : Bool :=
  match open? ["db"] {} damagedDisk with
  | (.ok store, opened) =>
    match store.recover none (some ⟨1⟩) opened with
    | (.error _, failed, other) =>
      decide ((store.recover (some ⟨2⟩) (some ⟨2⟩) opened).1 = .ok ⟨2⟩ ∧
        (failed.recover (some ⟨2⟩) (some ⟨2⟩) other).1 = .error .storeNotEmpty)
    | (.ok _, _) => false
  | (.error _, _) => false

/-- The full checkpoint could be recovered, were it not for the failed call: that leaves the addresses
of the first checkpoint, cuts the second record off, and has every other recovery refused. -/
theorem recover_damaged_log : ¬ ∀ (dir : Path) (config : Config) (disk opened other : Disk)
    (store failed : Store) (index log : Option Token) (fault : Fault),
    open? dir config disk = (.ok store, opened) →
    store.recover index log opened = (.error fault, failed, other) →
    failed.log = store.log ∧
      other.content store.log.file = opened.content store.log.file ∧
      failed.heads = store.heads ∧
      failed.sessions.commitPoints = store.sessions.commitPoints ∧
      failed.lastCheckpoint = store.lastCheckpoint ∧
      failed.awaitingRecovery = store.awaitingRecovery ∧
      ∀ index log, (failed.recover index log other).1 = (store.recover index log opened).1 := by
  have hfacts : recoveryIsLost = true := by decide +kernel
  unfold recoveryIsLost at hfacts
  intro h
  split at hfacts
  · rename_i store opened hopen
    split at hfacts
    · rename_i fault failed other hrecover
      obtain ⟨hbefore, hafter⟩ := of_decide_eq_true hfacts
      obtain ⟨-, -, -, -, -, -, hsame⟩ := h _ _ _ _ _ _ _ _ _ _ hopen hrecover
      rw [hsame, hbefore] at hafter
      cases hafter
    · cases hfacts
  · cases hfacts

end PredicateIndex.Store
