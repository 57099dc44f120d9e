import PredicateIndex.Proofs.Reopening

/-!
# Recovering a store

A log file that begins with some records can be restored to just these records,
whatever stands behind them. If the heads that a recovery starts from are those
after the first of the records, replaying the others makes them the heads after
all of them, wherever the border between the two lies.
-/

set_option autoImplicit false

namespace PredicateIndex

namespace Log

structure Covers (disk : Disk) (file : FileId) (history : List LogRecord) : Prop where
  origin_le : origin ≤ (disk.content file).length
  bytes : image history <+: (disk.content file).drop origin

variable {disk other : Disk} {file : FileId} {history front : List LogRecord}

namespace Covers

theorem length_le (h : Covers disk file history) :
    origin + (image history).length ≤ (disk.content file).length := by
  have hl := h.bytes.length_le
  have ho := h.origin_le
  rw [List.length_drop] at hl
  omega

theorem take_drop (h : Covers disk file history) :
    ((disk.content file).take (origin + (image history).length)).drop origin = image history := by
  rw [List.drop_take, Nat.add_sub_cancel_left]
  exact (List.prefix_iff_eq_take.mp h.bytes).symm

theorem mono (h : Covers disk file history) (hf : image front <+: image history) :
    Covers disk file front :=
  ⟨h.origin_le, hf.trans h.bytes⟩

theorem congr (h : Covers disk file history) (hc : other.content file = disk.content file) :
    Covers other file history :=
  ⟨hc ▸ h.origin_le, hc ▸ h.bytes⟩

theorem image_le (h : Covers disk file history) (hf : Covers disk file front)
    (hl : (image front).length ≤ (image history).length) : image front <+: image history :=
  List.prefix_of_prefix_length_le hf.bytes h.bytes hl

end Covers

theorem Holds.covers {log : Log} {bytes : Bytes} (h : log.Holds disk bytes)
    (ho : log.start = origin) (hf : image front <+: bytes)
    (hl : origin + (image front).length ≤ log.flushed) : Covers disk log.file front := by
  have hs := h.start_le
  have hh := h.head_le
  have hr := h.reaches
  have hc := h.drop_content (Nat.le_refl log.start) (by omega)
  rw [Nat.sub_self, List.drop_zero, ho] at hc
  constructor
  · omega
  · rw [hc]
    have htake : image front <+: bytes.take (log.flushed - origin) := by
      rw [List.prefix_take_iff]
      exact ⟨hf, by omega⟩
    exact htake.trans (List.prefix_append _ _)

end Log

namespace Store

variable {store : Store} {disk : Disk} {place : Path} {history : List LogRecord}

theorem Logs.read_log (h : store.Logs disk place history) :
    disk.read store.log.path = .ok (disk.content store.log.file) := by
  have hn : Path.Plain Log.fileName := by decide
  rw [h.path, Disk.read, Disk.find, h.homed.locate_child hn h.entry]
  rfl

def recordsFrom (store : Store) (disk : Disk) (address : Nat) :
    Except Fault (List (Nat × LogRecord)) :=
  let bytes := (store.log.bytes disk).drop (address - store.log.start)
  Log.records bytes.length address bytes

theorem Logs.recordsFrom_eq (h : store.Logs disk place history) (address : Nat) :
    store.recordsFrom disk address =
      Log.records ((Log.image history).drop (address - Log.origin)).length address
        ((Log.image history).drop (address - Log.origin)) := by
  rw [recordsFrom, h.holds.bytes_eq, h.start]

theorem Logs.scan (h : store.Logs disk place history) (hf : store.log.flushed = store.log.tail)
    {address : Nat} (hs : Log.origin ≤ address) (hl : address ≤ store.log.tail) :
    store.log.scan address store.log.tail disk = store.recordsFrom disk address := by
  have hscan := Log.scan_bytes h.holds hf h.read_log (h.start ▸ hs) hl
  rw [h.start] at hscan
  rw [hscan, h.recordsFrom_eq]

theorem Logs.isEmpty (h : store.Logs disk place []) : store.log.isEmpty = true := by
  have ht := h.tail_eq
  rw [Log.isEmpty, decide_eq_true_iff, ht, h.start]
  rfl

def restored (store : Store) (source : RecoverySource) : Store :=
  { store with
    log := { store.log with
      start := source.log.start.toNat, head := source.log.tail.toNat
      flushed := source.log.tail.toNat, tail := source.log.tail.toNat, buffer := [] }
    heads := .restore source.heads }

def replayed (store : Store) (source : RecoverySource) (records : List (Nat × LogRecord)) : Store :=
  { store.restored source with
    heads := replay records (.restore source.heads)
    sessions := store.sessions.restore source.log.commitPoints
    lastCheckpoint := some source.token
    awaitingRecovery := false }

/-- Once the checkpoints are read and the file is long enough, recovery restores the log and, if it
can be scanned, replays it. -/
theorem Logs.recover_cases (h : store.Logs disk place []) {index log : Option Token}
    {source : RecoverySource} (hs : store.recoverySource index log disk = .ok source)
    (hl : source.log.tail.toNat ≤ (disk.content store.log.file).length) :
    (∃ fault, (store.restored source).log.scan source.replayFrom source.log.tail.toNat
          (disk.setLength store.log.file source.log.tail.toNat) = .error fault ∧
        store.recover index log disk = (.error fault, store.restored source,
          disk.setLength store.log.file source.log.tail.toNat)) ∨
      ∃ records, (store.restored source).log.scan source.replayFrom source.log.tail.toNat
          (disk.setLength store.log.file source.log.tail.toNat) = .ok records ∧
        store.recover index log disk = (.ok source.token, store.replayed source records,
          disk.setLength store.log.file source.log.tail.toNat) := by
  have hrecover : store.recover index log disk =
      (((store.restored source).replayFrom source
          (disk.setLength store.log.file source.log.tail.toNat)).1,
        ((store.restored source).replayFrom source
          (disk.setLength store.log.file source.log.tail.toNat)).2,
        disk.setLength store.log.file source.log.tail.toNat) := by
    simp only [recover, h.isEmpty, hs, Log.restore_of_le source.log.start.toNat hl]
    rfl
  rw [hrecover, replayFrom]
  cases (store.restored source).log.scan source.replayFrom source.log.tail.toNat
    (disk.setLength store.log.file source.log.tail.toNat) with
  | error fault => exact Or.inl ⟨fault, rfl, rfl⟩
  | ok records => exact Or.inr ⟨records, rfl, rfl⟩

structure RecoverySource.Bounds (source : RecoverySource) (history : List LogRecord) : Prop where
  start : source.log.start.toNat = Log.origin
  tail : source.log.tail.toNat = Log.origin + (Log.image history).length

theorem Logs.restored (h : store.Logs disk place []) {source : RecoverySource}
    (hb : source.Bounds history) (hc : Log.Covers disk store.log.file history) :
    (store.restored source).Logs (disk.setLength store.log.file source.log.tail.toNat) place
      history := by
  have hw := Disk.writesOnly_setContent disk store.log.file
    ((disk.content store.log.file).resize source.log.tail.toNat)
  have hl : source.log.tail.toNat ≤ (disk.content store.log.file).length := hb.tail ▸ hc.length_le
  have hle : source.log.start.toNat ≤ source.log.tail.toNat := by
    rw [hb.start, hb.tail]
    exact Nat.le_add_right _ _
  have hholds := Log.holds_restore h.holds.inRange hle (Log.restore_of_le _ hl)
  rw [hb.start, hb.tail, hc.take_drop, ← hb.tail, ← hb.start] at hholds
  exact
    { wellFormed := hw.wellFormed h.wellFormed
      homed := h.homed.mono fun p hd => (hw.entry?_eq p).trans hd
      path := h.path
      entry := (hw.entry?_eq _).trans h.entry
      start := hb.start
      holds := hholds
      aligned := ⟨history, [], (List.append_nil history).symm, hb.tail⟩ }

theorem Tends.restored (ht : store.Tends disk place) (h : store.Logs disk place [])
    {source : RecoverySource} (hb : source.Bounds history) :
    (store.restored source).Tends (disk.setLength store.log.file source.log.tail.toNat) place ∧
      Disk.ChangesOnly (place ++ [Log.fileName]) disk
        (disk.setLength store.log.file source.log.tail.toNat) := by
  have hw := Disk.writesOnly_setContent disk store.log.file
    ((disk.content store.log.file).resize source.log.tail.toNat)
  have hchange := hw.changesOnly h.wellFormed h.entry
  refine ⟨⟨ht.tidy.frame hchange (rootPlace_ne_log place), ?_, ?_⟩, hchange⟩
  · exact (hchange.entry _ (lock_ne_log place)).trans ht.lock
  · apply Log.signed_resize h.holds.inRange ht.signed
    rw [Log.length_signature, hb.tail, Log.origin]
    omega

end Store

end PredicateIndex
