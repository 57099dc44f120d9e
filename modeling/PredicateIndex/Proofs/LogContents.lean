import PredicateIndex.Log
import PredicateIndex.Proofs.DiskChanges
import PredicateIndex.Proofs.Words

/-!
# The bytes of a log

A log stands for one byte string that starts at its first address. Its buffer
holds the end of this string and its file the part that has been flushed; each
operation either extends the string or moves the border between the two.
-/

set_option autoImplicit false

namespace PredicateIndex

namespace Bytes

theorem overwrite_inside {bytes : Bytes} {start : Nat} (h : start ≤ bytes.length) (patch : Bytes) :
    bytes.overwrite start patch = bytes.take start ++ (patch ++ bytes.drop (start + patch.length)) := by
  rw [overwrite, Nat.sub_eq_zero_of_le h, List.replicate_zero, List.append_nil, List.append_assoc]

theorem take_overwrite {bytes : Bytes} {start : Nat} (h : start ≤ bytes.length) (patch : Bytes) :
    (bytes.overwrite start patch).take (start + patch.length) = bytes.take start ++ patch := by
  rw [overwrite_inside h, ← List.append_assoc]
  apply List.take_left'
  rw [List.length_append, List.length_take, Nat.min_eq_left h]

theorem le_length_overwrite {bytes : Bytes} {start : Nat} (h : start ≤ bytes.length)
    (patch : Bytes) : start + patch.length ≤ (bytes.overwrite start patch).length := by
  rw [overwrite_inside h, List.length_append, List.length_append, List.length_take,
    Nat.min_eq_left h]
  omega

end Bytes

namespace Log

/-- The log stands for `bytes`: its buffer and its file hold the parts that they should. -/
structure Holds (log : Log) (disk : Disk) (bytes : Bytes) : Prop where
  inRange : log.file < disk.files.length
  start_le : log.start ≤ log.head
  head_le : log.head ≤ log.flushed
  flushed_le : log.flushed ≤ log.tail
  tail_eq : log.tail = log.start + bytes.length
  buffer_eq : log.buffer = bytes.drop (log.head - log.start)
  reaches : log.flushed ≤ (disk.content log.file).length
  onDisk : ((disk.content log.file).take log.flushed).drop log.start =
    bytes.take (log.flushed - log.start)

namespace Holds

variable {log : Log} {disk : Disk} {bytes : Bytes}

theorem append (h : log.Holds disk bytes) (more : Bytes) :
    (log.append more).Holds disk (bytes ++ more) where
  inRange := h.inRange
  start_le := h.start_le
  head_le := h.head_le
  flushed_le := Nat.le_trans h.flushed_le (Nat.le_add_right _ _)
  tail_eq := by
    rw [Log.append, h.tail_eq, List.length_append, Nat.add_assoc]
  buffer_eq := by
    have hb := h.flushed_le
    have ht := h.tail_eq
    have hh := h.head_le
    have hl : log.head - log.start ≤ bytes.length := by omega
    rw [Log.append, h.buffer_eq, List.drop_append_of_le_length hl]
  reaches := h.reaches
  onDisk := by
    have hb := h.flushed_le
    have ht := h.tail_eq
    have hl : log.flushed - log.start ≤ bytes.length := by omega
    rw [Log.append, h.onDisk, List.take_append_of_le_length hl]

/-- What is written behind the flushed bytes does not matter. -/
theorem write (h : log.Holds disk bytes) (patch : Bytes) :
    log.Holds (disk.write log.file log.flushed patch) bytes := by
  have hc : (disk.write log.file log.flushed patch).content log.file =
      (disk.content log.file).overwrite log.flushed patch := Disk.content_setContent h.inRange _
  have hlength : ((disk.content log.file).take log.flushed).length = log.flushed := by
    rw [List.length_take, Nat.min_eq_left h.reaches]
  have htake : ((disk.content log.file).overwrite log.flushed patch).take log.flushed =
      (disk.content log.file).take log.flushed := by
    rw [Bytes.overwrite_inside h.reaches, List.take_append_of_le_length (Nat.le_of_eq hlength.symm),
      List.take_take, Nat.min_self]
  exact { h with
    inRange := by
      rw [Disk.write, Disk.length_setContent]
      exact h.inRange
    reaches := by
      have hl := Bytes.le_length_overwrite h.reaches patch
      rw [hc]
      omega
    onDisk := by rw [hc, htake, h.onDisk] }

theorem flush_log (h : log.Holds disk bytes) :
    (log.flush disk).1 = { log with flushed := log.tail } := by
  have hb := h.flushed_le
  rw [flush]
  split
  · rfl
  · have he : log.tail = log.flushed := by omega
    cases log
    cases he
    rfl

theorem writesOnly_flush (log : Log) (disk : Disk) :
    Disk.WritesOnly log.file disk (log.flush disk).2 := by
  rw [Log.flush]
  split
  · exact Disk.writesOnly_setContent disk log.file _
  · exact .refl log.file disk

theorem flush (h : log.Holds disk bytes) : (log.flush disk).1.Holds (log.flush disk).2 bytes := by
  have hs := h.start_le
  have hh := h.head_le
  have hf := h.flushed_le
  have ht := h.tail_eq
  rw [Log.flush]
  split
  · have hd : log.flushed - log.head + (log.head - log.start) = log.flushed - log.start := by omega
    have hp : log.buffer.drop (log.flushed - log.head) = bytes.drop (log.flushed - log.start) := by
      rw [h.buffer_eq, List.drop_drop, Nat.add_comm, hd]
    have hl : log.flushed + (bytes.drop (log.flushed - log.start)).length = log.tail := by
      rw [List.length_drop]
      omega
    have hw : ((disk.write log.file log.flushed (log.buffer.drop (log.flushed - log.head))).content
        log.file) = (disk.content log.file).overwrite log.flushed
          (bytes.drop (log.flushed - log.start)) := by
      rw [hp, Disk.write, Disk.content_setContent h.inRange]
    have hg := Bytes.le_length_overwrite h.reaches (bytes.drop (log.flushed - log.start))
    have ho := Bytes.take_overwrite h.reaches (bytes.drop (log.flushed - log.start))
    rw [hl] at hg ho
    refine ⟨?_, hs, Nat.le_trans hh hf, Nat.le_refl _, ht, h.buffer_eq, ?_, ?_⟩
    · rw [Disk.write, Disk.length_setContent]
      exact h.inRange
    · rw [hw]
      exact hg
    · rw [hw, ho]
      have hb : log.start ≤ ((disk.content log.file).take log.flushed).length := by
        rw [List.length_take, Nat.min_eq_left h.reaches]
        omega
      have hc : bytes.length ≤ log.tail - log.start := by omega
      rw [List.drop_append_of_le_length hb, h.onDisk, List.take_append_drop]
      exact (List.take_of_length_le hc).symm
  · exact h

theorem writesOnly_evict (log : Log) (disk : Disk) :
    Disk.WritesOnly log.file disk (log.evict disk).2 := writesOnly_flush log disk

theorem evict_log (h : log.Holds disk bytes) :
    (log.evict disk).1 = { log with flushed := log.tail, head := log.tail, buffer := [] } := by
  have hf := h.flush_log
  rw [Log.evict]
  cases hs : log.flush disk with
  | mk flushed other =>
    rw [hs] at hf
    obtain rfl : flushed = _ := hf
    rfl

theorem evict (h : log.Holds disk bytes) : (log.evict disk).1.Holds (log.evict disk).2 bytes := by
  have hf := h.flush
  have hs := h.start_le
  have hh := h.head_le
  have hl := h.flushed_le
  have ht := h.tail_eq
  rw [h.flush_log] at hf
  rw [h.evict_log]
  have hb : bytes.drop (log.tail - log.start) = [] := List.drop_of_length_le (by omega)
  exact ⟨hf.inRange, by show log.start ≤ log.tail; omega, Nat.le_refl _, Nat.le_refl _, ht, hb.symm,
    hf.reaches, hf.onDisk⟩

theorem onDisk_below (h : log.Holds disk bytes) {address : Nat} (ha : address ≤ log.flushed) :
    ((disk.content log.file).take address).drop log.start = bytes.take (address - log.start) := by
  have htake := congrArg (List.take (address - log.start)) h.onDisk
  rwa [← List.drop_take, List.take_take, List.take_take, Nat.min_eq_left ha,
    Nat.min_eq_left (by omega)] at htake

theorem drop_content (h : log.Holds disk bytes) {address : Nat} (hs : log.start ≤ address)
    (hf : address ≤ log.flushed) :
    (disk.content log.file).drop address =
      (bytes.take (log.flushed - log.start)).drop (address - log.start) ++
        (disk.content log.file).drop log.flushed := by
  have hc := List.take_append_drop log.flushed (disk.content log.file)
  have hl : address ≤ ((disk.content log.file).take log.flushed).length := by
    rw [List.length_take, Nat.min_eq_left h.reaches]
    exact hf
  have hd : log.start + (address - log.start) = address := by omega
  conv => lhs; rw [← hc]
  rw [List.drop_append_of_le_length hl, ← h.onDisk, List.drop_drop, hd]

end Holds

def bytes (log : Log) (disk : Disk) : Bytes :=
  ((disk.content log.file).take log.head).drop log.start ++ log.buffer

theorem Holds.bytes_eq {log : Log} {disk : Disk} {bytes : Bytes} (h : log.Holds disk bytes) :
    log.bytes disk = bytes := by
  rw [Log.bytes, h.onDisk_below h.head_le, h.buffer_eq, List.take_append_drop]

theorem restore_ok {log restored : Log} {disk other : Disk} {start tail : Nat}
    (h : log.restore start tail disk = .ok (restored, other)) :
    tail ≤ (disk.content log.file).length ∧ other = disk.setLength log.file tail ∧
      restored = { log with start, head := tail, flushed := tail, tail, buffer := [] } := by
  rw [restore] at h
  split at h
  · cases h
  · rename_i hl
    obtain ⟨rfl, rfl⟩ := Prod.mk.inj (Except.ok.inj h)
    exact ⟨Nat.le_of_not_lt hl, rfl, rfl⟩

theorem restore_of_le {log : Log} {disk : Disk} (start : Nat) {tail : Nat}
    (h : tail ≤ (disk.content log.file).length) :
    log.restore start tail disk =
      .ok ({ log with start, head := tail, flushed := tail, tail, buffer := [] },
        disk.setLength log.file tail) := if_neg (Nat.not_lt.mpr h)

/-- A restored log stands for the part of its file that it was restored to. -/
theorem holds_restore {log restored : Log} {disk other : Disk} {start tail : Nat}
    (hr : log.file < disk.files.length) (hs : start ≤ tail)
    (h : log.restore start tail disk = .ok (restored, other)) :
    restored.Holds other (((disk.content log.file).take tail).drop start) := by
  obtain ⟨hl, rfl, rfl⟩ := restore_ok h
  have hlen : (((disk.content log.file).take tail).drop start).length = tail - start := by
    rw [List.length_drop, List.length_take, Nat.min_eq_left hl]
  have hc : (disk.setLength log.file tail).content log.file = (disk.content log.file).take tail := by
    rw [Disk.setLength, Disk.content_setContent hr, Bytes.resize, Nat.sub_eq_zero_of_le hl,
      List.replicate_zero, List.append_nil]
  refine ⟨?_, hs, Nat.le_refl _, Nat.le_refl _, ?_, ?_, ?_, ?_⟩
  · rw [Disk.setLength, Disk.length_setContent]
    exact hr
  · rw [hlen]
    show tail = start + (tail - start)
    omega
  · exact (List.drop_of_length_le (Nat.le_of_eq hlen)).symm
  · apply Nat.le_of_eq
    rw [hc, List.length_take, Nat.min_eq_left hl]
  · show (((disk.setLength log.file tail).content log.file).take tail).drop start = _
    rw [hc, List.take_take, Nat.min_self]
    exact (List.take_of_length_le (Nat.le_of_eq hlen)).symm

theorem holds_empty {file : FileId} {path : Path} {disk : Disk} (hr : file < disk.files.length)
    (hl : origin ≤ (disk.content file).length) : (empty file path).Holds disk [] where
  inRange := hr
  start_le := Nat.le_refl _
  head_le := Nat.le_refl _
  flushed_le := Nat.le_refl _
  tail_eq := rfl
  buffer_eq := rfl
  reaches := hl
  onDisk := by
    show ((disk.content file).take origin).drop origin = [].take (origin - origin)
    rw [List.take_nil]
    apply List.drop_of_length_le
    rw [List.length_take]
    exact Nat.min_le_left _ _

theorem holds_open {dir : Path} {disk other : Disk} {log : Log} (hw : disk.WellFormed)
    (h : Log.open? dir disk = (.ok log, other)) :
    ∃ place, Disk.Homed disk dir place ∧ log = empty log.file (dir.child fileName) ∧
      log.Holds other [] ∧ other.entry? (place ++ [fileName]) = some (.file log.file) ∧
      Disk.Spares (· ≠ place ++ [fileName]) disk other := by
  have hn : Path.Plain fileName := by decide
  rw [open?] at h
  split at h
  · cases h
  · rename_i file opened ho
    obtain ⟨place, hd, he, hs⟩ := Disk.openFile_ok hw hn ho
    have hr := hs.wellFormed.inRange _ _ he
    refine ⟨place, hd, ?_⟩
    split at h
    · rename_i hl
      obtain ⟨hlog, rfl⟩ := Prod.mk.inj h
      obtain rfl := Except.ok.inj hlog
      have hc : (opened.write file 0 header).content file =
          header ++ (opened.content file).drop origin := by
        rw [Disk.write, Disk.content_setContent hr, Bytes.overwrite_inside (Nat.zero_le _)]
        simp [header]
      have hw := Disk.writesOnly_setContent opened file ((opened.content file).overwrite 0 header)
      have hlen : origin ≤ ((opened.write file 0 header).content file).length := by
        rw [hc, List.length_append, header, Bytes.length_resize]
        exact Nat.le_add_right _ _
      refine ⟨rfl, holds_empty ?_ hlen, ?_, ?_⟩
      · rw [Disk.write, Disk.length_setContent]
        exact hr
      · exact he
      · exact (hs.weaken fun _ _ => trivial).trans (hw.spares hs.wellFormed he)
    · rename_i hl
      split at h
      · obtain ⟨hlog, rfl⟩ := Prod.mk.inj h
        obtain rfl := Except.ok.inj hlog
        exact ⟨rfl, holds_empty hr (Nat.le_of_not_lt hl), he, hs.weaken fun _ _ => trivial⟩
      · cases h

end Log

end PredicateIndex
