import PredicateIndex.Proofs.Reopening
import PredicateIndex.Proofs.StoreRun

/-!
# Completing checkpoints

Completing a captured checkpoint succeeds: it flushes the log if the log is a
part, and then just the captured parts are in the checkpoint directory beside
those that were. No operation of a store hinders the next opening.
-/

set_option autoImplicit false

namespace PredicateIndex

open CheckpointDir

def CheckpointDir.replaced (written : Option (Token × Bytes)) (token : Token) (old : Option Bytes) :
    Option Bytes :=
  match written with
  | some (owner, payload) => if token = owner then some (Frame.wrap payload) else old
  | none => old

/-- Writing a part succeeds, puts it into its file and leaves the other files of checkpoints alone. -/
theorem CheckpointDir.Tidy.writePart_ok {disk : Disk} {dir place : Path} {name : String}
    (ht : Tidy disk place) (hw : disk.WellFormed) (hd : Disk.Homed disk dir place)
    (hn : name ∈ partFiles) (part : Option (Token × Bytes)) :
    ∃ other, writePart dir name part disk = (.ok (), other) ∧ Tidy other place ∧
      (∀ token, part? other place token name = replaced part token (part? disk place token name)) ∧
      ∀ last ∈ partFiles, last ≠ name → ∀ token,
        part? other place token last = part? disk place token last := by
  rcases part with _ | ⟨owner, payload⟩
  · exact ⟨disk, rfl, ht, fun _ => rfl, fun _ _ _ _ => rfl⟩
  · obtain ⟨hplain, hdraft⟩ := plain_partFiles name hn
    obtain ⟨other, hwrite, htidy, hparts⟩ := ht.write_ok hw hd owner hplain hdraft payload
    refine ⟨other, hwrite, htidy, fun token => ?_, fun last hl hne token => ?_⟩
    · simp [hparts token name (ne_draftFile name hn name hn), replaced]
    · rw [hparts token last (ne_draftFile name hn last hl), if_neg fun hc => hne hc.2]

namespace Log

variable {log : Log} {disk : Disk} {bytes : Bytes}

theorem Holds.signed_write (h : log.Holds disk bytes) (ho : log.start = origin)
    (hs : Signed disk log.file) (patch : Bytes) :
    Signed (disk.write log.file log.flushed patch) log.file := by
  have hl : signature.length ≤ log.flushed := by
    have hstart := h.start_le
    have hhead := h.head_le
    rw [length_signature]
    rw [ho, origin] at hstart
    omega
  rw [Signed] at hs ⊢
  rw [Disk.write, Disk.content_setContent h.inRange, Bytes.overwrite_inside h.reaches,
    List.take_append_of_le_length, List.take_take, Nat.min_eq_left hl, hs]
  rw [List.length_take]
  have hr := h.reaches
  omega

theorem Holds.signed_flush (h : log.Holds disk bytes) (ho : log.start = origin)
    (hs : Signed disk log.file) : Signed (log.flush disk).2 log.file := by
  rw [Log.flush]
  split
  · exact h.signed_write ho hs _
  · exact hs

end Log

namespace Store

variable {store : Store} {disk : Disk} {place : Path} {history : List LogRecord}

theorem Tends.congr {same : Store} (h : store.Tends disk place) (hl : same.lock = store.lock)
    (hf : same.log.file = store.log.file) : same.Tends disk place :=
  ⟨h.tidy, hl ▸ h.lock, hf ▸ h.signed⟩

theorem Tends.writes {other : Disk} (h : store.Tends disk place)
    (hl : store.Logs disk place history) (hw : Disk.WritesOnly store.log.file disk other)
    (hs : Log.Signed other store.log.file) :
    store.Tends other place ∧
      ∀ token name, part? other place token name = part? disk place token name := by
  have hchange := hw.changesOnly hl.wellFormed hl.entry
  refine ⟨⟨h.tidy.frame hchange (rootPlace_ne_log place), ?_, hs⟩,
    part?_frame hchange (rootPlace_ne_log place)⟩
  exact (hchange.entry _ (lock_ne_log place)).trans h.lock

theorem Tends.flush (h : store.Tends disk place) (hl : store.Logs disk place history) :
    (store.flush disk).1.Tends (store.flush disk).2 place ∧
      ∀ token name, part? (store.flush disk).2 place token name = part? disk place token name := by
  obtain ⟨ht, hp⟩ := h.writes hl (Log.Holds.writesOnly_flush store.log disk)
    (hl.holds.signed_flush hl.start h.signed)
  refine ⟨?_, hp⟩
  rw [flush_eq, hl.holds.flush_log]
  exact ht.congr rfl rfl

theorem Tends.evict (h : store.Tends disk place) (hl : store.Logs disk place history) :
    (store.evict disk).1.Tends (store.evict disk).2 place ∧
      ∀ token name, part? (store.evict disk).2 place token name = part? disk place token name := by
  obtain ⟨ht, hp⟩ := h.flush hl
  have hflush := hl.holds.flush_log
  have hevict := hl.holds.evict_log
  rw [flush_eq, hflush] at ht
  refine ⟨?_, hp⟩
  rw [evict_eq, hevict]
  exact ht.congr rfl rfl

/-- Only completing a checkpoint writes parts. -/
theorem Tends.step (h : store.Tends disk place) (hl : store.Logs disk place history) {op : Op}
    (ho : op ≠ .complete) :
    (Store.step op (store, disk)).1.Tends (Store.step op (store, disk)).2 place ∧
      ∀ token name, part? (Store.step op (store, disk)).2 place token name =
        part? disk place token name := by
  have hd := does_step op store disk
  generalize Store.step op (store, disk) = after at hd ⊢
  cases hd with
  | @written session key id tombstone =>
    have hw := hl.write key id tombstone
    have ht : (store.write key id tombstone).Tends disk place := h.congr rfl rfl
    rw [evictIfFull]
    split
    · exact ht.evict hw
    · exact ⟨ht, fun _ _ => rfl⟩
  | flush => exact h.flush hl
  | evict => exact h.evict hl
  | complete => exact (ho rfl).elim
  | _ => exact ⟨h.congr rfl rfl, fun _ _ => rfl⟩

structure Foreign (name : String) : Prop where
  lock : ∀ place, Apart name (place ++ [lockFile])
  log : ∀ place, Apart name (place ++ [Log.fileName])

theorem foreign_partFiles : ∀ name ∈ partFiles, Foreign name := by
  intro name hn
  have hlock : ∀ name ∈ partFiles, lockFile ≠ name ∧ lockFile ≠ draftFile name := by decide
  exact ⟨apart_snoc (hlock name hn).1 (hlock name hn).2, fun place => apart_log place name hn⟩

theorem Tends.spared {other : Disk} {name : String} (h : store.Tends disk place)
    (hl : store.Logs disk place history) (hn : Foreign name)
    (hs : Disk.Spares (Apart name) disk other) (ht : Tidy other place) :
    store.Tends other place := by
  refine ⟨ht, (hs.file _ _ (hn.lock place) h.lock).1, ?_⟩
  rw [Log.Signed, (hs.file _ _ (hn.log place) hl.entry).2]
  exact h.signed

theorem Tends.writePart {name : String} {part : Option (Token × Bytes)} {other : Disk}
    (h : store.Tends disk place) (hl : store.Logs disk place history) (hn : name ∈ partFiles)
    (hw : writePart store.dir name part disk = (.ok (), other)) (ht : Tidy other place) :
    store.Tends other place ∧ store.Logs other place history := by
  have hspares := spares_writePart store.dir hn part hl.wellFormed
  rw [hw] at hspares
  exact ⟨h.spared hl (foreign_partFiles name hn) hspares ht,
    hl.frame hspares (apart_log place name hn)⟩

theorem complete_none (hc : store.captured = none) (disk : Disk) :
    store.complete disk = (.ok none, store, disk) := by
  rw [complete, hc]

theorem Tends.beforeParts (h : store.Tends disk place) (hl : store.Logs disk place history)
    (captured : CapturedCheckpoint) :
    Tends (store.beforeParts captured disk).1 (store.beforeParts captured disk).2 place ∧
      Logs (store.beforeParts captured disk).1 (store.beforeParts captured disk).2 place history ∧
      (∀ token name, part? (store.beforeParts captured disk).2 place token name =
        part? disk place token name) ∧
      (store.beforeParts captured disk).1 = { store with
        log := if captured.log.isSome then { store.log with flushed := store.log.tail }
          else store.log } := by
  rw [Store.beforeParts]
  split
  · rename_i hsome
    obtain ⟨htends, hparts⟩ := h.flush hl
    refine ⟨htends, hl.flush, hparts, ?_⟩
    rw [flush_eq, hl.holds.flush_log]
  · exact ⟨h, hl, fun _ _ => rfl, rfl⟩

theorem complete_of_parts {captured : CapturedCheckpoint} (hc : store.captured = some captured)
    {flushed : Store} {opened second third : Disk}
    (hf : store.beforeParts captured disk = (flushed, opened))
    (hi : writePart flushed.dir indexFile (captured.index.map IndexCheckpoint.part) opened =
      (.ok (), second))
    (hl : writePart flushed.dir logFile (captured.log.map LogCheckpoint.part) second =
      (.ok (), third)) :
    store.complete disk = (.ok (some captured.token),
      { flushed with captured := none, lastCheckpoint := some captured.token }, third) := by
  rw [Store.beforeParts] at hf
  rw [Store.complete, hc]
  simp only [hf, hi, hl]

/-- Completing a checkpoint that has been captured succeeds. -/
theorem Tends.complete_ok {captured : CapturedCheckpoint} (h : store.Tends disk place)
    (hl : store.Logs disk place history) (hc : store.captured = some captured) :
    ∃ other, store.complete disk = (.ok (some captured.token),
        { store with
          log := if captured.log.isSome then { store.log with flushed := store.log.tail }
            else store.log
          captured := none, lastCheckpoint := some captured.token }, other) ∧
      Tends (store.complete disk).2.1 other place ∧
      (∀ token, part? other place token indexFile =
        replaced (captured.index.map IndexCheckpoint.part) token (part? disk place token indexFile)) ∧
      ∀ token, part? other place token logFile =
        replaced (captured.log.map LogCheckpoint.part) token (part? disk place token logFile) := by
  obtain ⟨htends, hlogs, hparts, hsame⟩ := h.beforeParts hl captured
  cases hf : store.beforeParts captured disk with
  | mk flushed opened =>
    rw [hf] at htends hlogs hparts hsame
    dsimp only at htends hlogs hparts hsame
    obtain ⟨second, hsecond, htidy, hindex, hkept⟩ := htends.tidy.writePart_ok hlogs.wellFormed
      hlogs.homed indexFile_mem (captured.index.map IndexCheckpoint.part)
    obtain ⟨htends', hlogs'⟩ := htends.writePart hlogs indexFile_mem hsecond htidy
    obtain ⟨third, hthird, hlast, hlog, hindexKept⟩ := htidy.writePart_ok hlogs'.wellFormed
      hlogs'.homed logFile_mem (captured.log.map LogCheckpoint.part)
    obtain ⟨htends'', -⟩ := htends'.writePart hlogs' logFile_mem hthird hlast
    have hcomplete := complete_of_parts hc hf hsecond hthird
    refine ⟨third, by rw [hcomplete, hsame], ?_, fun token => ?_, fun token => ?_⟩
    · rw [hcomplete]
      exact htends''.congr rfl rfl
    · rw [hindexKept indexFile indexFile_mem (by decide), hindex, hparts]
    · rw [hlog, hkept logFile logFile_mem (by decide), hparts]

end Store

end PredicateIndex
