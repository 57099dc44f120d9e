import PredicateIndex.Proofs.LogContents

/-!
# Runs of a log

Whatever is done with a log, it stands for one array of bytes, the first of
which has the address of the first record. Appending extends the array and
restoring cuts it off behind the new tail; flushing and evicting only move the
borders between the bytes on disk and those in memory.
-/

set_option autoImplicit false

namespace PredicateIndex

namespace Log

inductive Act where
  | append (bytes : Bytes)
  | flush
  | evict
  | restore (start tail : Nat)
  deriving DecidableEq, Repr

def act (log : Log) (disk : Disk) : Act → Log × Disk
  | .append bytes => (log.append bytes, disk)
  | .flush => log.flush disk
  | .evict => log.evict disk
  | .restore start tail =>
    match log.restore start tail disk with
    | .ok restored => restored
    | .error _ => (log, disk)

def run : List Act → Log → Disk → Log × Disk
  | [], log, disk => (log, disk)
  | act :: acts, log, disk => run acts (log.act disk act).1 (log.act disk act).2

def Act.Within (log : Log) : Act → Prop
  | .restore start tail => origin ≤ start ∧ start ≤ tail ∧ tail ≤ log.flushed
  | _ => True

instance Act.decidableWithin (log : Log) : (act : Act) → Decidable (act.Within log)
  | .restore start tail =>
    inferInstanceAs (Decidable (origin ≤ start ∧ start ≤ tail ∧ tail ≤ log.flushed))
  | .append _ | .flush | .evict => isTrue trivial

def Within : List Act → Log → Disk → Prop
  | [], _, _ => True
  | act :: acts, log, disk =>
    act.Within log ∧ Within acts (log.act disk act).1 (log.act disk act).2

instance decidableWithin : (acts : List Act) → (log : Log) → (disk : Disk) →
    Decidable (Within acts log disk)
  | [], _, _ => isTrue trivial
  | act :: acts, log, disk =>
    have := decidableWithin acts (log.act disk act).1 (log.act disk act).2
    inferInstanceAs (Decidable (act.Within log ∧
      Within acts (log.act disk act).1 (log.act disk act).2))

/-- An array of bytes with addresses from the first one on, of which those from `start` on count. -/
structure Contents where
  start : Nat := origin
  bytes : Bytes := []
  deriving DecidableEq, Repr

namespace Contents

def tail (contents : Contents) : Nat := origin + contents.bytes.length

def part (contents : Contents) (first last : Nat) : Bytes :=
  (contents.bytes.take (last - origin)).drop (first - origin)

def act (contents : Contents) : Act → Contents
  | .append more => { contents with bytes := contents.bytes ++ more }
  | .restore start tail => ⟨start, contents.bytes.take (tail - origin)⟩
  | .flush | .evict => contents

def run (acts : List Act) (contents : Contents) : Contents := acts.foldl act contents

theorem length_part (contents : Contents) {first last : Nat} (h : last ≤ contents.tail) :
    (contents.part first last).length = last - origin - (first - origin) := by
  rw [tail] at h
  rw [part, List.length_drop, List.length_take, Nat.min_eq_left (by omega)]

end Contents

structure Refines (log : Log) (disk : Disk) (contents : Contents) : Prop where
  holds : ({ log with start := origin } : Log).Holds disk contents.bytes
  start_eq : log.start = contents.start
  origin_le : origin ≤ log.start
  start_le : log.start ≤ log.head

theorem flush_moves (log : Log) (disk : Disk) :
    ∃ flushed, (log.flush disk).1 = { log with flushed } := by
  rw [flush]
  split
  · exact ⟨log.tail, rfl⟩
  · exact ⟨log.flushed, rfl⟩

theorem evict_moves (log : Log) (disk : Disk) :
    ∃ flushed, log.evict disk =
      ({ log with flushed, head := log.tail, buffer := [] }, (log.flush disk).2) := by
  obtain ⟨flushed, hl⟩ := flush_moves log disk
  rw [evict]
  cases hs : log.flush disk with
  | mk moved other =>
    rw [hs] at hl
    obtain rfl : moved = _ := hl
    exact ⟨flushed, rfl⟩

namespace Refines

variable {log restored : Log} {disk other : Disk} {contents : Contents}

theorem ofHolds (h : log.Holds disk []) (hs : log.start = origin) : log.Refines disk {} where
  holds := by
    rw [← hs]
    exact h
  start_eq := hs
  origin_le := Nat.le_of_eq hs.symm
  start_le := h.start_le

theorem append (h : log.Refines disk contents) (more : Bytes) :
    (log.append more).Refines disk (contents.act (.append more)) :=
  ⟨h.holds.append more, h.start_eq, h.origin_le, h.start_le⟩

theorem flush_start (log : Log) (start : Nat) (disk : Disk) :
    ({ log with start } : Log).flush disk =
      ({ (log.flush disk).1 with start }, (log.flush disk).2) := by
  rw [Log.flush, Log.flush]
  split <;> rfl

theorem evict_start (log : Log) (start : Nat) (disk : Disk) :
    ({ log with start } : Log).evict disk =
      ({ (log.evict disk).1 with start }, (log.evict disk).2) := by
  rw [Log.evict, Log.evict, flush_start]

theorem flush (h : log.Refines disk contents) :
    (log.flush disk).1.Refines (log.flush disk).2 contents := by
  have hf := h.holds.flush
  obtain ⟨flushed, hl⟩ := flush_moves log disk
  rw [flush_start, hl] at hf
  rw [hl]
  exact ⟨hf, h.start_eq, h.origin_le, h.start_le⟩

theorem evict (h : log.Refines disk contents) :
    (log.evict disk).1.Refines (log.evict disk).2 contents := by
  have he := h.holds.evict
  have hs := h.start_le
  have hh := h.holds.head_le
  have hf := h.holds.flushed_le
  obtain ⟨flushed, hl⟩ := evict_moves log disk
  rw [evict_start, hl] at he
  rw [hl]
  exact ⟨he, h.start_eq, h.origin_le, Nat.le_trans hs (Nat.le_trans hh hf)⟩

/-- What has been flushed is still in the file, so the log can be restored to a part of it. -/
theorem restore_within (h : log.Refines disk contents) {start tail : Nat}
    (ha : (Act.restore start tail).Within log) :
    ∃ restored other, log.restore start tail disk = .ok (restored, other) ∧
      restored.Refines other (contents.act (.restore start tail)) := by
  obtain ⟨hstart, htail, hflushed⟩ := ha
  have hlength : tail ≤ (disk.content log.file).length := Nat.le_trans hflushed h.holds.reaches
  have hbytes : ((disk.content log.file).take tail).drop origin =
      contents.bytes.take (tail - origin) := h.holds.onDisk_below hflushed
  have hwhole : ({ log with start := origin } : Log).restore origin tail disk = .ok _ :=
    restore_of_le origin hlength
  have hr := holds_restore h.holds.inRange (Nat.le_trans hstart htail) hwhole
  rw [hbytes] at hr
  exact ⟨_, _, restore_of_le start hlength, ⟨hr, rfl, hstart, htail⟩⟩

theorem act (h : log.Refines disk contents) {act : Act} (ha : act.Within log) :
    (log.act disk act).1.Refines (log.act disk act).2 (contents.act act) := by
  cases act with
  | append more => exact h.append more
  | flush => exact h.flush
  | evict => exact h.evict
  | restore start tail =>
    obtain ⟨restored, other, hr, hrefines⟩ := h.restore_within ha
    rw [Log.act, hr]
    exact hrefines

theorem run (h : log.Refines disk contents) {acts : List Act} (ha : Within acts log disk) :
    (Log.run acts log disk).1.Refines (Log.run acts log disk).2 (contents.run acts) := by
  induction acts generalizing log disk contents with
  | nil => exact h
  | cons act acts ih => exact ih (h.act ha.1) ha.2

theorem ordered (h : log.Refines disk contents) :
    origin ≤ log.start ∧ log.start ≤ log.head ∧ log.head ≤ log.flushed ∧ log.flushed ≤ log.tail :=
  ⟨h.origin_le, h.start_le, h.holds.head_le, h.holds.flushed_le⟩

theorem tail_eq (h : log.Refines disk contents) : log.tail = contents.tail := h.holds.tail_eq

theorem buffer_eq (h : log.Refines disk contents) :
    log.buffer = contents.part log.head log.tail := by
  rw [h.tail_eq, Contents.part, Contents.tail, Nat.add_sub_cancel_left, List.take_length]
  exact h.holds.buffer_eq

theorem onDisk_eq (h : log.Refines disk contents) :
    ((disk.content log.file).take log.flushed).drop log.start =
      contents.part log.start log.flushed := by
  have hd : origin + (log.start - origin) = log.start := by
    have ho := h.origin_le
    omega
  have hdisk : ((disk.content log.file).take log.flushed).drop origin =
      contents.bytes.take (log.flushed - origin) := h.holds.onDisk
  rw [Contents.part, ← hdisk, List.drop_drop, hd]

theorem resident_eq (h : log.Refines disk contents) (address : Nat) :
    log.resident address =
      if address < log.start ∨ log.tail ≤ address then .error (.addressOutOfRange address)
      else if address < log.head then .ok none
      else .ok (some (contents.part address log.tail)) := by
  have ho := h.origin_le
  have hs := h.start_le
  rw [resident]
  split
  · rfl
  · split
    · rfl
    · have hd : log.head - origin + (address - log.head) = address - origin := by omega
      rw [h.buffer_eq, Contents.part, List.drop_drop, hd, Contents.part]

end Refines

theorem act_frame (log : Log) (disk : Disk) (act : Act) :
    (log.act disk act).1.file = log.file ∧ (log.act disk act).1.path = log.path ∧
      Disk.WritesOnly log.file disk (log.act disk act).2 := by
  cases act with
  | append more => exact ⟨rfl, rfl, .refl log.file disk⟩
  | flush =>
    obtain ⟨flushed, hl⟩ := flush_moves log disk
    rw [Log.act, hl]
    exact ⟨rfl, rfl, Holds.writesOnly_flush log disk⟩
  | evict =>
    obtain ⟨flushed, hl⟩ := evict_moves log disk
    rw [Log.act, hl]
    exact ⟨rfl, rfl, Holds.writesOnly_evict log disk⟩
  | restore start tail =>
    rw [Log.act]
    split
    · rename_i restored hr
      obtain ⟨restored, other⟩ := restored
      obtain ⟨-, rfl, rfl⟩ := restore_ok hr
      exact ⟨rfl, rfl, Disk.writesOnly_setContent disk log.file _⟩
    · exact ⟨rfl, rfl, .refl log.file disk⟩

theorem run_frame (acts : List Act) (log : Log) (disk : Disk) :
    (run acts log disk).1.file = log.file ∧ (run acts log disk).1.path = log.path ∧
      Disk.WritesOnly log.file disk (run acts log disk).2 := by
  induction acts generalizing log disk with
  | nil => exact ⟨rfl, rfl, .refl log.file disk⟩
  | cons act acts ih =>
    obtain ⟨hfile, hpath, hwrites⟩ := log.act_frame disk act
    obtain ⟨hlast, hthere, hmore⟩ := ih (log.act disk act).1 (log.act disk act).2
    rw [hfile] at hmore
    exact ⟨hlast.trans hfile, hthere.trans hpath, hwrites.trans hmore⟩

/-- After any run of an opened log, the addresses are in order, memory holds the bytes from the
head to the tail, and the file holds those that have been flushed: both of the one array that the
run made. Reading from memory is refused exactly outside of the log and finds nothing exactly
below the head; a restoration to a part of what has been flushed succeeds. -/
theorem run_refines {dir : Path} {disk opened after : Disk} {log last : Log} {acts : List Act}
    (hw : disk.WellFormed) (ho : open? dir disk = (.ok log, opened))
    (ha : Within acts log opened) (hr : run acts log opened = (last, after)) :
    (origin ≤ last.start ∧ last.start ≤ last.head ∧ last.head ≤ last.flushed ∧
      last.flushed ≤ last.tail) ∧
    (last.start = (Contents.run acts {}).start ∧ last.tail = (Contents.run acts {}).tail) ∧
    (last.buffer = (Contents.run acts {}).part last.head last.tail ∧
      last.head + last.buffer.length = last.tail) ∧
    (∃ content, after.read (dir.child fileName) = .ok content ∧
      last.flushed ≤ content.length ∧
      (content.take last.flushed).drop last.start =
        (Contents.run acts {}).part last.start last.flushed) ∧
    (∀ address, (∃ fault, last.resident address = .error fault) ↔
      address < last.start ∨ last.tail ≤ address) ∧
    (∀ address, last.resident address = .ok none ↔
      last.start ≤ address ∧ address < last.head) ∧
    (∀ address, last.head ≤ address → address < last.tail →
      last.resident address = .ok (some ((Contents.run acts {}).part address last.tail))) ∧
    ∀ start tail, (Act.restore start tail).Within last →
      ∃ restored, last.restore start tail after = .ok restored := by
  obtain ⟨place, hhome, hempty, hholds, hentry, hspares⟩ := holds_open hw ho
  have hrun := (Refines.ofHolds hholds (by rw [hempty]; rfl)).run ha
  have hframe := run_frame acts log opened
  rw [hr] at hrun hframe
  have hrefines : last.Refines after (Contents.run acts {}) := hrun
  obtain ⟨hfile, hwrites⟩ : last.file = log.file ∧ Disk.WritesOnly log.file opened after :=
    ⟨hframe.1, hframe.2.2⟩
  obtain ⟨hstart, hhead, hflushed, htail⟩ := hrefines.ordered
  have hlength := hrefines.tail_eq
  refine ⟨⟨hstart, hhead, hflushed, htail⟩, ⟨hrefines.start_eq, hlength⟩,
    ⟨hrefines.buffer_eq, ?_⟩, ⟨after.content log.file, ?_, ?_, ?_⟩, fun address => ?_,
    fun address => ?_, fun address hle hlt => ?_, fun start tail hwithin => ?_⟩
  · rw [hrefines.buffer_eq, Contents.length_part _ (Nat.le_of_eq hlength)]
    omega
  · have hthere : after.entry? (place ++ [fileName]) = some (.file log.file) := by
      rw [hwrites.entry?_eq]
      exact hentry
    have hopened := (hhome.mono hspares.directory).mono fun p hp => by rw [hwrites.entry?_eq, hp]
    exact hopened.read_child (by decide) hthere
  · rw [← hfile]
    exact hrefines.holds.reaches
  · rw [← hfile]
    exact hrefines.onDisk_eq
  · rw [hrefines.resident_eq]
    split <;> rename_i h
    · exact iff_of_true ⟨_, rfl⟩ h
    · refine iff_of_false ?_ h
      rintro ⟨fault, hf⟩
      split at hf <;> cases hf
  · rw [hrefines.resident_eq]
    split
    · exact iff_of_false (by simp) (by omega)
    · split
      · exact iff_of_true rfl (by omega)
      · exact iff_of_false (by simp) (by omega)
  · rw [hrefines.resident_eq, if_neg (by omega), if_neg (by omega)]
  · obtain ⟨restored, other, hok, -⟩ := hrefines.restore_within hwithin
    exact ⟨_, hok⟩

def earlierRun : Disk :=
  { entries := [([fileName], .file 0)], files := [header ++ [1, 2, 3, 4, 5, 6]] }

theorem wellFormed_earlierRun : earlierRun.WellFormed := by
  have honly : ∀ p id, earlierRun.entry? p = some (.file id) → p = [fileName] ∧ id = 0 := by
    intro p id h
    rw [ Disk.entry?] at h
    split at h
    · cases h
    · rw [earlierRun, Lookup.cons_eq] at h
      split at h
      · rename_i hp
        exact ⟨hp, (Entry.file.inj (Option.some.inj h)).symm⟩
      · cases h
  refine ⟨fun p id h => ?_, fun p q id h hq => ?_, List.nodup_nil⟩
  · rw [(honly p id h).2]
    exact Nat.one_pos
  · exact (honly p id h).1.trans (honly q id hq).1.symm

def cutBack : List Act :=
  [.append [7, 8], .flush, .append [9], .evict, .append [10, 11], .restore 65 66, .append [12]]

/-- Over the bytes of an earlier run: the bytes that were cut off and the earlier ones are gone. -/
theorem run_refines_cut_back : ∃ last after content,
    open? [] earlierRun = (.ok (empty 0 [fileName]), earlierRun) ∧
    Within cutBack (empty 0 [fileName]) earlierRun ∧
    run cutBack (empty 0 [fileName]) earlierRun = (last, after) ∧
    last.start = 65 ∧ last.tail = 67 ∧ last.buffer = [12] ∧
    after.read [fileName] = .ok content ∧ (content.take last.flushed).drop last.start = [8] ∧
    last.resident 65 = .ok none ∧ last.resident 66 = .ok (some [12]) ∧
    ∃ fault, last.resident 67 = .error fault := by
  have hopen : open? [] earlierRun = (.ok (empty 0 [fileName]), earlierRun) := by rfl
  have hwithin : Within cutBack (empty 0 [fileName]) earlierRun := by decide +kernel
  obtain ⟨last, after, hr⟩ : ∃ last after,
      run cutBack (empty 0 [fileName]) earlierRun = (last, after) := ⟨_, _, rfl⟩
  have hborders : (run cutBack (empty 0 [fileName]) earlierRun).1.head = 66 ∧
      (run cutBack (empty 0 [fileName]) earlierRun).1.flushed = 66 := by decide +kernel
  rw [hr] at hborders
  obtain ⟨hhead, hflushed⟩ : last.head = 66 ∧ last.flushed = 66 := hborders
  have hcontents : Contents.run cutBack {} = ⟨65, [7, 8, 12]⟩ := rfl
  obtain ⟨-, ⟨hstart, htail⟩, ⟨hbuffer, -⟩, ⟨content, hread, -, hdisk⟩, hrefused, hevicted,
    hresident, -⟩ := run_refines wellFormed_earlierRun hopen hwithin hr
  rw [hcontents] at hstart htail hbuffer hdisk hresident
  have hstart : last.start = 65 := hstart
  have htail : last.tail = 67 := htail
  rw [hhead, htail] at hbuffer
  have hkept : (content.take last.flushed).drop last.start = [8] := by
    rw [hdisk, hstart, hflushed]
    rfl
  have hlast := hresident 66 (by omega) (by omega)
  rw [htail] at hlast
  exact ⟨last, after, content, hopen, hwithin, hr, hstart, htail, hbuffer, hread, hkept,
    (hevicted 65).mpr (by omega), hlast, (hrefused 67).mpr (by omega)⟩

end Log

end PredicateIndex
