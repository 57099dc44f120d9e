import PredicateIndex.Checkpoint.Directory
import PredicateIndex.Proofs.DiskChanges

/-!
# The files of checkpoints

Writing a part of a checkpoint makes directories, writes a draft and renames it.
So it spares every file whose name is neither the part's nor the draft's.
-/

set_option autoImplicit false

namespace PredicateIndex

namespace Disk

variable {disk other : Disk} {source target origin place : Path} {entry : Entry}

theorem rename_eq (hs : disk.locate source = .ok (origin, entry))
    (ht : disk.resolve target = .ok place)
    (hd : disk.entry? place ≠ some .directory) :
    disk.rename source target =
      .ok { disk with
        entries := (place, entry) :: disk.entries.filter fun e => e.1 ≠ origin ∧ e.1 ≠ place } := by
  simp only [rename, hs, ht, bind, Except.bind, hd, if_false]
  rfl

theorem entry?_rename (ho : origin ≠ []) (hp : place ≠ []) (p : Path) :
    entry? { disk with
        entries := (place, entry) :: disk.entries.filter fun e => e.1 ≠ origin ∧ e.1 ≠ place } p =
      if p = place then some entry else if p = origin then none else disk.entry? p := by
  rw [ entry?, entry?]
  by_cases hr : p = []
  · subst hr
    simp [hp.symm, ho.symm]
  · rw [if_neg hr, if_neg hr, Lookup.cons_eq]
    by_cases hplace : p = place
    · rw [if_pos hplace, if_pos hplace]
    · have hf := Lookup.filter_eq disk.entries (fun q => decide (q ≠ origin ∧ q ≠ place)) p
      rw [if_neg hplace, if_neg hplace, hf]
      by_cases horigin : p = origin <;> simp [horigin, hplace]

theorem spares_rename (hw : disk.WellFormed) (ho : origin ≠ []) (hp : place ≠ []) {id : FileId}
    (he : disk.entry? origin = some (.file id)) (hd : disk.entry? place ≠ some .directory) :
    Spares (fun p => p ≠ origin ∧ p ≠ place) disk { disk with
      entries := (place, .file id) :: disk.entries.filter fun e => e.1 ≠ origin ∧
        e.1 ≠ place } where
  wellFormed := by
    refine ⟨fun p i hi => ?_, fun p q i hi hq => ?_, hw.locks⟩
    · rw [entry?_rename ho hp] at hi
      split at hi
      · obtain rfl := Entry.file.inj (Option.some.inj hi)
        exact hw.inRange _ _ he
      · split at hi
        · cases hi
        · exact hw.inRange p i hi
    · rw [entry?_rename ho hp] at hi hq
      by_cases hpp : p = place <;> by_cases hqp : q = place
      · rw [hpp, hqp]
      · rw [if_pos hpp] at hi
        rw [if_neg hqp] at hq
        obtain rfl := Entry.file.inj (Option.some.inj hi)
        split at hq
        · cases hq
        · rename_i hqo
          exact (hqo (hw.separate q origin _ hq he)).elim
      · rw [if_neg hpp] at hi
        rw [if_pos hqp] at hq
        obtain rfl := Entry.file.inj (Option.some.inj hq)
        split at hi
        · cases hi
        · rename_i hpo
          exact (hpo (hw.separate p origin _ hi he)).elim
      · rw [if_neg hpp] at hi
        rw [if_neg hqp] at hq
        split at hi
        · cases hi
        · split at hq
          · cases hq
          · exact hw.separate p q i hi hq
  directory p h := by
    have hplace : p ≠ place := by
      rintro rfl
      exact hd h
    have horigin : p ≠ origin := by
      rintro rfl
      rw [he] at h
      cases h
    rw [entry?_rename ho hp, if_neg hplace, if_neg horigin, h]
  file p i hs h := by
    rw [entry?_rename ho hp, if_neg hs.2, if_neg hs.1]
    exact ⟨h, rfl⟩

end Disk

namespace CheckpointDir

def draftFile (name : String) : String := s!"{name}.tmp"

def partFiles : List String := [indexFile, logFile]

theorem plain_partFiles : ∀ name ∈ partFiles, Path.Plain name ∧ Path.Plain (draftFile name) := by
  decide

theorem ne_draftFile : ∀ name ∈ partFiles, ∀ last ∈ partFiles, last ≠ draftFile name := by decide

theorem indexFile_mem : indexFile ∈ partFiles := by decide

theorem logFile_mem : logFile ∈ partFiles := by decide

/-- In the directories that have been made, a part is written to its draft, which is renamed. -/
theorem write_made {dir : Path} {token : Token} {disk made : Disk}
    (h : disk.createDirs (tokenDir dir token) = (.ok (), made)) (name : String) (payload : Bytes) :
    write dir token name payload disk =
      match made.openFile ((tokenDir dir token).child (draftFile name)) with
      | .error cause => (.error (.file cause), made)
      | .ok (file, disk) =>
        match (disk.setContent file (Frame.wrap payload)).rename
            ((tokenDir dir token).child (draftFile name)) ((tokenDir dir token).child name) with
        | .error cause => (.error (.file cause), disk.setContent file (Frame.wrap payload))
        | .ok disk => (.ok (), disk) := by
  rw [write, h]
  rfl

def Apart (name : String) (p : Path) : Prop :=
  p.getLast? ≠ some name ∧ p.getLast? ≠ some (draftFile name)

theorem apart_snoc {name last : String} (h : last ≠ name) (hd : last ≠ draftFile name)
    (place : Path) :
    Apart name (place ++ [last]) := by
  simp [Apart, h, hd]

theorem Apart.ne {name : String} {p : Path} (h : Apart name p) (place : Path) :
    p ≠ place ++ [name] ∧ p ≠ place ++ [draftFile name] := by
  constructor
  · rintro rfl
    exact h.1 (by simp)
  · rintro rfl
    exact h.2 (by simp)

/-- Whether it succeeds or not, writing a part spares the files with other names; if it succeeds,
the part stands in its file. -/
theorem write_spec (dir : Path) (token : Token) {name : String} (payload : Bytes) {disk : Disk}
    (hw : disk.WellFormed) (hn : Path.Plain name) (hd : Path.Plain (draftFile name)) :
    Disk.Spares (Apart name) disk (write dir token name payload disk).2 ∧
      ((write dir token name payload disk).1 = .ok () →
        (write dir token name payload disk).2.read ((tokenDir dir token).child name) =
          .ok (Frame.wrap payload)) := by
  have hdirs := (Disk.addsDirs_createDirs disk (tokenDir dir token)).spares hw
  cases hmade : disk.createDirs (tokenDir dir token) with
  | mk result made =>
    rw [hmade] at hdirs
    have hfree := hdirs.weaken fun p (_ : Apart name p) => trivial
    cases result with
    | error cause =>
      rw [write, hmade]
      exact ⟨hfree, fun h => by cases h⟩
    | ok =>
      rw [write_made hmade]
      cases ho : made.openFile ((tokenDir dir token).child (draftFile name)) with
      | error cause => exact ⟨hfree, fun h => by cases h⟩
      | ok opened =>
        obtain ⟨file, opened⟩ := opened
        obtain ⟨place, hhome, he, hopen⟩ := Disk.openFile_ok hdirs.wellFormed hd ho
        have hwrites := Disk.writesOnly_setContent opened file (Frame.wrap payload)
        have hwrite := hwrites.spares hopen.wellFormed he
        have hbytes := Disk.content_setContent (hopen.wellFormed.inRange _ _ he)
          (Frame.wrap payload)
        have hfirst := hfree.trans (hopen.weaken fun p (_ : Apart name p) => trivial)
        have hsecond := hfirst.trans (hwrite.weaken fun p hp => (hp.ne place).2)
        have hkept := (hhome.mono hopen.directory).mono hwrite.directory
        have hsource := hkept.locate_child hd he
        have htarget := hkept.resolve_child hn
        by_cases hdir : Disk.entry? (opened.setContent file (Frame.wrap payload)) (place ++ [name]) =
            some .directory
        · have hfail : (opened.setContent file (Frame.wrap payload)).rename
              ((tokenDir dir token).child (draftFile name)) ((tokenDir dir token).child name) =
                .error .isDirectory := by
            simp only [Disk.rename, hsource, htarget, bind, Except.bind, hdir, if_true]
            rfl
          simp only [hfail]
          exact ⟨hsecond, fun h => by cases h⟩
        · simp only [Disk.rename_eq hsource htarget hdir]
          have hmove := Disk.spares_rename hwrite.wellFormed (by simp) (by simp) he hdir
          refine ⟨hsecond.trans (hmove.weaken fun p hp => ⟨(hp.ne place).2, (hp.ne place).1⟩),
            fun _ => ?_⟩
          have hread := (hkept.mono hmove.directory).read_child hn
            ((Disk.entry?_rename (by simp) (by simp) (place ++ [name])).trans (if_pos rfl))
          rw [hread]
          exact congrArg Except.ok hbytes

theorem spares_write (dir : Path) (token : Token) {name : String} (payload : Bytes) {disk : Disk}
    (hw : disk.WellFormed) (hn : Path.Plain name) (hd : Path.Plain (draftFile name)) :
    Disk.Spares (Apart name) disk (write dir token name payload disk).2 :=
  (write_spec dir token payload hw hn hd).1

theorem spares_writePart (dir : Path) {name : String} (hn : name ∈ partFiles)
    (part : Option (Token × Bytes)) {disk : Disk} (hw : disk.WellFormed) :
    Disk.Spares (Apart name) disk (writePart dir name part disk).2 := by
  obtain ⟨hplain, hdraft⟩ := plain_partFiles name hn
  rcases part with _ | ⟨token, payload⟩
  · exact .refl hw
  · exact spares_write dir token payload hw hplain hdraft

theorem read_written {dir : Path} {token : Token} {name : String} {payload : Bytes}
    {disk other : Disk} (hw : disk.WellFormed) (hn : Path.Plain name)
    (hd : Path.Plain (draftFile name)) (h : write dir token name payload disk = (.ok (), other)) :
    other.read ((tokenDir dir token).child name) = .ok (Frame.wrap payload) := by
  have hread := (write_spec dir token payload hw hn hd).2
  rw [h] at hread
  exact hread rfl

end CheckpointDir

end PredicateIndex
