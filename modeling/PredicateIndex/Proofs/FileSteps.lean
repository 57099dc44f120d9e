import PredicateIndex.Proofs.LogContents

/-!
# File-system steps

A store changes the disk in steps: it makes directories, makes files, writes
them byte after byte and renames them when they are finished. A crash stops
between two steps. Steps endure crashes if the disk is fit for the next start
wherever they stop; this composes like the steps themselves.
-/

set_option autoImplicit false

namespace PredicateIndex

namespace Bytes

theorem overwrite_nil {bytes : Bytes} {start : Nat} (h : start ≤ bytes.length) :
    bytes.overwrite start [] = bytes := by
  rw [overwrite_inside h, List.nil_append, List.length_nil, Nat.add_zero, List.take_append_drop]

theorem overwrite_overwrite {bytes : Bytes} {start : Nat} (h : start ≤ bytes.length)
    (front back : Bytes) : (bytes.overwrite start front).overwrite (start + front.length) back =
      bytes.overwrite start (front ++ back) := by
  have hdrop : (bytes.overwrite start front).drop (start + front.length + back.length) =
      bytes.drop (start + front.length + back.length) := by
    rw [overwrite_inside h, ← List.append_assoc, List.drop_append, List.drop_of_length_le,
      List.nil_append, List.length_append, List.length_take, Nat.min_eq_left h, List.drop_drop]
    · congr 1
      omega
    · rw [List.length_append, List.length_take]
      omega
  rw [overwrite_inside (le_length_overwrite h front), take_overwrite h, hdrop, overwrite_inside h,
    List.length_append, List.append_assoc, List.append_assoc, Nat.add_assoc]

end Bytes

/-- A change of the disk that a crash finds either done or not begun. -/
inductive FileStep where
  /-- Makes a directory unless it is there. -/
  | makeDir (path : Path)
  /-- Opens a file, which is then empty. -/
  | create (path : Path)
  | write (path : Path) (offset : Nat) (byte : UInt8)
  | rename (source target : Path)
  deriving DecidableEq, Repr

namespace FileStep

def perform (disk : Disk) : FileStep → Except Fault.File Disk
  | makeDir path =>
    match disk.ensureDir path with
    | (.ok (), disk) => .ok disk
    | (.error cause, _) => .error cause
  | create path => do
    let (file, disk) ← disk.openFile path
    return disk.setContent file []
  | write path offset byte => do
    return disk.write (← disk.find path) offset [byte]
  | rename source target => disk.rename source target

def writes (path : Path) : Nat → Bytes → List FileStep
  | _, [] => []
  | offset, byte :: bytes => .write path offset byte :: writes path (offset + 1) bytes

theorem rename_notMem_writes (source target path : Path) (offset : Nat) (bytes : Bytes) :
    rename source target ∉ writes path offset bytes := by
  induction bytes generalizing offset with
  | nil => simp [writes]
  | cons byte bytes ih => simp [writes, ih]

end FileStep

namespace Disk

variable {disk other : Disk} {path : Path} {id : FileId} {offset : Nat}

theorem write_nil (h : offset ≤ (disk.content id).length) : disk.write id offset [] = disk := by
  rw [write, Bytes.overwrite_nil h, setContent, content, List.getD_eq_getElem?_getD]
  by_cases hr : id < disk.files.length
  · rw [List.getElem?_eq_getElem hr, Option.getD_some, List.set_getElem_self]
  · rw [List.set_eq_of_length_le (Nat.le_of_not_lt hr)]

theorem write_write (hr : id < disk.files.length) (h : offset ≤ (disk.content id).length)
    (front back : Bytes) : (disk.write id offset front).write id (offset + front.length) back =
      disk.write id offset (front ++ back) := by
  rw [write, write, content_setContent hr, Bytes.overwrite_overwrite h, setContent, setContent,
    write, setContent, List.set_set]

theorem write_empty (hr : id < disk.files.length) (bytes : Bytes) :
    (disk.setContent id []).write id 0 bytes = disk.setContent id bytes := by
  rw [write, content_setContent hr, Bytes.overwrite_inside (Nat.zero_le _), List.take_nil,
    List.drop_nil, List.nil_append, List.append_nil, setContent, setContent, setContent,
    List.set_set]

def after (disk : Disk) (steps : List FileStep) : Except Fault.File Disk :=
  steps.foldlM FileStep.perform disk

/-- The steps succeed; before each of them the disk is fit for a crash, and after the last it is
as it should be. -/
inductive Endures (crash post : Disk → Prop) : Disk → List FileStep → Prop where
  | done {disk : Disk} (h : post disk) : Endures crash post disk []
  | step {disk other : Disk} {first : FileStep} {rest : List FileStep} (hc : crash disk)
      (hp : first.perform disk = .ok other) (h : Endures crash post other rest) :
      Endures crash post disk (first :: rest)

namespace Endures

variable {crash post : Disk → Prop} {steps rest : List FileStep}

/-- Wherever the steps stop, the disk is fit for it. -/
theorem stop (h : Endures crash post disk steps) {performed : List FileStep}
    (hp : performed <+: steps) : ∃ other, disk.after performed = .ok other ∧
      (performed ≠ steps → crash other) ∧ (performed = steps → post other) := by
  induction h generalizing performed with
  | @done disk hpost =>
    obtain rfl := List.prefix_nil.mp hp
    exact ⟨disk, rfl, fun hne => (hne rfl).elim, fun _ => hpost⟩
  | @step disk other first rest hc hfirst h ih =>
    rcases List.prefix_cons_iff.mp hp with rfl | ⟨performed, rfl, hrest⟩
    · exact ⟨disk, rfl, fun _ => hc, fun he => by cases he⟩
    · obtain ⟨last, hlast, hcrash, hpost⟩ := ih hrest
      refine ⟨last, ?_, fun hne => hcrash fun he => hne (by rw [he]), fun he =>
        hpost (List.cons.inj he).2⟩
      rw [after, List.foldlM_cons, hfirst]
      exact hlast

theorem mono {fit last : Disk → Prop} (h : Endures crash post disk steps)
    (hc : ∀ disk, crash disk → fit disk) (hp : ∀ disk, post disk → last disk) :
    Endures fit last disk steps := by
  induction h with
  | done hpost => exact .done (hp _ hpost)
  | step hcrash hfirst _ ih => exact .step (hc _ hcrash) hfirst ih

theorem append {middle : Disk → Prop} (h : Endures crash middle disk steps)
    (hm : ∀ other, middle other → Endures crash post other rest) :
    Endures crash post disk (steps ++ rest) := by
  induction h with
  | done hmiddle => exact hm _ hmiddle
  | step hcrash hfirst _ ih => exact .step hcrash hfirst ih

theorem writes (hf : disk.find path = .ok id) (hr : id < disk.files.length)
    (hl : offset ≤ (disk.content id).length) {bytes : Bytes}
    (hc : ∀ front, front <+: bytes → crash (disk.write id offset front))
    (hp : post (disk.write id offset bytes)) :
    Endures crash post disk (FileStep.writes path offset bytes) := by
  induction bytes generalizing disk offset with
  | nil =>
    rw [write_nil hl] at hp
    exact .done hp
  | cons byte bytes ih =>
    have hstart := hc [] List.nil_prefix
    rw [write_nil hl] at hstart
    have hrest := write_write hr hl [byte]
    have hperform : (FileStep.write path offset byte).perform disk =
        .ok (disk.write id offset [byte]) := by
      rw [FileStep.perform, hf]
      rfl
    refine .step hstart hperform (ih ?_ ?_ ?_ (fun front hfront => ?_) ?_)
    · exact hf
    · rwa [write, length_setContent]
    · rw [write, content_setContent hr]
      exact Bytes.le_length_overwrite hl [byte]
    · rw [show offset + 1 = offset + [byte].length from rfl, hrest]
      exact hc _ (List.prefix_cons_inj byte |>.mpr hfront)
    · rw [show offset + 1 = offset + [byte].length from rfl, hrest]
      exact hp

end Endures

end Disk

end PredicateIndex
