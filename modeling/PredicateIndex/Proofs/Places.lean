import PredicateIndex.Disk
import PredicateIndex.Proofs.Lookup

/-!
# Paths, places and what stands there

A directory's children are found at its place with one more name, so the files
of a store are told apart by their places. Walking a path looks only at which
places are directories. A change of the disk spares some files: it keeps every
directory, and at the places it spares it keeps both the entry and the bytes.
-/

set_option autoImplicit false

namespace PredicateIndex

namespace Path

def Plain (name : String) : Prop := name ≠ "" ∧ name ≠ "." ∧ name ≠ ".."

instance (name : String) : Decidable (Plain name) :=
  inferInstanceAs (Decidable (name ≠ "" ∧ name ≠ "." ∧ name ≠ ".."))

def stem : Path → Path
  | [] => []
  | [last] => if last = "" then [] else [last]
  | component :: rest => component :: stem rest

theorem child_eq (path : Path) (name : String) : path.child name = path.stem ++ [name] := by
  fun_induction stem path with
  | case1 => rfl
  | case2 => rfl
  | case3 last h => simp [child, h]
  | case4 component rest hr ih =>
    cases rest with
    | nil => exact (hr rfl).elim
    | cons => rw [child, ih]; rfl; exact fun h => nomatch h

theorem eq_stem_or (path : Path) : path = path.stem ∨ path = path.stem ++ [""] := by
  fun_induction stem path with
  | case1 => exact Or.inl rfl
  | case2 => exact Or.inr rfl
  | case3 => exact Or.inl rfl
  | case4 component rest _ ih => exact ih.imp (congrArg (component :: ·)) (congrArg (component :: ·))

theorem stem_snoc (front : Path) {name : String} (h : name ≠ "") :
    stem (front ++ [name]) = front ++ [name] := by
  induction front with
  | nil => exact if_neg h
  | cons component front ih =>
    cases front with
    | nil => exact congrArg (component :: ·) ih
    | cons => exact congrArg (component :: ·) ih

theorem stem_child (path : Path) {name : String} (h : name ≠ "") :
    stem (path.child name) = path.child name := by
  rw [child_eq, stem_snoc _ h]

theorem trimSlashes_snoc (front : Path) {name : String} (h : name ≠ "") :
    trimSlashes (front ++ [name]) = front ++ [name] := by
  simp [trimSlashes, h]

theorem endsInSlash_snoc (front : Path) {name : String} (h : name ≠ "") :
    endsInSlash (front ++ [name]) = false := by
  simp [endsInSlash, h]

theorem eq_trimSlashes_append (path : Path) :
    ∃ k, path = path.trimSlashes ++ List.replicate k "" := by
  refine ⟨(path.reverse.takeWhile (· = "")).length, ?_⟩
  have hs : List.replicate (path.reverse.takeWhile (· = "")).length "" =
      (path.reverse.takeWhile (· = "")).reverse := by
    symm
    rw [List.eq_replicate_iff]
    refine ⟨List.length_reverse, fun name hn => ?_⟩
    have hm := List.all_eq_true.mp List.all_takeWhile name (List.mem_reverse.mp hn)
    exact of_decide_eq_true hm
  rw [hs, trimSlashes, ← List.reverse_append, List.takeWhile_append_dropWhile, List.reverse_reverse]

theorem trimSlashes_stem (path : Path) : path.stem.trimSlashes = path.trimSlashes := by
  rcases eq_stem_or path with h | h
  · rw [← h]
  · conv => rhs; rw [h]
    simp [trimSlashes]

theorem parts_snoc (front : Path) {name : String} (h : isName name = true) :
    parts (front ++ [name]) = parts front ++ [front ++ [name]] := by
  induction front with
  | nil => simp [parts, h]
  | cons component front ih =>
    rw [List.cons_append, parts, parts, ih]
    split <;> simp

theorem above_snoc (front : Path) {name : String} (h : isName name = true) :
    above (front ++ [name]) = front.parts.reverse := by
  rw [above, parts_snoc front h, List.dropLast_concat]

theorem Plain.isName {name : String} (h : Plain name) : isName name = true := by
  simp [Path.isName, h.1, h.2.1]

end Path

namespace Disk

variable {disk other : Disk} {path dir : Path} {place : Path} {name : String}

theorem resolve_snoc (disk : Disk) (path : Path) (name : String) :
    disk.resolve (path ++ [name]) = disk.resolve path >>= fun place => disk.step place name := by
  rw [resolve, List.foldlM_append]
  simp [resolve]

theorem step_plain (h : disk.entry? place = some .directory) (hn : Path.Plain name) :
    disk.step place name = .ok (place ++ [name]) := by
  simp [step, h, hn.isName, hn.2.2]

theorem step_dir {component : String} {target : Path} (h : disk.step place component = .ok target) :
    disk.entry? place = some .directory := by
  rw [step] at h
  split at h <;> first | contradiction | assumption

theorem step_mono (h : ∀ p, disk.entry? p = some .directory → other.entry? p = some .directory)
    {component : String} {target : Path} (hs : disk.step place component = .ok target) :
    other.step place component = .ok target := by
  have hd := step_dir hs
  rw [step, hd] at hs
  rw [step, h place hd]
  exact hs

/-- A path leads to the same place as long as the directories on its way stay. -/
theorem resolve_mono (h : ∀ p, disk.entry? p = some .directory → other.entry? p = some .directory)
    (hr : disk.resolve path = .ok place) : other.resolve path = .ok place := by
  rw [resolve] at hr ⊢
  generalize ([] : Path) = start at hr ⊢
  induction path generalizing start with
  | nil => exact hr
  | cons component path ih =>
    rw [List.foldlM_cons] at hr ⊢
    cases hs : disk.step start component with
    | error cause => rw [hs] at hr; cases hr
    | ok next =>
      rw [hs] at hr
      rw [step_mono h hs]
      exact ih next hr

theorem resolve_trimSlashes (h : disk.resolve path = .ok place) :
    disk.resolve path.trimSlashes = .ok place := by
  obtain ⟨k, hk⟩ := Path.eq_trimSlashes_append path
  rw [hk] at h
  clear hk
  generalize path.trimSlashes = front at h ⊢
  induction k with
  | zero => simpa using h
  | succ k ih =>
    rw [List.replicate_succ', ← List.append_assoc, resolve_snoc] at h
    cases hr : disk.resolve (front ++ List.replicate k "") with
    | error cause => rw [hr] at h; cases h
    | ok target =>
      rw [hr] at h
      have hs : disk.step target "" = .ok place := h
      rw [step, step_dir hs] at hs
      obtain rfl : target = place := Except.ok.inj hs
      exact ih hr

structure Homed (disk : Disk) (dir place : Path) : Prop where
  resolve : disk.resolve dir.stem = .ok place
  directory : disk.entry? place = some .directory

theorem Homed.mono (h : ∀ p, disk.entry? p = some .directory → other.entry? p = some .directory)
    (hd : Homed disk dir place) : Homed other dir place :=
  ⟨resolve_mono h hd.resolve, h place hd.directory⟩

theorem Homed.locate_self (hd : Homed disk dir place) : disk.locate dir = .ok (place, .directory) := by
  have hr : disk.resolve dir = .ok place := by
    rcases Path.eq_stem_or dir with h | h
    · rw [h]
      exact hd.resolve
    · rw [h, resolve_snoc, hd.resolve]
      show disk.step place "" = .ok place
      rw [step, hd.directory]
      rfl
  simp only [Disk.locate, hr, bind, Except.bind, hd.directory]
  rfl

theorem Homed.resolve_child (hd : Homed disk dir place) (hn : Path.Plain name) :
    disk.resolve (dir.child name) = .ok (place ++ [name]) := by
  rw [Path.child_eq, resolve_snoc, hd.resolve]
  exact step_plain hd.directory hn

theorem Homed.child (hd : Homed disk dir place) (hn : Path.Plain name)
    (he : disk.entry? (place ++ [name]) = some .directory) :
    Homed disk (dir.child name) (place ++ [name]) :=
  ⟨by rw [Path.stem_child dir hn.1]; exact hd.resolve_child hn, he⟩

theorem Homed.unique {first second : Path} (h : Homed disk dir first) (ho : Homed disk dir second) :
    first = second := Except.ok.inj (h.resolve.symm.trans ho.resolve)

theorem homed_of_resolve_child (hn : Path.Plain name) {target : Path}
    (hr : disk.resolve (dir.child name) = .ok target) :
    ∃ place, Homed disk dir place ∧ target = place ++ [name] := by
  rw [Path.child_eq, resolve_snoc] at hr
  cases hs : disk.resolve dir.stem with
  | error cause => rw [hs] at hr; cases hr
  | ok place =>
    rw [hs] at hr
    have hd : disk.entry? place = some .directory := step_dir hr
    have ht : disk.step place name = .ok target := hr
    rw [step_plain hd hn] at ht
    exact ⟨place, ⟨hs, hd⟩, (Except.ok.inj ht).symm⟩

theorem homed_of_exists_child (hn : Path.Plain name) (h : disk.exists? (dir.child name) = true) :
    ∃ place, Homed disk dir place := by
  cases hr : disk.resolve (dir.child name) with
  | error cause =>
    simp only [exists?, locate, hr, bind, Except.bind] at h
    cases h
  | ok target =>
    obtain ⟨place, hd, -⟩ := homed_of_resolve_child hn hr
    exact ⟨place, hd⟩

theorem homed_of_locate (h : disk.locate dir = .ok (place, .directory)) : Homed disk dir place := by
  have hr : disk.resolve dir = .ok place ∧ disk.entry? place = some .directory := by
    rw [locate] at h
    cases hs : disk.resolve dir with
    | error cause => rw [hs] at h; cases h
    | ok target =>
      rw [hs] at h
      cases he : disk.entry? target with
      | none => simp [bind, Except.bind, he] at h
      | some entry =>
        simp [bind, Except.bind, he, pure, Except.pure] at h
        obtain ⟨rfl, rfl⟩ := h
        exact ⟨rfl, he⟩
  refine ⟨?_, hr.2⟩
  rcases Path.eq_stem_or dir with hd | hd
  · rw [← hd]
    exact hr.1
  · have hs := hr.1
    rw [hd, resolve_snoc] at hs
    cases ht : disk.resolve dir.stem with
    | error cause => rw [ht] at hs; cases hs
    | ok target =>
      rw [ht] at hs
      have hp : disk.step target "" = .ok place := hs
      rw [step, step_dir hp] at hp
      exact congrArg Except.ok (Except.ok.inj hp)

end Disk

end PredicateIndex
