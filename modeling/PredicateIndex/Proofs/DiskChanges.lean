import PredicateIndex.Proofs.Places

/-!
# What a change of the disk spares

Each step of the disk that a store uses keeps every directory. Opening a file
and making directories spare every file, writing spares all files but the one
written, and renaming spares all but its two places. On a well-formed disk no
two places share a file, so what is spared is told by places alone.
-/

set_option autoImplicit false

namespace PredicateIndex

namespace Disk

structure WellFormed (disk : Disk) : Prop where
  inRange : ∀ place id, disk.entry? place = some (.file id) → id < disk.files.length
  separate : ∀ p q id, disk.entry? p = some (.file id) → disk.entry? q = some (.file id) → p = q
  locks : disk.locked.Nodup

theorem WellFormed.empty : WellFormed {} where
  inRange place id h := by
    rw [ entry?] at h
    split at h <;> cases h
  separate p q id h := by
    rw [ entry?] at h
    split at h <;> cases h
  locks := List.nodup_nil

/-- The other disk is well formed, has every directory, and the same files at the spared places. -/
structure Spares (spared : Path → Prop) (disk other : Disk) : Prop where
  wellFormed : other.WellFormed
  directory : ∀ p, disk.entry? p = some .directory → other.entry? p = some .directory
  file : ∀ p id, spared p → disk.entry? p = some (.file id) →
    other.entry? p = some (.file id) ∧ other.content id = disk.content id

namespace Spares

variable {spared fewer : Path → Prop} {disk other last : Disk}

theorem refl (h : disk.WellFormed) : Spares spared disk disk :=
  ⟨h, fun _ hp => hp, fun _ _ _ hp => ⟨hp, rfl⟩⟩

theorem trans (h : Spares spared disk other) (ho : Spares spared other last) :
    Spares spared disk last where
  wellFormed := ho.wellFormed
  directory p hp := ho.directory p (h.directory p hp)
  file p id hs hp := by
    obtain ⟨he, hc⟩ := h.file p id hs hp
    obtain ⟨he', hc'⟩ := ho.file p id hs he
    exact ⟨he', hc'.trans hc⟩

theorem weaken (h : Spares spared disk other) (hf : ∀ p, fewer p → spared p) :
    Spares fewer disk other :=
  ⟨h.wellFormed, h.directory, fun p id hs hp => h.file p id (hf p hs) hp⟩

end Spares

variable {disk other : Disk} {path dir place : Path} {name : String} {id : FileId}

@[simp] theorem length_setContent (disk : Disk) (id : FileId) (bytes : Bytes) :
    (disk.setContent id bytes).files.length = disk.files.length := List.length_set

theorem content_setContent (h : id < disk.files.length) (bytes : Bytes) :
    (disk.setContent id bytes).content id = bytes := by
  simp [content, setContent, h]

theorem content_setContent_ne {other : FileId} (h : id ≠ other) (bytes : Bytes) :
    (disk.setContent id bytes).content other = disk.content other := by
  simp [content, setContent, List.getElem?_set_ne h]

structure WritesOnly (id : FileId) (disk other : Disk) : Prop where
  entries : other.entries = disk.entries
  locked : other.locked = disk.locked
  length : other.files.length = disk.files.length
  content : ∀ i, i ≠ id → other.content i = disk.content i

theorem writesOnly_setContent (disk : Disk) (id : FileId) (bytes : Bytes) :
    WritesOnly id disk (disk.setContent id bytes) :=
  ⟨rfl, rfl, length_setContent disk id bytes, fun _ h => content_setContent_ne h.symm bytes⟩

namespace WritesOnly

theorem refl (id : FileId) (disk : Disk) : WritesOnly id disk disk :=
  ⟨rfl, rfl, rfl, fun _ _ => rfl⟩

theorem trans {last : Disk} (h : WritesOnly id disk other) (ho : WritesOnly id other last) :
    WritesOnly id disk last :=
  ⟨ho.entries.trans h.entries, ho.locked.trans h.locked, ho.length.trans h.length,
    fun i hi => (ho.content i hi).trans (h.content i hi)⟩

theorem entry?_eq (h : WritesOnly id disk other) (p : Path) : other.entry? p = disk.entry? p := by
  rw [ entry?, entry?, h.entries]

theorem wellFormed (h : WritesOnly id disk other) (hw : disk.WellFormed) : other.WellFormed where
  inRange p i hp := by
    rw [h.length]
    exact hw.inRange p i (h.entry?_eq p ▸ hp)
  separate p q i hp hq := hw.separate p q i (h.entry?_eq p ▸ hp) (h.entry?_eq q ▸ hq)
  locks := by
    rw [h.locked]
    exact hw.locks

theorem spares (h : WritesOnly id disk other) (hw : disk.WellFormed)
    (he : disk.entry? place = some (.file id)) : Spares (· ≠ place) disk other where
  wellFormed := h.wellFormed hw
  directory p hp := by rw [h.entry?_eq p, hp]
  file p i hne hp := by
    refine ⟨by rw [h.entry?_eq p, hp], h.content i fun hi => ?_⟩
    subst hi
    exact hne (hw.separate p place i hp he)

end WritesOnly

def addFile (disk : Disk) (place : Path) : Disk :=
  { disk with
    entries := (place, .file disk.files.length) :: disk.entries
    files := disk.files ++ [[]] }

def addDir (disk : Disk) (place : Path) : Disk :=
  { disk with entries := (place, .directory) :: disk.entries }

theorem entry?_addFile (hp : place ≠ []) (p : Path) :
    entry? (disk.addFile place) p =
      if p = place then some (.file disk.files.length) else disk.entry? p := by
  by_cases hr : p = []
  · subst hr
    rw [if_neg hp.symm]
    rfl
  · rw [ entry?, if_neg hr, addFile, Lookup.cons_eq, entry?, if_neg hr]

theorem entry?_addDir (hp : place ≠ []) (p : Path) :
    entry? (disk.addDir place) p = if p = place then some .directory else disk.entry? p := by
  by_cases hr : p = []
  · subst hr
    rw [if_neg hp.symm]
    rfl
  · rw [ entry?, if_neg hr, addDir, Lookup.cons_eq, entry?, if_neg hr]

theorem content_addFile (disk : Disk) (place : Path) (id : FileId) :
    (disk.addFile place).content id = disk.content id := by
  rw [content, content, List.getD_eq_getElem?_getD, List.getD_eq_getElem?_getD, addFile]
  dsimp only
  by_cases h : id < disk.files.length
  · rw [List.getElem?_append_left h]
  · have hle : disk.files.length ≤ id := Nat.le_of_not_lt h
    rw [List.getElem?_append_right hle, List.getElem?_eq_none hle]
    cases id - disk.files.length <;> rfl

theorem spares_addFile (hw : disk.WellFormed) (hp : place ≠ []) (he : disk.entry? place = none) :
    Spares (fun _ => True) disk (disk.addFile place) where
  wellFormed := by
    have hf : ∀ p i, disk.entry? p = some (.file i) → i ≠ disk.files.length := fun p i h =>
      Nat.ne_of_lt (hw.inRange p i h)
    refine ⟨fun p i h => ?_, fun p q i h hq => ?_, hw.locks⟩
    · rw [entry?_addFile hp] at h
      have hl : (disk.addFile place).files.length = disk.files.length + 1 := List.length_append
      rw [hl]
      split at h
      · obtain rfl := Entry.file.inj (Option.some.inj h)
        exact Nat.lt_succ_self _
      · exact Nat.lt_succ_of_lt (hw.inRange p i h)
    · rw [entry?_addFile hp] at h hq
      split at h <;> split at hq
      · simp_all
      · exact (hf q i hq (Entry.file.inj (Option.some.inj h)).symm).elim
      · exact (hf p i h (Entry.file.inj (Option.some.inj hq)).symm).elim
      · exact hw.separate p q i h hq
  directory p h := by
    rw [entry?_addFile hp, if_neg fun hc => by rw [hc, he] at h; contradiction, h]
  file p i _ h := by
    rw [entry?_addFile hp, if_neg fun hc => by rw [hc, he] at h; contradiction, h]
    exact ⟨rfl, content_addFile disk place i⟩

theorem Homed.locate_child (hd : Homed disk dir place) (hn : Path.Plain name) {entry : Entry}
    (he : disk.entry? (place ++ [name]) = some entry) :
    disk.locate (dir.child name) = .ok (place ++ [name], entry) := by
  simp only [locate, hd.resolve_child hn, bind, Except.bind, he, pure, Except.pure]

theorem Homed.locate_none (hd : Homed disk dir place) (hn : Path.Plain name)
    (he : disk.entry? (place ++ [name]) = none) :
    disk.locate (dir.child name) = .error .notFound := by
  simp only [locate, hd.resolve_child hn, bind, Except.bind, he]
  rfl

theorem Homed.read_child (hd : Homed disk dir place) (hn : Path.Plain name)
    (he : disk.entry? (place ++ [name]) = some (.file id)) :
    disk.read (dir.child name) = .ok (disk.content id) := by
  rw [read, find, hd.locate_child hn he]
  rfl

theorem openFile_child (hd : Homed disk dir place) (hn : Path.Plain name) :
    disk.openFile (dir.child name) =
      match disk.entry? (place ++ [name]) with
      | some (.file id) => .ok (id, disk)
      | some .directory => .error .isDirectory
      | none => .ok (disk.files.length, disk.addFile (place ++ [name])) := by
  have hr := hd.resolve_child hn
  rw [Path.child_eq] at hr ⊢
  simp only [openFile, Path.trimSlashes_snoc _ hn.1, Path.endsInSlash_snoc _ hn.1, hr, bind,
    Except.bind]
  cases disk.entry? (place ++ [name]) with
  | none => rfl
  | some entry => cases entry <;> rfl

structure ChangesOnly (place : Path) (disk other : Disk) : Prop where
  entry : ∀ p, p ≠ place → other.entry? p = disk.entry? p
  content : ∀ p i, p ≠ place → disk.entry? p = some (.file i) → other.content i = disk.content i

theorem ChangesOnly.trans {last : Disk} (h : ChangesOnly place disk other)
    (ho : ChangesOnly place other last) : ChangesOnly place disk last where
  entry p hp := (ho.entry p hp).trans (h.entry p hp)
  content p i hp he :=
    (ho.content p i hp ((h.entry p hp).trans he)).trans (h.content p i hp he)

theorem WritesOnly.changesOnly (h : WritesOnly id disk other) (hw : disk.WellFormed)
    (he : disk.entry? place = some (.file id)) : ChangesOnly place disk other where
  entry p _ := h.entry?_eq p
  content p i hp hi := h.content i fun hc => hp (hw.separate p place i hi (hc ▸ he))

/-- Opening a file finds it or makes an empty one, and changes nothing else. -/
theorem openFile_exact (hd : Homed disk dir place) (hn : Path.Plain name)
    (he : disk.entry? (place ++ [name]) ≠ some .directory) :
    ∃ id opened, disk.openFile (dir.child name) = .ok (id, opened) ∧
      (∀ p, opened.entry? p = if p = place ++ [name] then some (.file id) else disk.entry? p) ∧
      (∀ i, opened.content i = disk.content i) ∧ opened.locked = disk.locked ∧
      (disk.entry? (place ++ [name]) = some (.file id) ∨
        (disk.entry? (place ++ [name]) = none ∧ id = disk.files.length)) := by
  rw [openFile_child hd hn]
  cases hp : disk.entry? (place ++ [name]) with
  | none =>
    refine ⟨_, _, rfl, fun p => ?_, fun i => content_addFile disk _ i, rfl, Or.inr ⟨rfl, rfl⟩⟩
    rw [entry?_addFile (by simp)]
  | some entry =>
    cases entry with
    | directory => exact (he hp).elim
    | file id =>
      refine ⟨id, disk, rfl, fun p => ?_, fun i => rfl, rfl, Or.inl rfl⟩
      by_cases h : p = place ++ [name] <;> simp [h, hp]

theorem homed_of_openFile (hn : Path.Plain name)
    (h : disk.openFile (dir.child name) = .ok (id, other)) :
    ∃ place, Homed disk dir place := by
  cases hr : disk.resolve (dir.child name) with
  | error cause =>
    rw [Path.child_eq] at h hr
    simp [openFile, Path.trimSlashes_snoc _ hn.1, hr, bind, Except.bind] at h
  | ok target =>
    obtain ⟨place, hd, -⟩ := homed_of_resolve_child hn hr
    exact ⟨place, hd⟩

theorem openFile_ok (hw : disk.WellFormed) (hn : Path.Plain name)
    (h : disk.openFile (dir.child name) = .ok (id, other)) :
    ∃ place, Homed disk dir place ∧ other.entry? (place ++ [name]) = some (.file id) ∧
      Spares (fun _ => True) disk other := by
  obtain ⟨place, hd⟩ := homed_of_openFile hn h
  refine ⟨place, hd, ?_⟩
  rw [openFile_child hd hn] at h
  split at h
  · rename_i found he
    obtain ⟨rfl, rfl⟩ := Prod.mk.inj (Except.ok.inj h)
    exact ⟨he, .refl hw⟩
  · contradiction
  · rename_i he
    obtain ⟨rfl, rfl⟩ := Prod.mk.inj (Except.ok.inj h)
    exact ⟨by simp [entry?_addFile], spares_addFile hw (by simp) he⟩

structure AddsDirs (disk other : Disk) : Prop where
  files : other.files = disk.files
  locked : other.locked = disk.locked
  entry : ∀ p, other.entry? p = disk.entry? p ∨
    (disk.entry? p = none ∧ other.entry? p = some .directory)

namespace AddsDirs

variable {last : Disk}

theorem refl (disk : Disk) : AddsDirs disk disk := ⟨rfl, rfl, fun _ => Or.inl rfl⟩

theorem trans (h : AddsDirs disk other) (ho : AddsDirs other last) : AddsDirs disk last where
  files := ho.files.trans h.files
  locked := ho.locked.trans h.locked
  entry p := by
    rcases h.entry p with he | ⟨hn, he⟩ <;> rcases ho.entry p with hp | ⟨hn', hp⟩
    · exact Or.inl (hp.trans he)
    · exact Or.inr ⟨he ▸ hn', hp⟩
    · exact Or.inr ⟨hn, hp.trans he⟩
    · exact Or.inr ⟨hn, hp⟩

theorem some_entry (h : AddsDirs disk other) {p : Path} {entry : Entry}
    (he : disk.entry? p = some entry) : other.entry? p = some entry := by
  rcases h.entry p with hp | ⟨hn, -⟩
  · exact hp.trans he
  · rw [hn] at he
    contradiction

theorem file_entry (h : AddsDirs disk other) {p : Path} (he : other.entry? p = some (.file id)) :
    disk.entry? p = some (.file id) := by
  rcases h.entry p with hp | ⟨-, hp⟩
  · exact hp ▸ he
  · rw [hp] at he
    cases he

theorem spares (h : AddsDirs disk other) (hw : disk.WellFormed) :
    Spares (fun _ => True) disk other where
  wellFormed := by
    refine ⟨fun p i hp => ?_, fun p q i hp hq => ?_, ?_⟩
    · rw [h.files]
      exact hw.inRange p i (h.file_entry hp)
    · exact hw.separate p q i (h.file_entry hp) (h.file_entry hq)
    · rw [h.locked]
      exact hw.locks
  directory _ hp := h.some_entry hp
  file p i _ hp := ⟨h.some_entry hp, by rw [content, content, h.files]⟩

end AddsDirs

theorem addsDirs_addDir (hp : place ≠ []) (he : disk.entry? place = none) :
    AddsDirs disk (disk.addDir place) where
  files := rfl
  locked := rfl
  entry p := by
    rw [entry?_addDir hp]
    by_cases h : p = place
    · rw [if_pos h]
      exact Or.inr ⟨h ▸ he, rfl⟩
    · exact Or.inl (if_neg h)

theorem entry?_root (disk : Disk) : disk.entry? [] = some .directory := if_pos rfl

theorem makeDir_ok (h : disk.makeDir path = .ok other) : AddsDirs disk other := by
  rw [makeDir] at h
  cases hr : disk.resolve path.trimSlashes with
  | error cause => rw [hr] at h; cases h
  | ok place =>
    rw [hr] at h
    cases he : disk.entry? place with
    | some entry => simp [bind, Except.bind, he] at h
    | none =>
      simp [bind, Except.bind, he, pure, Except.pure] at h
      subst h
      exact addsDirs_addDir (fun hc => by rw [hc, entry?_root] at he; contradiction) he

theorem addsDirs_ensureDir (disk : Disk) (path : Path) : AddsDirs disk (disk.ensureDir path).2 := by
  rw [ensureDir]
  split
  · rename_i h
    exact makeDir_ok h
  · exact .refl disk

theorem addsDirs_createDirsUnder (above : List Path) (path : Path) (disk : Disk) :
    AddsDirs disk (createDirsUnder above path disk).2 := by
  induction above generalizing path disk with
  | nil => exact addsDirs_ensureDir disk path
  | cons next above ih =>
    have he := addsDirs_ensureDir disk path
    rw [createDirsUnder]
    split
    · rename_i first h
      rw [h] at he
      have hu := ih next first
      split
      · rename_i second h
        rw [h] at hu
        exact (he.trans hu).trans (addsDirs_ensureDir second path)
      · exact he.trans hu
    · exact he

theorem addsDirs_createDirs (disk : Disk) (path : Path) : AddsDirs disk (disk.createDirs path).2 :=
  addsDirs_createDirsUnder path.above path disk

theorem makeDir_child (hd : Homed disk dir place) (hn : Path.Plain name) :
    disk.makeDir (dir.child name) = if (disk.entry? (place ++ [name])).isSome then
      .error .alreadyExists else .ok (disk.addDir (place ++ [name])) := by
  have hr := hd.resolve_child hn
  rw [Path.child_eq] at hr ⊢
  simp only [makeDir, Path.trimSlashes_snoc _ hn.1, hr, bind, Except.bind]
  split <;> rfl

structure MakesDirs (dirs : List Path) (disk other : Disk) : Prop where
  files : other.files = disk.files
  locked : other.locked = disk.locked
  entry : ∀ p, other.entry? p = if p ∈ dirs then some .directory else disk.entry? p

theorem ensureDir_child (hd : Homed disk dir place) (hn : Path.Plain name)
    (hf : ∀ id, disk.entry? (place ++ [name]) ≠ some (.file id)) :
    ∃ made, disk.ensureDir (dir.child name) = (.ok (), made) ∧
      MakesDirs [place ++ [name]] disk made := by
  rw [ensureDir, makeDir_child hd hn]
  cases he : disk.entry? (place ++ [name]) with
  | none =>
    refine ⟨disk.addDir (place ++ [name]), rfl, rfl, rfl, fun p => ?_⟩
    simp [entry?_addDir]
  | some entry =>
    cases entry with
    | file id => exact (hf id he).elim
    | directory =>
      refine ⟨disk, ?_, rfl, rfl, fun p => ?_⟩
      · simp [isDirectory, hd.locate_child hn he]
      · by_cases hp : p = place ++ [name] <;> simp [hp, he]

theorem createDirsUnder_of_ok {above : List Path} (h : disk.ensureDir path = (.ok (), other)) :
    createDirsUnder above path disk = (.ok (), other) := by
  cases above <;> rw [createDirsUnder, h]

theorem createDirs_homed (hd : Homed disk dir place) : disk.createDirs dir = (.ok (), disk) := by
  apply createDirsUnder_of_ok
  have hr := resolve_trimSlashes hd.resolve
  rw [Path.trimSlashes_stem] at hr
  simp [ensureDir, makeDir, hr, hd.directory, isDirectory, hd.locate_self, bind, Except.bind]
  rfl

theorem createDirs_of_ensureDir {child : String} {first made : Disk} (hd : Homed disk dir place)
    (hn : Path.Plain name) (hc : Path.Plain child)
    (hfirst : disk.ensureDir (dir.child name) = (.ok (), first))
    (hmade : first.ensureDir ((dir.child name).child child) = (.ok (), made)) :
    disk.createDirs ((dir.child name).child child) = (.ok (), made) := by
  have hab : ((dir.child name).child child).above = dir.child name ::
      (Path.parts dir.stem).reverse := by
    rw [Path.child_eq (dir.child name), Path.stem_child dir hn.1, Path.above_snoc _ hc.isName,
      Path.child_eq dir, Path.parts_snoc _ hn.isName]
    simp
  rw [Disk.createDirs, hab]
  cases he : disk.entry? (place ++ [name]) with
  | some entry =>
    cases entry with
    | file id =>
      simp [ensureDir, makeDir_child hd hn, he, isDirectory, hd.locate_child hn he] at hfirst
    | directory =>
      obtain rfl : disk = first := by
        simpa [ensureDir, makeDir_child hd hn, he, isDirectory, hd.locate_child hn he] using hfirst
      exact createDirsUnder_of_ok hmade
  | none =>
    have hr := hd.resolve_child hn
    have hmissing : disk.resolve ((dir.child name).child child) = .error .notFound := by
      rw [Path.child_eq (dir.child name), Path.stem_child dir hn.1, resolve_snoc, hr]
      show disk.step (place ++ [name]) child = _
      rw [step, he]
    have htrim : ((dir.child name).child child).trimSlashes = (dir.child name).child child := by
      rw [Path.child_eq (dir.child name), Path.trimSlashes_snoc _ hc.1]
    have hfail : disk.ensureDir ((dir.child name).child child) = (.error .notFound, disk) := by
      simp [ensureDir, makeDir, htrim, hmissing, isDirectory, locate, bind, Except.bind]
    rw [createDirsUnder, hfail]
    simp only [createDirsUnder_of_ok hfirst, hmade]

/-- Making a directory two levels below one that is there succeeds if no file is in its way. -/
theorem createDirs_grandchild {child : String} (hd : Homed disk dir place) (hn : Path.Plain name)
    (hc : Path.Plain child) (hf : ∀ id, disk.entry? (place ++ [name]) ≠ some (.file id))
    (hg : ∀ id, disk.entry? (place ++ [name] ++ [child]) ≠ some (.file id)) :
    ∃ made, disk.createDirs ((dir.child name).child child) = (.ok (), made) ∧
      MakesDirs [place ++ [name], place ++ [name] ++ [child]] disk made := by
  obtain ⟨first, hfirst, hmade⟩ := ensureDir_child hd hn hf
  have hhome : Homed first (dir.child name) (place ++ [name]) := by
    apply (hd.mono fun p hp => ?_).child hn
    · rw [hmade.entry]
      simp
    · rw [hmade.entry]
      split
      · rfl
      · exact hp
  have hne : place ++ [name] ++ [child] ≠ place ++ [name] := by simp
  obtain ⟨made, hm, hs⟩ := ensureDir_child hhome hc (fun id => by
    rw [hmade.entry]
    simpa [hne] using hg id)
  refine ⟨made, createDirs_of_ensureDir hd hn hc hfirst hm, hs.files.trans hmade.files,
    hs.locked.trans hmade.locked, fun p => ?_⟩
  rw [hs.entry, hmade.entry]
  by_cases hp : p = place ++ [name] <;> simp [hp]

end Disk

end PredicateIndex
