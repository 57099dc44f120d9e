import Mathlib.Data.List.Nodup
import Mathlib.Data.List.Perm.Basic
import PredicateIndex.Disk.FileLock
import PredicateIndex.Proofs.DiskChanges

/-!
# Who holds a lock file, and what stands in it

Processes try to take lock files and give them up again, in any order. The lock
on a file is what keeps a second holder away, and no path ever leads to another
file, so no two holders share a path. The text of a holder does not survive: an
attempt empties the file before it finds the file held.
-/

set_option autoImplicit false

namespace PredicateIndex

namespace Disk

variable {disk other : Disk} {path : Path} {id : FileId}

structure Leads (disk : Disk) (path : Path) (id : FileId) : Prop where
  named : path.endsInSlash = false
  entry : ∃ place, disk.resolve path.trimSlashes = .ok place ∧ disk.entry? place = some (.file id)

structure Extends (disk other : Disk) : Prop where
  entry : ∀ place entry, disk.entry? place = some entry → other.entry? place = some entry
  content : ∀ i, other.content i = disk.content i
  locked : other.locked = disk.locked
  process : other.process = disk.process

theorem Extends.refl (disk : Disk) : Extends disk disk :=
  ⟨fun _ _ h => h, fun _ => rfl, rfl, rfl⟩

def Filled (disk : Disk) : Prop :=
  ∀ place i, disk.entry? place = some (.file i) → i < disk.files.length

theorem extends_addFile {place : Path} (hp : place ≠ []) (he : disk.entry? place = none) :
    Extends disk (disk.addFile place) where
  entry p entry h := by
    rw [entry?_addFile hp, if_neg fun hc => by rw [hc, he] at h; contradiction, h]
  content i := content_addFile disk place i
  locked := rfl
  process := rfl

theorem Filled.addFile {place : Path} (hf : disk.Filled) (hp : place ≠ []) :
    (disk.addFile place).Filled := by
  intro p i h
  have hl : (disk.addFile place).files.length = disk.files.length + 1 := List.length_append
  rw [entry?_addFile hp] at h
  rw [hl]
  split at h
  · obtain rfl := Entry.file.inj (Option.some.inj h)
    exact Nat.lt_succ_self _
  · exact Nat.lt_succ_of_lt (hf p i h)

namespace Leads

theorem openFile (h : disk.Leads path id) : disk.openFile path = .ok (id, disk) := by
  obtain ⟨place, hr, he⟩ := h.entry
  simp only [Disk.openFile, hr, h.named, bind, Except.bind, he]
  rfl

theorem resolve (h : disk.Leads path id) :
    ∃ place, disk.resolve path = .ok place ∧ disk.entry? place = some (.file id) := by
  have ht : path.trimSlashes = path := by
    rcases List.eq_nil_or_concat path with rfl | ⟨front, name, rfl⟩
    · rfl
    · rw [List.concat_eq_append]
      apply Path.trimSlashes_snoc
      simpa [Path.endsInSlash] using h.named
  exact ht ▸ h.entry

theorem find (h : disk.Leads path id) : disk.find path = .ok id := by
  obtain ⟨place, hr, he⟩ := h.resolve
  simp only [Disk.find, locate, hr, bind, Except.bind, he]
  rfl

theorem read (h : disk.Leads path id) : disk.read path = .ok (disk.content id) := by
  simp only [Disk.read, h.find, bind, Except.bind]
  rfl

theorem unique {i : FileId} (h : disk.Leads path id) (hi : disk.Leads path i) : id = i :=
  Except.ok.inj (h.find.symm.trans hi.find)

theorem mono (h : disk.Leads path id)
    (hm : ∀ place entry, disk.entry? place = some entry → other.entry? place = some entry) :
    other.Leads path id := by
  obtain ⟨place, hr, he⟩ := h.entry
  exact ⟨h.named, place, resolve_mono (fun p => hm p _) hr, hm place _ he⟩

theorem lt_length (h : disk.Leads path id) (hf : disk.Filled) : id < disk.files.length := by
  obtain ⟨place, -, he⟩ := h.entry
  exact hf place id he

end Leads

theorem openFile_leads (hf : disk.Filled) (h : disk.openFile path = .ok (id, other)) :
    other.Leads path id ∧ other.Filled ∧ Extends disk other ∧
      ((disk.Leads path id ∧ other = disk) ∨ id = disk.files.length) := by
  rw [openFile] at h
  cases hr : disk.resolve path.trimSlashes with
  | error cause => rw [hr] at h; cases h
  | ok place =>
    rw [hr] at h
    cases hs : path.endsInSlash with
    | true => simp [bind, Except.bind, hs] at h
    | false =>
      cases he : disk.entry? place with
      | some entry =>
        cases entry with
        | directory => simp [bind, Except.bind, hs, he] at h
        | file found =>
          simp [bind, Except.bind, hs, he, pure, Except.pure] at h
          obtain ⟨rfl, rfl⟩ := h
          have hl : disk.Leads path found := ⟨hs, place, hr, he⟩
          exact ⟨hl, hf, .refl disk, Or.inl ⟨hl, rfl⟩⟩
      | none =>
        simp [bind, Except.bind, hs, he, pure, Except.pure] at h
        obtain ⟨rfl, rfl⟩ := h
        have hp : place ≠ [] := fun hc => by rw [hc, entry?_root] at he; contradiction
        have hx := extends_addFile hp he
        refine ⟨⟨hs, place, resolve_mono (fun p => hx.entry p _) hr, ?_⟩, hf.addFile hp, hx,
          Or.inr rfl⟩
        exact (entry?_addFile hp place).trans (if_pos rfl)

theorem leads_of_find (h : disk.find path = .ok id) : disk.Leads path id := by
  rw [find, locate] at h
  cases hr : disk.resolve path with
  | error cause => rw [hr] at h; cases h
  | ok place =>
    rw [hr] at h
    cases he : disk.entry? place with
    | none => simp [bind, Except.bind, he] at h
    | some entry =>
      cases entry with
      | directory => simp [bind, Except.bind, he, pure, Except.pure] at h
      | file found =>
        simp [bind, Except.bind, he, pure, Except.pure] at h
        subst h
        refine ⟨?_, place, resolve_trimSlashes hr, he⟩
        -- a slash at the end would have to lead on from a directory
        rcases List.eq_nil_or_concat path with rfl | ⟨front, name, rfl⟩
        · rfl
        · rw [List.concat_eq_append] at hr ⊢
          refine Path.endsInSlash_snoc front fun hn => ?_
          rw [hn, resolve_snoc] at hr
          cases hfront : disk.resolve front with
          | error cause => rw [hfront] at hr; cases hr
          | ok target =>
            rw [hfront] at hr
            have hs : disk.step target "" = .ok place := hr
            have hd := step_dir hs
            rw [step, hd] at hs
            obtain rfl : target = place := Except.ok.inj hs
            rw [hd] at he
            cases he

end Disk

namespace FileLock

variable {path : Path} {disk : Disk}

/-- An attempt finds no file to open, or the file held by another, or takes it. -/
theorem acquire_cases (path : Path) (disk : Disk) (hf : disk.Filled) :
    (∃ cause, disk.openFile path = .error cause ∧
      acquire path disk = (.error (.file cause), disk)) ∨
    ∃ file opened, disk.openFile path = .ok (file, opened) ∧
      opened.Leads path file ∧ opened.Filled ∧ Disk.Extends disk opened ∧
      ((disk.Leads path file ∧ opened = disk) ∨ file = disk.files.length) ∧
      ((file ∈ disk.locked ∧
          acquire path disk = (.error (.file .lockHeld), opened.setContent file [])) ∨
        (file ∉ disk.locked ∧ acquire path disk = (.ok ⟨file, path⟩,
          { opened.setContent file (ownerText disk.process) with
            locked := file :: disk.locked }))) := by
  cases ho : disk.openFile path with
  | error cause => exact Or.inl ⟨cause, rfl, by rw [acquire, ho]⟩
  | ok found =>
    obtain ⟨file, opened⟩ := found
    obtain ⟨hl, hfo, hx, hw⟩ := Disk.openFile_leads hf ho
    refine Or.inr ⟨file, opened, rfl, hl, hfo, hx, hw, ?_⟩
    rw [acquire, ho]
    by_cases hm : file ∈ disk.locked
    · have hmo : file ∈ opened.locked := hx.locked ▸ hm
      exact Or.inl ⟨hm, by simp only [if_pos hmo]⟩
    · have hmo : file ∉ opened.locked := hx.locked ▸ hm
      refine Or.inr ⟨hm, ?_⟩
      simp only [if_neg hmo, hx.process]
      rw [Disk.setContent, hx.locked]

theorem ownerText_ne_nil (process : Nat) : ownerText process ≠ [] := by simp [ownerText]

end FileLock

inductive LockEvent where
  | attempt (process : Nat) (path : Path)
  | drop (index : Nat)
  deriving DecidableEq, Repr

structure Hold where
  lock : FileLock
  owner : Nat
  /-- Whether an attempt on the file was refused since the lock was taken. -/
  contested : Bool
  deriving DecidableEq, Repr

def Hold.refuse (found : Option FileId) (hold : Hold) : Hold :=
  { hold with contested := hold.contested || decide (found = some hold.lock.file) }

theorem Hold.refuse_of_ne {found : Option FileId} {hold : Hold}
    (h : found ≠ some hold.lock.file) : hold.refuse found = hold := by
  rw [refuse, decide_eq_false h, Bool.or_false]

def Hold.text (hold : Hold) : Bytes :=
  if hold.contested then [] else FileLock.ownerText hold.owner

theorem Hold.text_refuse_self (hold : Hold) :
    (hold.refuse (some hold.lock.file)).text = [] := by
  simp [text, refuse]

theorem Hold.text_eq_ownerText_iff (hold : Hold) :
    hold.text = FileLock.ownerText hold.owner ↔ hold.contested = false := by
  rw [text]
  cases hold.contested with
  | false => simp
  | true => simpa using (FileLock.ownerText_ne_nil hold.owner).symm

structure LockScene where
  disk : Disk
  holds : List Hold := []

namespace LockScene

def step (scene : LockScene) : LockEvent → LockScene
  | .attempt process path =>
    match FileLock.acquire path { scene.disk with process } with
    | (.ok lock, disk) => { disk, holds := ⟨lock, process, false⟩ :: scene.holds }
    | (.error _, disk) =>
      { disk, holds := scene.holds.map (Hold.refuse (scene.disk.find path).toOption) }
  | .drop index =>
    match scene.holds[index]? with
    | none => scene
    | some hold => { disk := hold.lock.release scene.disk, holds := scene.holds.eraseIdx index }

def run (scene : LockScene) (events : List LockEvent) : LockScene := events.foldl step scene

structure Sound (scene : LockScene) : Prop where
  filled : scene.disk.Filled
  locked : scene.disk.locked.Perm (scene.holds.map (·.lock.file))
  files : (scene.holds.map (·.lock.file)).Nodup
  leads : ∀ hold ∈ scene.holds, scene.disk.Leads hold.lock.path hold.lock.file
  content : ∀ hold ∈ scene.holds, scene.disk.content hold.lock.file = hold.text

namespace Sound

variable {scene : LockScene}

theorem start {disk : Disk} (hf : disk.Filled) (hl : disk.locked = []) : Sound ⟨disk, []⟩ where
  filled := hf
  locked := .of_eq hl
  files := List.nodup_nil
  leads _ h := absurd h List.not_mem_nil
  content _ h := absurd h List.not_mem_nil

theorem mem_locked (h : scene.Sound) (file : FileId) :
    file ∈ scene.disk.locked ↔ ∃ hold ∈ scene.holds, hold.lock.file = file := by
  rw [h.locked.mem_iff, List.mem_map]

/-- A path leads to one file, so two handles never have the same path. -/
theorem paths (h : scene.Sound) : (scene.holds.map (·.lock.path)).Nodup := by
  refine (List.Nodup.of_map _ h.files).map_on fun a ha b hb hp => ?_
  have hfile : a.lock.file = b.lock.file := by
    have hl := h.leads a ha
    rw [hp] at hl
    exact hl.unique (h.leads b hb)
  exact List.inj_on_of_nodup_map h.files ha hb hfile

theorem read (h : scene.Sound) {hold : Hold} (hm : hold ∈ scene.holds) :
    scene.disk.read hold.lock.path = .ok hold.text := by
  rw [(h.leads hold hm).read, h.content hold hm]

theorem asking (h : scene.Sound) (process : Nat) :
    Sound { scene with disk := { scene.disk with process } } where
  filled := h.filled
  locked := h.locked
  files := h.files
  leads hold hm := (h.leads hold hm).mono fun _ _ he => he
  content := h.content

theorem refuse (h : scene.Sound) {path : Path} {file : FileId}
    (hl : scene.disk.Leads path file) :
    Sound ⟨scene.disk.setContent file [], scene.holds.map (Hold.refuse (some file))⟩ where
  filled place i he := by
    rw [Disk.length_setContent]
    exact h.filled place i he
  locked := by
    rw [List.map_map]
    exact h.locked
  files := by
    rw [List.map_map]
    exact h.files
  leads := by
    intro hold hm
    obtain ⟨held, hh, rfl⟩ := List.mem_map.mp hm
    exact (h.leads held hh).mono fun _ _ he => he
  content := by
    intro hold hm
    obtain ⟨held, hh, rfl⟩ := List.mem_map.mp hm
    show (scene.disk.setContent file []).content held.lock.file = _
    by_cases hf : file = held.lock.file
    · subst hf
      rw [Disk.content_setContent (hl.lt_length h.filled), Hold.text_refuse_self]
    · rw [Disk.content_setContent_ne hf, Hold.refuse_of_ne fun hc => hf (Option.some.inj hc),
        h.content held hh]

theorem grant (h : scene.Sound) {path : Path} {file : FileId} {opened : Disk}
    (hl : opened.Leads path file) (hf : opened.Filled) (hx : Disk.Extends scene.disk opened)
    (hfree : file ∉ scene.disk.locked) (process : Nat) :
    Sound ⟨{ opened.setContent file (FileLock.ownerText process) with
        locked := file :: scene.disk.locked },
      ⟨⟨file, path⟩, process, false⟩ :: scene.holds⟩ where
  filled place i he := by
    show i < (opened.setContent file _).files.length
    rw [Disk.length_setContent]
    exact hf place i he
  locked := h.locked.cons file
  files := by
    rw [List.map_cons, List.nodup_cons]
    exact ⟨fun hm => hfree (h.locked.mem_iff.mpr hm), h.files⟩
  leads := by
    intro hold hm
    rcases List.mem_cons.mp hm with rfl | hm
    · exact hl.mono fun _ _ he => he
    · exact (h.leads hold hm).mono hx.entry
  content := by
    intro hold hm
    show (opened.setContent file _).content hold.lock.file = _
    rcases List.mem_cons.mp hm with rfl | hm
    · exact Disk.content_setContent (hl.lt_length hf) _
    · have hne : file ≠ hold.lock.file := fun hc =>
        hfree ((h.mem_locked file).mpr ⟨hold, hm, hc.symm⟩)
      rw [Disk.content_setContent_ne hne, hx.content, h.content hold hm]

theorem leads_of_held (h : scene.Sound) {path : Path} {file : FileId} {opened : Disk}
    (hm : file ∈ scene.disk.locked)
    (hw : (scene.disk.Leads path file ∧ opened = scene.disk) ∨
      file = scene.disk.files.length) : scene.disk.Leads path file ∧ opened = scene.disk := by
  rcases hw with hw | hw
  · exact hw
  · obtain ⟨hold, hh, rfl⟩ := (h.mem_locked file).mp hm
    exact absurd hw (Nat.ne_of_lt ((h.leads hold hh).lt_length h.filled))

theorem attempt (h : scene.Sound) (process : Nat) (path : Path) :
    (scene.step (.attempt process path)).Sound := by
  have hp := h.asking process
  rw [step]
  rcases FileLock.acquire_cases path { scene.disk with process } hp.filled with
    ⟨cause, ho, ha⟩ | ⟨file, opened, -, hl, hf, hx, hw, ⟨hm, ha⟩ | ⟨hm, ha⟩⟩
  · -- nothing was opened, so no hold is affected
    rw [ha]
    have hnone : ∀ hold ∈ scene.holds,
        hold.refuse (scene.disk.find path).toOption = hold := by
      intro hold hm
      refine Hold.refuse_of_ne fun hc => ?_
      cases hfind : scene.disk.find path with
      | error fault => rw [hfind] at hc; cases hc
      | ok id =>
        have hl : Disk.Leads { scene.disk with process } path id := Disk.leads_of_find hfind
        rw [hl.openFile] at ho
        cases ho
    have hmap : scene.holds.map (Hold.refuse (scene.disk.find path).toOption) = scene.holds :=
      (List.map_congr_left hnone).trans (List.map_id' _)
    dsimp only
    rw [hmap]
    exact hp
  · obtain ⟨hlead, rfl⟩ := hp.leads_of_held hm hw
    have hfind : scene.disk.find path = .ok file := hlead.find
    rw [ha, hfind]
    exact hp.refuse hlead
  · rw [ha]
    exact hp.grant hl hf hx hm process

theorem drop (h : scene.Sound) (index : Nat) : (scene.step (.drop index)).Sound := by
  rw [step]
  cases hi : scene.holds[index]? with
  | none => exact h
  | some hold =>
    have hs : (scene.holds.eraseIdx index).Sublist scene.holds := List.eraseIdx_sublist ..
    have hperm : scene.holds.Perm (hold :: scene.holds.eraseIdx index) := by
      obtain ⟨hlt, rfl⟩ := List.getElem?_eq_some_iff.mp hi
      exact (List.getElem_cons_eraseIdx_perm hlt).symm
    refine ⟨h.filled, ?_, h.files.sublist (hs.map _), fun held hm => ?_, fun held hm => ?_⟩
    · have hl := (h.locked.trans (hperm.map _)).erase hold.lock.file
      rwa [List.map_cons, List.erase_cons_head] at hl
    · exact (h.leads held (hs.subset hm)).mono fun _ _ he => he
    · exact h.content held (hs.subset hm)

theorem step (h : scene.Sound) (event : LockEvent) : (scene.step event).Sound := by
  cases event with
  | attempt process path => exact h.attempt process path
  | drop index => exact h.drop index

theorem run (h : scene.Sound) (events : List LockEvent) : (scene.run events).Sound := by
  induction events generalizing scene with
  | nil => exact h
  | cons event events ih => exact ih (h.step event)

/-- A refused attempt leaves the disk as it was, but for the text of a holder of its file. -/
theorem refused (h : scene.Sound) {process : Nat} {path : Path} {fault : Fault} {next : Disk}
    (ha : FileLock.acquire path { scene.disk with process } = (.error fault, next)) :
    next = { scene.disk with process } ∨
      ∃ hold ∈ scene.holds, scene.disk.find path = .ok hold.lock.file ∧
        fault = .file .lockHeld ∧
        next = Disk.setContent { scene.disk with process } hold.lock.file [] := by
  have hp := h.asking process
  rcases FileLock.acquire_cases path { scene.disk with process } hp.filled with
    ⟨cause, -, hc⟩ | ⟨file, opened, -, -, -, -, hw, ⟨hm, hc⟩ | ⟨-, hc⟩⟩
  · exact Or.inl (congrArg Prod.snd (ha.symm.trans hc))
  · obtain ⟨hlead, rfl⟩ := hp.leads_of_held hm hw
    obtain ⟨hold, hh, rfl⟩ := (hp.mem_locked file).mp hm
    obtain ⟨hfault, hnext⟩ := Prod.mk.inj (ha.symm.trans hc)
    exact Or.inr ⟨hold, hh, hlead.find, Except.error.inj hfault, hnext⟩
  · rw [hc] at ha
    cases ha

end Sound

/-- However processes try for lock files and give them up, no path and no file has two holders.
What stands in a held file is its holder's text until the first attempt on it is refused, and
nothing from then on; apart from that, an attempt that fails changes nothing. -/
theorem locks_of_run {disk : Disk} (hf : disk.Filled) (hl : disk.locked = [])
    (events : List LockEvent) :
    let scene := run ⟨disk, []⟩ events
    (scene.holds.map (·.lock.path)).Nodup ∧ (scene.holds.map (·.lock.file)).Nodup ∧
      (∀ hold ∈ scene.holds,
        scene.disk.read hold.lock.path =
            .ok (if hold.contested then [] else FileLock.ownerText hold.owner) ∧
          (scene.disk.read hold.lock.path = .ok (FileLock.ownerText hold.owner) ↔
            hold.contested = false)) ∧
      ∀ process path fault next,
        FileLock.acquire path { scene.disk with process } = (.error fault, next) →
        next = { scene.disk with process } ∨
          ∃ hold ∈ scene.holds, scene.disk.find path = .ok hold.lock.file ∧
            fault = .file .lockHeld ∧
            next = Disk.setContent { scene.disk with process } hold.lock.file [] := by
  intro scene
  have hs : scene.Sound := (Sound.start hf hl).run events
  refine ⟨hs.paths, hs.files, fun hold hm => ⟨hs.read hm, ?_⟩, fun process path fault next => ?_⟩
  · rw [hs.read hm, Except.ok.injEq]
    exact hold.text_eq_ownerText_iff
  · exact hs.refused

def crossing : LockScene :=
  run ⟨{}, []⟩ [.attempt 1 ["psf.lock"], .attempt 2 ["other.lock"], .attempt 2 ["psf.lock"]]

theorem locks_of_crossing : Disk.Filled {} ∧ ({} : Disk).locked = [] ∧
    crossing.holds.map (fun hold => (hold.owner, hold.contested)) = [(2, false), (1, true)] ∧
    ∀ hold ∈ crossing.holds, crossing.disk.read hold.lock.path =
      .ok (if hold.contested then [] else FileLock.ownerText hold.owner) :=
  have hf : Disk.Filled {} := Disk.WellFormed.empty.inRange
  ⟨hf, rfl, by decide +kernel, fun hold hm => ((locks_of_run hf rfl _).2.2.1 hold hm).1⟩

/-- The text of a holder is gone once another process was refused the lock. -/
theorem text_lost_to_refusal :
    ¬ ∀ hold ∈ (run ⟨{}, []⟩ [.attempt 1 ["psf.lock"], .attempt 2 ["psf.lock"]]).holds,
      (run ⟨{}, []⟩ [.attempt 1 ["psf.lock"], .attempt 2 ["psf.lock"]]).disk.read hold.lock.path =
        .ok (FileLock.ownerText hold.owner) := by
  decide +kernel

end LockScene

end PredicateIndex
