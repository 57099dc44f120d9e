import PredicateIndex.Proofs.DirectoryWork
import PredicateIndex.Proofs.FailedRecovery
import PredicateIndex.Proofs.StoreFiles
import PredicateIndex.Proofs.TokenNames

/-!
# What a recovery looks at

A recovery walks the entries of the disk and reads files of its own directory
only. So it comes to the same result and the same store whatever the bytes of
all other files are, and in particular after stores in other directories have
been recovered.
-/

set_option autoImplicit false

namespace PredicateIndex

namespace Disk

variable {kept : Path → Prop} {disk other last : Disk} {place path : Path} {id : FileId}

structure SameAt (kept : Path → Prop) (disk other : Disk) : Prop where
  entries : other.entries = disk.entries
  length : other.files.length = disk.files.length
  content : ∀ p id, kept p → disk.entry? p = some (.file id) → other.content id = disk.content id

theorem entry?_congr (h : other.entries = disk.entries) : other.entry? = disk.entry? := by
  funext p
  rw [ entry?, entry?, h]

theorem locate_congr (h : other.entries = disk.entries) (path : Path) :
    other.locate path = disk.locate path := by
  have hstep : other.step = disk.step := by
    funext p component
    rw [step, step, entry?_congr h]
  rw [locate, locate, resolve, resolve, hstep, entry?_congr h]

theorem find_congr (h : other.entries = disk.entries) (path : Path) :
    other.find path = disk.find path := by
  rw [find, find, locate_congr h]

namespace SameAt

theorem refl (kept : Path → Prop) (disk : Disk) : SameAt kept disk disk :=
  ⟨rfl, rfl, fun _ _ _ _ => rfl⟩

theorem trans (h : SameAt kept disk other) (ho : SameAt kept other last) :
    SameAt kept disk last where
  entries := ho.entries.trans h.entries
  length := ho.length.trans h.length
  content p id hp he :=
    (ho.content p id hp ( entry?_congr h.entries ▸ he)).trans (h.content p id hp he)

theorem ofWrites (h : WritesOnly id disk other)
    (he : ∀ p, kept p → disk.entry? p ≠ some (.file id)) : SameAt kept disk other where
  entries := h.entries
  length := h.length
  content p i hp hi := h.content i fun heq => he p hp (heq ▸ hi)

theorem setLength (h : SameAt kept disk other) (hp : kept place)
    (he : disk.entry? place = some (.file id)) (hr : id < disk.files.length) (n : Nat) :
    SameAt kept (disk.setLength id n) (other.setLength id n) where
  entries := h.entries
  length := by
    rw [Disk.setLength, Disk.setLength, length_setContent, length_setContent, h.length]
  content p i hkept hi := by
    rw [Disk.setLength, Disk.setLength]
    by_cases hid : id = i
    · subst hid
      rw [content_setContent (h.length ▸ hr), content_setContent hr, h.content place id hp he]
    · rw [content_setContent_ne hid, content_setContent_ne hid]
      exact h.content p i hkept hi

theorem read_eq (h : SameAt kept disk other)
    (hf : ∀ id, disk.find path = .ok id → ∃ p, kept p ∧ disk.entry? p = some (.file id)) :
    other.read path = disk.read path := by
  rw [read, read, find_congr h.entries]
  cases hid : disk.find path with
  | error cause => rfl
  | ok id =>
    obtain ⟨p, hp, he⟩ := hf id hid
    exact congrArg Except.ok (h.content p id hp he)

end SameAt

theorem entry?_of_find (h : disk.find path = .ok id) :
    ∃ target, disk.resolve path = .ok target ∧ disk.entry? target = some (.file id) := by
  rw [find, locate] at h
  cases hr : disk.resolve path with
  | error cause =>
    rw [hr] at h
    cases h
  | ok target =>
    refine ⟨target, rfl, ?_⟩
    rw [hr] at h
    cases he : disk.entry? target with
    | none => simp [bind, Except.bind, he, throw, throwThe, MonadExceptOf.throw] at h
    | some entry =>
      cases entry with
      | directory =>
        simp [bind, Except.bind, he, pure, Except.pure, throw, throwThe, MonadExceptOf.throw] at h
      | file i =>
        simp [bind, Except.bind, he, pure, Except.pure] at h
        rw [h]

end Disk

namespace CheckpointDir

variable {kept : Path → Prop} {disk other : Disk} {dir place : Path}

theorem entry?_of_find_part (hd : Disk.Homed disk dir place) {token : Token} {name : String}
    (hn : Path.Plain name) {id : FileId}
    (h : disk.find ((tokenDir dir token).child name) = .ok id) :
    disk.entry? (place ++ ["checkpoints", token.text, name]) = some (.file id) := by
  have hroot : Path.Plain "checkpoints" := by decide
  have htoken : Path.Plain token.text := token.plain_text
  obtain ⟨target, hr, he⟩ := Disk.entry?_of_find h
  obtain ⟨second, hsecond, rfl⟩ := Disk.homed_of_resolve_child hn hr
  have hparent := hsecond.resolve
  rw [tokenDir, Path.stem_child _ htoken.1] at hparent
  obtain ⟨first, hfirst, rfl⟩ := Disk.homed_of_resolve_child htoken hparent
  have hgrand := hfirst.resolve
  rw [root, Path.stem_child _ hroot.1] at hgrand
  obtain ⟨start, hstart, rfl⟩ := Disk.homed_of_resolve_child hroot hgrand
  obtain rfl := hd.unique hstart
  simpa using he

theorem read_congr {α : Type} (hd : Disk.Homed disk dir place) (hs : Disk.SameAt kept disk other)
    {token : Token} {name : String} (hk : kept (place ++ ["checkpoints", token.text, name]))
    (hn : Path.Plain name) (value : Reader α) :
    read dir token name value other = read dir token name value disk := by
  rw [read, read, hs.read_eq fun id hf => ⟨_, hk, entry?_of_find_part hd hn hf⟩]

theorem tokensWith_congr (h : other.entries = disk.entries) (dir : Path) (name : String) :
    tokensWith dir name other = tokensWith dir name disk := by
  have hchildren : other.children = disk.children := by
    funext p
    rw [Disk.children, Disk.children, h]
  have hexists : ∀ path, other.exists? path = disk.exists? path := fun path => by
    rw [Disk.exists?, Disk.exists?, Disk.locate_congr h]
  rw [tokensWith, tokensWith, Disk.locate_congr h]
  simp only [hchildren, hexists]

end CheckpointDir

namespace Store

variable {kept : Path → Prop} {store : Store} {disk other : Disk} {place : Path}
  {index log : Option Token}

def KeepsDir (kept : Path → Prop) (place : Path) : Prop :=
  ∀ rest, rest ≠ [lockFile] → kept (place ++ rest)

theorem keepsDir_below (place : Path) : KeepsDir (place <+: ·) place :=
  fun rest _ => List.prefix_append place rest

theorem recoverySource_frame (hd : Disk.Homed disk store.dir place) (hk : KeepsDir kept place)
    (hs : Disk.SameAt kept disk other) (index log : Option Token) :
    store.recoverySource index log other = store.recoverySource index log disk := by
  have hlog : ∀ token, CheckpointDir.readLog store.dir token other =
      CheckpointDir.readLog store.dir token disk := fun token =>
    CheckpointDir.read_congr hd hs (hk _ (by simp)) (by decide) _
  have hindex : ∀ token, CheckpointDir.readIndex store.dir token other =
      CheckpointDir.readIndex store.dir token disk := fun token =>
    CheckpointDir.read_congr hd hs (hk _ (by simp)) (by decide) _
  simp only [recoverySource, chooseLog, chooseIndex, CheckpointDir.latestLog,
    CheckpointDir.latestIndexBefore, CheckpointDir.tokensWith_congr hs.entries, hlog, hindex]

theorem Stands.scan_frame (h : store.Stands disk place) (hk : kept (place ++ [Log.fileName]))
    (hs : Disk.SameAt kept disk other) (source : RecoverySource) :
    (store.restored source).log.scan source.replayFrom source.log.tail.toNat
        (store.truncated source other) =
      (store.restored source).log.scan source.replayFrom source.log.tail.toNat
        (store.truncated source disk) := by
  have hn : Path.Plain Log.fileName := by decide
  have hrange := h.wellFormed.inRange _ _ h.entry
  have hread : (store.truncated source other).read store.log.path =
      (store.truncated source disk).read store.log.path := by
    refine (hs.setLength hk h.entry hrange source.log.tail.toNat).read_eq fun id hf => ?_
    obtain ⟨target, hr, he⟩ := Disk.entry?_of_find hf
    rw [h.path] at hr
    obtain ⟨start, hstart, rfl⟩ := Disk.homed_of_resolve_child hn hr
    have hdirs : ∀ p, disk.entry? p = some .directory →
        Disk.entry? (store.truncated source disk) p = some .directory := fun _ hp => hp
    have hhome : Disk.Homed (store.truncated source disk) store.dir place := h.homed.mono hdirs
    obtain rfl := hhome.unique hstart
    exact ⟨_, hk, he⟩
  have hpath : (store.restored source).log.path = store.log.path := rfl
  simp only [Log.scan, hpath, hread]

/-- A recovery comes to the same result and the same store, and leaves the files the same. -/
theorem Stands.recover_frame (h : store.Stands disk place) (hk : KeepsDir kept place)
    (hs : Disk.SameAt kept disk other) (index log : Option Token) :
    (store.recover index log other).1 = (store.recover index log disk).1 ∧
      (store.recover index log other).2.1 = (store.recover index log disk).2.1 ∧
      Disk.SameAt kept (store.recover index log disk).2.2 (store.recover index log other).2.2 := by
  have hlogs : kept (place ++ [Log.fileName]) := hk _ (by decide)
  have hcontent := hs.content _ _ hlogs h.entry
  have hrange := h.wellFormed.inRange _ _ h.entry
  have hsource := recoverySource_frame h.homed hk hs index log
  by_cases hempty : store.log.isEmpty = true
  · cases hc : store.recoverySource index log disk with
    | error fault =>
      rw [hc] at hsource
      simp only [Store.recover, hempty, hc, hsource]
      exact ⟨rfl, rfl, hs⟩
    | ok source =>
      rw [hc] at hsource
      by_cases hreach : source.log.tail.toNat ≤ (disk.content store.log.file).length
      · have hadmits : store.Admits index log disk source := ⟨hempty, hc, hreach⟩
        have hadmitted : store.Admits index log other source :=
          ⟨hempty, hsource, by rw [hcontent]; exact hreach⟩
        have hcut := hs.setLength hlogs h.entry hrange source.log.tail.toNat
        rw [hadmits.recover_eq, hadmitted.recover_eq, replayFrom, replayFrom,
          h.scan_frame hlogs hs]
        split <;> exact ⟨rfl, rfl, hcut⟩
      · have hshort := Nat.lt_of_not_le hreach
        simp only [Store.recover, hempty, hc, hsource, Log.restore, hcontent, hshort, if_true]
        exact ⟨rfl, rfl, hs⟩
  · simp only [Store.recover, hempty]
    exact ⟨rfl, rfl, hs⟩

theorem Stands.content_recover (h : store.Stands disk place) (hk : KeepsDir kept place)
    (hs : Disk.SameAt kept disk other) (index log : Option Token) :
    (store.recover index log other).2.2.content store.log.file =
      (store.recover index log disk).2.2.content store.log.file := by
  obtain ⟨-, -, hsame⟩ := h.recover_frame hk hs index log
  refine hsame.content _ _ (hk [Log.fileName] (by decide)) ?_
  rw [(writesOnly_recover store index log disk).entry?_eq, h.entry]

end Store

end PredicateIndex
