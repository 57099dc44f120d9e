import PredicateIndex.Proofs.GroupIndex

/-!
# Where the log of a store stands

Every operation of a store works on one file, the one at the log's place in the
directory of the store, and on its checkpoints. This holds whatever the file
contains and whatever became of a recovery, so it can be said of stores that
still await recovery or whose recovery has failed.
-/

set_option autoImplicit false

namespace PredicateIndex

theorem Log.flush_file (log : Log) (disk : Disk) :
    (log.flush disk).1.path = log.path ∧ (log.flush disk).1.file = log.file := by
  rw [Log.flush]
  split <;> exact ⟨rfl, rfl⟩

namespace Store

structure Stands (store : Store) (disk : Disk) (place : Path) : Prop where
  wellFormed : disk.WellFormed
  homed : Disk.Homed disk store.dir place
  path : store.log.path = store.dir.child Log.fileName
  entry : disk.entry? (place ++ [Log.fileName]) = some (.file store.log.file)

structure Stays (place : Path) (store : Store) (disk : Disk) (after : Store) (other : Disk) :
    Prop where
  stands : after.Stands other place
  dir : after.dir = store.dir
  spares : Disk.Spares (Outside place) disk other

theorem Keeps.stands {store : Store} {disk : Disk} {place : Path} {history : List LogRecord}
    (h : store.Keeps disk place history) : store.Stands disk place :=
  ⟨h.wellFormed, h.homed, h.path, h.entry⟩

namespace Stands

variable {store after : Store} {disk other : Disk} {place : Path}

theorem frame {spared : Path → Prop} (h : store.Stands disk place)
    (hs : Disk.Spares spared disk other) (hp : spared (place ++ [Log.fileName])) :
    store.Stands other place :=
  ⟨hs.wellFormed, h.homed.mono hs.directory, h.path, (hs.file _ _ hp h.entry).1⟩

theorem readAt (h : store.Stands disk place) (offset count : Nat) :
    disk.readAt store.log.path offset count =
      if Disk.offsetLimit ≤ offset + count then .error .invalidInput
      else .ok (disk.content store.log.file) := by
  have hn : Path.Plain Log.fileName := by decide
  rw [h.path, Disk.readAt, h.homed.locate_child hn h.entry]
  simp only [bind, Except.bind]
  split <;> rfl

theorem readAt_frame {spared : Path → Prop} (h : store.Stands disk place)
    (hs : Disk.Spares spared disk other) (hp : spared (place ++ [Log.fileName]))
    (offset count : Nat) :
    other.readAt store.log.path offset count = disk.readAt store.log.path offset count := by
  rw [h.readAt, (h.frame hs hp).readAt, (hs.file _ _ hp h.entry).2]

theorem congr (h : store.Stands disk place) (hd : after.dir = store.dir)
    (hl : after.log = store.log) : store.Stays place disk after disk where
  stands := ⟨h.wellFormed, hd ▸ h.homed, by rw [hl, hd, h.path], by rw [hl, h.entry]⟩
  dir := hd
  spares := .refl h.wellFormed

theorem writes (h : store.Stands disk place) (hw : Disk.WritesOnly store.log.file disk other)
    (hd : after.dir = store.dir) (hp : after.log.path = store.log.path)
    (hf : after.log.file = store.log.file) : store.Stays place disk after other where
  stands :=
    { wellFormed := hw.wellFormed h.wellFormed
      homed := hd ▸ h.homed.mono fun p he => by rw [hw.entry?_eq p, he]
      path := by rw [hp, hd, h.path]
      entry := by rw [hf, hw.entry?_eq, h.entry] }
  dir := hd
  spares := (hw.spares h.wellFormed h.entry).weaken fun p hp => hp.1

end Stands

namespace Stays

variable {store middle after : Store} {disk opened other : Disk} {place : Path}

theorem trans (h : store.Stays place disk middle opened) (ha : middle.Stays place opened after other) :
    store.Stays place disk after other :=
  ⟨ha.stands, ha.dir.trans h.dir, h.spares.trans ha.spares⟩

theorem spared {spared : Path → Prop} (h : store.Stands disk place)
    (hs : Disk.Spares spared disk other) (ho : ∀ p, Outside place p → spared p)
    (hp : spared (place ++ [Log.fileName])) : store.Stays place disk store other :=
  ⟨h.frame hs hp, rfl, hs.weaken ho⟩

end Stays

namespace Stands

variable {store : Store} {disk : Disk} {place : Path}

theorem flush (h : store.Stands disk place) :
    store.Stays place disk (store.flush disk).1 (store.flush disk).2 := by
  obtain ⟨hp, hf⟩ := Log.flush_file store.log disk
  exact h.writes (Log.Holds.writesOnly_flush store.log disk) rfl hp hf

theorem evict (h : store.Stands disk place) :
    store.Stays place disk (store.evict disk).1 (store.evict disk).2 := by
  obtain ⟨hp, hf⟩ := Log.flush_file store.log disk
  exact h.writes (Log.Holds.writesOnly_evict store.log disk) rfl hp hf

theorem evictIfFull (h : store.Stands disk place) :
    store.Stays place disk (store.evictIfFull disk).1 (store.evictIfFull disk).2 := by
  rw [Store.evictIfFull]
  split
  · exact h.evict
  · exact h.congr rfl rfl

theorem complete (h : store.Stands disk place) :
    store.Stays place disk (store.complete disk).2.1 (store.complete disk).2.2 := by
  cases hc : store.captured with
  | none =>
    rw [Store.complete, hc]
    exact h.congr rfl rfl
  | some captured =>
    refine complete_keeps (fun after other => store.Stays place disk after other) hc ?_ ?_ ?_
    · rw [Store.beforeParts]
      split
      · exact h.flush
      · exact h.congr rfl rfl
    · intro name hn part after other hk
      have hs := CheckpointDir.spares_writePart after.dir hn part hk.stands.wellFormed
      exact hk.trans (.spared hk.stands hs (fun p hp => hp.2 name hn) (apart_log place name hn))
    · exact fun _ _ hk => hk.trans (hk.stands.congr rfl rfl)

/-- Every operation of a store works on its own files. -/
theorem step (h : store.Stands disk place) (op : Op) :
    store.Stays place disk (Store.step op (store, disk)).1 (Store.step op (store, disk)).2 := by
  have hd := does_step op store disk
  generalize Store.step op (store, disk) = after at hd ⊢
  cases hd with
  | @written session key id tombstone =>
    have hw : store.Stays place disk (store.write key id tombstone) disk :=
      h.writes (.refl store.log.file disk) rfl rfl rfl
    exact hw.trans hw.stands.evictIfFull
  | flush => exact h.flush
  | evict => exact h.evict
  | complete => exact h.complete
  | _ => exact h.congr rfl rfl

theorem recover (h : store.Stands disk place) (index log : Option Token) :
    store.Stays place disk (store.recover index log disk).2.1 (store.recover index log disk).2.2 := by
  rw [Store.recover]
  split
  · exact h.congr rfl rfl
  · split
    · exact h.congr rfl rfl
    · rename_i source _
      split
      · exact h.congr rfl rfl
      · rename_i restored cut hrestore
        obtain ⟨-, rfl, rfl⟩ := Log.restore_ok hrestore
        have hw := Disk.writesOnly_setContent disk store.log.file
          ((disk.content store.log.file).resize source.log.tail.toNat)
        dsimp only
        rw [replayFrom]
        split
        · exact h.writes hw rfl rfl rfl
        · exact h.writes hw rfl rfl rfl

theorem put (h : store.Stands disk place) (key : CompositeKey) (id : RecordId) (tombstone : Bool) :
    store.Stays place disk (store.put key id tombstone disk).2.1
      (store.put key id tombstone disk).2.2 := by
  have hb : store.Stays place disk store.acquire.2 disk := h.congr rfl rfl
  have hstep := hb.stands.step (.upsert store.acquire.1 key id tombstone)
  rw [Store.put]
  rw [Store.step] at hstep
  dsimp only
  cases hu : store.acquire.2.upsert store.acquire.1 key id tombstone disk with
  | error fault => exact hb.trans (hb.stands.congr rfl rfl)
  | ok written =>
    obtain ⟨address, session, written, other⟩ := written
    rw [hu] at hstep
    exact (hb.trans hstep).trans (hstep.stands.congr rfl rfl)

end Stands

end Store

end PredicateIndex
