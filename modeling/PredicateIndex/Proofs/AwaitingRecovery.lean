import PredicateIndex.Proofs.RepeatedOpenings
import PredicateIndex.Proofs.SessionAccounts

/-!
# What comes before a recovery

Stores are opened in a directory that holds a log checkpoint, used and closed
again, but not recovered. They refuse writes and checkpoints, keep no heads, and
no session has written anything. None of it touches the records and checkpoints
of the directory, so a recovery afterwards comes to what it would have come to
when the first store had just been opened.
-/

set_option autoImplicit false

namespace PredicateIndex

namespace SessionPool

structure Unused (pool : SessionPool) : Prop where
  idle : ∀ session ∈ pool.idle, session.serial = 0
  points : ∀ point ∈ pool.commitPoints, point.2 = 0

variable {pool : SessionPool} {session : Session}

theorem unused_ofCapacity (capacity : Capacity) : (ofCapacity capacity).Unused :=
  ⟨by simp [ofCapacity], by simp [ofCapacity]⟩

namespace Unused

theorem acquire (h : pool.Unused) : pool.acquire.1.serial = 0 ∧ pool.acquire.2.Unused := by
  rw [SessionPool.acquire]
  cases hi : pool.idle with
  | nil =>
    refine ⟨?_, ⟨by simp, h.points⟩⟩
    show (pool.commitPoints.lookup pool.nextId).getD 0 = 0
    cases hp : pool.commitPoints.lookup pool.nextId with
    | none => rfl
    | some serial => exact h.points _ (Lookup.mem_of_eq_some hp)
  | cons first rest =>
    have hidle := h.idle
    rw [hi] at hidle
    obtain ⟨hfirst, hrest⟩ := List.forall_mem_cons.mp hidle
    exact ⟨hfirst, ⟨hrest, h.points⟩⟩

theorem release (h : pool.Unused) (hs : session.serial = 0) : (pool.release session).Unused := by
  refine ⟨fun other ho => ?_, fun point hp => ?_⟩
  · rw [SessionPool.release] at ho
    dsimp only at ho
    split at ho
    · rcases List.mem_cons.mp ho with rfl | ho
      · exact hs
      · exact h.idle other ho
    · exact h.idle other ho
  · rcases CommitPoints.mem_record hp with rfl | hp
    · exact hs
    · exact h.points point hp

end Unused

end SessionPool

namespace Store

structure Twins (store other : Store) : Prop where
  dir : other.dir = store.dir
  log : other.log = store.log
  heads : other.heads = store.heads
  captured : other.captured = store.captured
  lastCheckpoint : other.lastCheckpoint = store.lastCheckpoint
  awaitingRecovery : other.awaitingRecovery = store.awaitingRecovery

/-- Two recoveries that come to the same: the result, the store, and the files but the lock file of
the directory. The sessions are the same where they are restored. -/
structure SameRecovery (place : Path) (first second : Except Fault Token × Store × Disk) :
    Prop where
  result : second.1 = first.1
  store : first.2.1.Twins second.2.1
  sessions : ∀ token, first.1 = .ok token → second.2.1.sessions =
    { first.2.1.sessions with capacity := second.2.1.sessions.capacity }
  files : Disk.SameAt (· ≠ place ++ [lockFile]) first.2.2 second.2.2

/-- A recovery does not look at the lock, the sessions or the memory of the store. -/
theorem Twins.recover {store other : Store} (h : store.Twins other) (place : Path)
    (index log : Option Token) (disk : Disk) :
    SameRecovery place (store.recover index log disk) (other.recover index log disk) := by
  rw [Store.recover, Store.recover, h.log, recoverySource_congr h.dir]
  split
  · exact ⟨rfl, h, (fun _ hc => by cases hc), .refl _ disk⟩
  · cases store.recoverySource index log disk with
    | error fault => exact ⟨rfl, h, (fun _ hc => by cases hc), .refl _ disk⟩
    | ok source =>
      dsimp only
      cases store.log.restore source.log.start.toNat source.log.tail.toNat disk with
      | error fault => exact ⟨rfl, h, (fun _ hc => by cases hc), .refl _ disk⟩
      | ok restored =>
        obtain ⟨restored, cut⟩ := restored
        dsimp only
        rw [replayFrom, replayFrom]
        cases restored.scan source.replayFrom source.log.tail.toNat cut with
        | error fault =>
          exact ⟨rfl, ⟨h.dir, rfl, rfl, h.captured, h.lastCheckpoint, h.awaitingRecovery⟩,
            (fun _ hc => by cases hc), .refl _ cut⟩
        | ok records =>
          exact ⟨rfl, ⟨h.dir, rfl, rfl, h.captured, rfl, rfl⟩, fun _ _ => rfl, .refl _ cut⟩

theorem flush_blank {store : Store} {file : FileId} {path : Path}
    (h : store.log = Log.empty file path) (disk : Disk) : store.flush disk = (store, disk) := by
  have hflush : (Log.empty file path).flush disk = (Log.empty file path, disk) := rfl
  rw [flush, h, hflush]
  dsimp only
  rw [← h]

theorem evict_blank {store : Store} {file : FileId} {path : Path}
    (h : store.log = Log.empty file path) (disk : Disk) : store.evict disk = (store, disk) := by
  have hevict : (Log.empty file path).evict disk = (Log.empty file path, disk) := rfl
  rw [evict, h, hevict]
  dsimp only
  rw [← h]

end Store

structure OpenStore where
  store : Store
  held : List Session := []
  deriving DecidableEq, Repr

namespace OpenStore

inductive Deed where
  | acquire
  | release (place : Nat)
  | upsert (place : Nat) (key : CompositeKey) (id : RecordId) (tombstone : Bool)
  | read (place address : Nat)
  | readChain (ordinal : UInt8) (key : Bytes) (cancelled : Bool) (dead : DeadRecords)
  | flush
  | evict
  | take (kind : CheckpointKind) (token : Token)
  | abort (token : Token)
  | complete

def onHeld (place : Nat) (opened : OpenStore) (disk : Disk) (use : Session → OpenStore × Disk) :
    OpenStore × Disk :=
  match opened.held[place]? with
  | some session => use session
  | none => (opened, disk)

def step (deed : Deed) (opened : OpenStore) (disk : Disk) : OpenStore × Disk :=
  match deed with
  | .acquire =>
    let (session, store) := opened.store.acquire
    (⟨store, session :: opened.held⟩, disk)
  | .release place => opened.onHeld place disk fun session =>
    (⟨opened.store.release session, opened.held.eraseIdx place⟩, disk)
  | .upsert place key id tombstone => opened.onHeld place disk fun session =>
    match opened.store.upsert session key id tombstone disk with
    | .ok (_, session, store, disk) => (⟨store, opened.held.set place session⟩, disk)
    | .error _ => (opened, disk)
  | .read place address => opened.onHeld place disk fun session =>
    match opened.store.read session address with
    | .ok (_, session) => ({ opened with held := opened.held.set place session }, disk)
    | .error _ => (opened, disk)
  | .readChain ordinal key cancelled dead =>
    ({ opened with store := (opened.store.readChain ordinal key cancelled disk dead).2.1 }, disk)
  | .flush =>
    let (store, disk) := opened.store.flush disk
    ({ opened with store }, disk)
  | .evict =>
    let (store, disk) := opened.store.evict disk
    ({ opened with store }, disk)
  | .take kind token =>
    match opened.store.take kind token with
    | .ok (_, store) => ({ opened with store }, disk)
    | .error _ => (opened, disk)
  | .abort token => ({ opened with store := opened.store.abort token }, disk)
  | .complete =>
    let (_, store, disk) := opened.store.complete disk
    ({ opened with store }, disk)

variable {dir place : Path} {disk other : Disk} {opened : OpenStore}

structure Waits (dir place : Path) (disk : Disk) (opened : OpenStore) : Prop where
  home : opened.store.dir = dir
  log : opened.store.log = Log.empty opened.store.log.file (dir.child Log.fileName)
  entry : disk.entry? (place ++ [Log.fileName]) = some (.file opened.store.log.file)
  heads : opened.store.heads = []
  captured : opened.store.captured = none
  lastCheckpoint : opened.store.lastCheckpoint = none
  awaiting : opened.store.awaitingRecovery = true
  sessions : opened.store.sessions.Unused
  held : ∀ session ∈ opened.held, session.serial = 0

namespace Waits

theorem lend (h : opened.Waits dir place disk) {sessions : SessionPool} (hs : sessions.Unused)
    {held : List Session} (hh : ∀ session ∈ held, session.serial = 0) :
    Waits dir place disk ⟨{ opened.store with sessions }, held⟩ :=
  ⟨h.home, h.log, h.entry, h.heads, h.captured, h.lastCheckpoint, h.awaiting, hs, hh⟩

theorem frame (h : opened.Waits dir place disk)
    (he : other.entry? (place ++ [Log.fileName]) = disk.entry? (place ++ [Log.fileName])) :
    opened.Waits dir place other := { h with entry := he.trans h.entry }

/-- Whatever is done with the store, nothing is written, and it still awaits recovery. -/
theorem step (h : opened.Waits dir place disk) (deed : Deed) :
    ∃ after, opened.step deed disk = (after, disk) ∧ after.Waits dir place disk := by
  have hheld : ∀ {spot : Nat} {session : Session}, opened.held[spot]? = some session →
      session.serial = 0 := fun hs => h.held _ (List.mem_of_getElem? hs)
  cases deed with
  | acquire =>
    obtain ⟨hfirst, hpool⟩ := h.sessions.acquire
    exact ⟨_, rfl, h.lend hpool (List.forall_mem_cons.mpr ⟨hfirst, h.held⟩)⟩
  | release spot =>
    rw [OpenStore.step, onHeld]
    cases hs : opened.held[spot]? with
    | none => exact ⟨opened, rfl, h⟩
    | some session =>
      refine ⟨_, rfl, h.lend (h.sessions.release (hheld hs)) fun other ho => ?_⟩
      exact h.held other (List.mem_of_mem_eraseIdx ho)
  | upsert spot key id tombstone =>
    rw [OpenStore.step, onHeld]
    cases opened.held[spot]? with
    | none => exact ⟨opened, rfl, h⟩
    | some session =>
      dsimp only
      rw [Store.upsert_awaiting h.awaiting]
      exact ⟨opened, rfl, h⟩
  | read spot address =>
    rw [OpenStore.step, onHeld]
    cases hs : opened.held[spot]? with
    | none => exact ⟨opened, rfl, h⟩
    | some session =>
      dsimp only
      cases hr : opened.store.read session address with
      | error fault => exact ⟨opened, rfl, h⟩
      | ok found =>
        obtain ⟨status, after⟩ := found
        refine ⟨_, rfl, h.lend h.sessions fun other ho => ?_⟩
        rcases List.mem_or_eq_of_mem_set ho with ho | rfl
        · exact h.held other ho
        · exact (Store.read_session hr).2.trans (hheld hs)
  | readChain ordinal key cancelled dead =>
    obtain ⟨hfirst, hpool⟩ := h.sessions.acquire
    refine ⟨_, rfl, h.lend (hpool.release ?_) h.held⟩
    have hwalk := Store.walk_session opened.store.acquire.2 cancelled disk
      (opened.store.log.tail + 1)
      { ordinal, key, next := opened.store.heads.head (chainKey ordinal key) }
      opened.store.acquire.1 dead
    exact hwalk.2.trans hfirst
  | flush =>
    rw [OpenStore.step, Store.flush_blank h.log]
    exact ⟨opened, rfl, h⟩
  | evict =>
    rw [OpenStore.step, Store.evict_blank h.log]
    exact ⟨opened, rfl, h⟩
  | take kind token =>
    rw [OpenStore.step, Store.take_awaiting h.awaiting]
    exact ⟨opened, rfl, h⟩
  | abort token =>
    rw [OpenStore.step, Store.abort, h.captured]
    exact ⟨opened, rfl, h⟩
  | complete =>
    rw [OpenStore.step, Store.complete, h.captured]
    exact ⟨opened, rfl, h⟩

theorem twins {later : OpenStore} (h : opened.Waits dir place disk)
    (hl : later.Waits dir place disk) : opened.store.Twins later.store where
  dir := hl.home.trans h.home.symm
  log := by
    have hfile := Entry.file.inj (Option.some.inj (hl.entry.symm.trans h.entry))
    rw [hl.log, h.log, hfile]
  heads := hl.heads.trans h.heads.symm
  captured := hl.captured.trans h.captured.symm
  lastCheckpoint := hl.lastCheckpoint.trans h.lastCheckpoint.symm
  awaitingRecovery := hl.awaiting.trans h.awaiting.symm

theorem stands (h : opened.Waits dir place disk) (hw : disk.WellFormed)
    (hd : Disk.Homed disk dir place) : opened.store.Stands disk place where
  wellFormed := hw
  homed := h.home.symm ▸ hd
  path := by
    rw [h.log, h.home]
    rfl
  entry := h.entry

/-- Two stores that wait, one of them later, come to the same if they are recovered. -/
theorem recover {later : OpenStore} (h : opened.Waits dir place disk) (hw : disk.WellFormed)
    (hd : Disk.Homed disk dir place)
    (hs : Disk.SameAt (· ≠ place ++ [Store.lockFile]) disk other)
    (hl : later.Waits dir place other) (index log : Option Token) :
    Store.SameRecovery place (opened.store.recover index log disk)
      (later.store.recover index log other) := by
  have hk : Store.KeepsDir (· ≠ place ++ [Store.lockFile]) place := by
    intro rest hr hc
    exact hr (List.append_cancel_left hc)
  obtain ⟨hresult, hstore, hfiles⟩ := (h.stands hw hd).recover_frame hk hs index log
  have hother : opened.Waits dir place other := h.frame (by rw [Disk.entry?_congr hs.entries])
  have hsame := (hother.twins hl).recover place index log other
  exact
    { result := hsame.result.trans hresult
      store := hstore ▸ hsame.store
      sessions := fun token ht => hstore ▸ hsame.sessions token (hresult.trans ht)
      files := hfiles.trans hsame.files }

end Waits

end OpenStore

structure StoreDir where
  disk : Disk
  stores : List OpenStore := []

namespace StoreDir

inductive Act where
  | enter (config : Config)
  | leave (index : Nat)
  | use (index : Nat) (deed : OpenStore.Deed)

def step (dir : Path) (scene : StoreDir) : Act → StoreDir
  | .enter config =>
    match Store.open? dir config scene.disk with
    | (.ok store, disk) => { disk, stores := { store } :: scene.stores }
    | (.error _, disk) => { scene with disk }
  | .leave index =>
    match scene.stores[index]? with
    | some opened =>
      { disk := opened.store.close scene.disk, stores := scene.stores.eraseIdx index }
    | none => scene
  | .use index deed =>
    match scene.stores[index]? with
    | some opened =>
      let (opened, disk) := opened.step deed scene.disk
      { disk, stores := scene.stores.set index opened }
    | none => scene

def run (dir : Path) (acts : List Act) (scene : StoreDir) : StoreDir := acts.foldl (step dir) scene

structure Sound (dir place : Path) (first : Disk) (scene : StoreDir) : Prop where
  visited : Store.Visited place first scene.disk
  furnished : scene.stores ≠ [] → Store.Furnished place scene.disk
  waits : ∀ opened ∈ scene.stores, opened.Waits dir place scene.disk

variable {dir place : Path} {first disk : Disk} {token : Token} {scene : StoreDir}

namespace Sound

theorem start (hw : first.WellFormed) : Sound dir place first { disk := first } where
  visited := .refl hw
  furnished hc := absurd rfl hc
  waits _ hm := absurd hm List.not_mem_nil

theorem rest (h : Sound dir place first scene) {stores : List OpenStore}
    (hp : ∀ opened ∈ stores, opened ∈ scene.stores) (hv : Store.Visited place first disk)
    (hs : scene.stores ≠ [] → Disk.SameAt (· ≠ place ++ [Store.lockFile]) scene.disk disk) :
    Sound dir place first { disk, stores } := by
  have hsome : ∀ opened ∈ stores, scene.stores ≠ [] :=
    fun opened hm => List.ne_nil_of_mem (hp opened hm)
  refine ⟨hv, fun hne => ?_, fun opened hm => ?_⟩
  · obtain ⟨opened, hm⟩ := List.exists_mem_of_ne_nil stores hne
    exact (h.furnished (hsome opened hm)).frame (hs (hsome opened hm))
  · have hentries := (hs (hsome opened hm)).entries
    exact (h.waits opened (hp opened hm)).frame (by rw [Disk.entry?_congr hentries])

section

variable (hd : Disk.Homed first dir place)
  (hl : CheckpointDir.latestLog dir first = .ok (some token))

include hd hl

theorem latest (h : Sound dir place first scene) :
    CheckpointDir.latestLog dir scene.disk = .ok (some token) :=
  (h.visited.latest dir hd).trans hl

theorem sameAt_step (h : Sound dir place first scene) (hr : Store.Furnished place scene.disk)
    (act : Act) :
    Disk.SameAt (· ≠ place ++ [Store.lockFile]) scene.disk (scene.step dir act).disk := by
  cases act with
  | enter config =>
    have hopen := hr.sameAt_open h.visited.wellFormed (hd.mono h.visited.directory)
      (h.latest hd hl) config
    rw [step]
    split <;> rename_i ho <;> rwa [ho] at hopen
  | leave index =>
    rw [step]
    split
    · exact ⟨rfl, rfl, fun _ _ _ _ => rfl⟩
    · exact .refl _ _
  | use index deed =>
    rw [step]
    split
    · rename_i opened hi
      obtain ⟨after, hstep, -⟩ := (h.waits opened (List.mem_of_getElem? hi)).step deed
      rw [hstep]
      exact .refl _ _
    · exact .refl _ _

theorem step (h : Sound dir place first scene) (act : Act) :
    Sound dir place first (scene.step dir act) := by
  have hsame := fun hne => h.sameAt_step hd hl (h.furnished hne) act
  cases act with
  | enter config =>
    have hhome := hd.mono h.visited.directory
    have hvisited := h.visited.trans
      (Store.visited_open h.visited.wellFormed hhome (h.latest hd hl) config)
    rw [StoreDir.step] at hsame ⊢
    cases hopen : Store.open? dir config scene.disk with
    | mk result disk =>
      rw [hopen] at hsame hvisited
      have hrest := h.rest (fun _ hm => hm) hvisited
      cases result with
      | error fault => exact hrest hsame
      | ok store =>
        obtain ⟨hfurnished, lock, file, hentry, rfl⟩ :=
          Store.furnished_open h.visited.wellFormed hhome (h.latest hd hl) hopen
        refine ⟨hvisited, fun _ => hfurnished, List.forall_mem_cons.mpr ⟨?_, (hrest hsame).waits⟩⟩
        exact ⟨rfl, rfl, hentry, rfl, rfl, rfl, rfl, SessionPool.unused_ofCapacity _, by simp⟩
  | leave index =>
    rw [StoreDir.step] at hsame ⊢
    split at hsame
    · exact h.rest (fun _ hm => List.mem_of_mem_eraseIdx hm)
        (h.visited.trans (.release h.visited.wellFormed _)) hsame
    · exact h
  | use index deed =>
    rw [StoreDir.step]
    cases hi : scene.stores[index]? with
    | none => exact h
    | some opened =>
      obtain ⟨after, hstep, hwaits⟩ := (h.waits opened (List.mem_of_getElem? hi)).step deed
      have hne : scene.stores ≠ [] := List.ne_nil_of_mem (List.mem_of_getElem? hi)
      dsimp only
      rw [hstep]
      refine ⟨h.visited, fun _ => h.furnished hne, fun other hm => ?_⟩
      rcases List.mem_or_eq_of_mem_set hm with hm | rfl
      · exact h.waits other hm
      · exact hwaits

theorem run (h : Sound dir place first scene) (acts : List Act) :
    Sound dir place first (scene.run dir acts) := by
  induction acts generalizing scene with
  | nil => exact h
  | cons act acts ih => exact ih (h.step hd hl act)

theorem sameAt_run (h : Sound dir place first scene) (hr : Store.Furnished place scene.disk)
    (acts : List Act) :
    Disk.SameAt (· ≠ place ++ [Store.lockFile]) scene.disk (scene.run dir acts).disk := by
  induction acts generalizing scene with
  | nil => exact .refl _ _
  | cons act acts ih =>
    have hstep := h.sameAt_step hd hl hr act
    exact hstep.trans (ih (h.step hd hl act) (hr.frame hstep))

end

end Sound

/-- Committed data has survived: the open stores refuse writes and checkpoints, their heads and the
serial numbers of their sessions are those of a new store, all files but the lock file are kept, and
a recovery comes to what the recovery of an earlier store would have come to. -/
structure Survives (kept : Bytes → Bytes → Prop) (dir place : Path) (first : Disk)
    (before after : StoreDir) : Prop where
  upserts : ∀ opened ∈ after.stores, ∀ session key id tombstone,
    opened.store.upsert session key id tombstone after.disk = .error (.awaitingRecovery dir)
  checkpoints : ∀ opened ∈ after.stores, ∀ kind token,
    opened.store.take kind token = .error (.awaitingRecovery dir)
  heads : ∀ opened ∈ after.stores, opened.store.heads = []
  serials : ∀ opened ∈ after.stores,
    (∀ session ∈ opened.store.acquire.1 :: opened.held, session.serial = 0) ∧
      ∀ point ∈ opened.store.sessions.commitPoints, point.2 = 0
  files : ∀ p, p ≠ place ++ [Store.lockFile] → p ≠ place ++ [Log.fileName] →
    after.disk.entry? p = first.entry? p ∧
      ∀ id, first.entry? p = some (.file id) → after.disk.content id = first.content id
  log : ∀ id, first.entry? (place ++ [Log.fileName]) = some (.file id) →
    after.disk.entry? (place ++ [Log.fileName]) = some (.file id) ∧
      kept (first.content id) (after.disk.content id)
  recoveries : ∀ early ∈ before.stores, ∀ late ∈ after.stores, ∀ index log,
    Store.SameRecovery place (early.store.recover index log before.disk)
      (late.store.recover index log after.disk)

/-- Committed data survives everything that is done before a recovery, but a log file that is too
short for its header does not keep its bytes: it is given one. -/
theorem survives_of_run {dir place : Path} {disk : Disk} {token : Token} (hw : disk.WellFormed)
    (hd : Disk.Homed disk dir place)
    (hl : CheckpointDir.latestLog dir disk = .ok (some token)) (front back : List Act) :
    (Fault.awaitingRecovery dir).category = .invalidState ∧
      Survives Log.KeptUnderHeader dir place disk (run dir front { disk })
        (run dir back (run dir front { disk })) := by
  have hbefore : Sound dir place disk (run dir front { disk }) := (Sound.start hw).run hd hl front
  have hafter := hbefore.run hd hl back
  refine ⟨rfl, ?_⟩
  exact
    { upserts := fun opened hm session key id tombstone => by
        have hwaits := hafter.waits opened hm
        rw [Store.upsert_awaiting hwaits.awaiting, hwaits.home]
      checkpoints := fun opened hm kind token => by
        have hwaits := hafter.waits opened hm
        rw [Store.take_awaiting hwaits.awaiting, hwaits.home]
      heads := fun opened hm => (hafter.waits opened hm).heads
      serials := fun opened hm => by
        have hwaits := hafter.waits opened hm
        exact ⟨List.forall_mem_cons.mpr ⟨hwaits.sessions.acquire.1, hwaits.held⟩,
          hwaits.sessions.points⟩
      files := fun p hlock hlog =>
        ⟨hafter.visited.entry p hlock hlog, fun id => hafter.visited.content p id hlock hlog⟩
      log := hafter.visited.log
      recoveries := fun early he late hm index log => by
        have hsame := hbefore.sameAt_run hd hl (hbefore.furnished (List.ne_nil_of_mem he)) back
        exact (hbefore.waits early he).recover hbefore.visited.wellFormed
          (hd.mono hbefore.visited.directory) hsame (hafter.waits late hm) index log }

def checkpointedLife : Generation :=
  let key (byte : UInt8) : CompositeKey := [{ ordinal := 0, key := some [byte] }]
  ⟨{}, [.upsert ⟨1, 0, 0⟩ (key 170) ⟨1, 1⟩ false, .take .full ⟨1⟩, .complete,
    .upsert ⟨1, 1, 0⟩ (key 187) ⟨2, 1⟩ false, .flush]⟩

def checkpointed : Disk :=
  (Timeline.run ["db"] [checkpointedLife] { disk := .withDir "db" }).disk

theorem checkpointed_left : checkpointed.WellFormed ∧ Disk.Homed checkpointed ["db"] ["db"] ∧
    CheckpointDir.latestLog ["db"] checkpointed = .ok (some ⟨1⟩) := by
  have hempty : (Disk.withDir "db").EmptyDir ["db"] ["db"] := Disk.emptyDir_withDir (by decide)
  have hstart : Timeline.Sound { disk := .withDir "db" } ["db"] ["db"] := ⟨hempty.left, by simp⟩
  have hsound : (Timeline.run ["db"] [checkpointedLife] { disk := .withDir "db" }).Sound ["db"]
      ["db"] := hstart.run (by decide) (by decide) (by decide +kernel)
  exact ⟨hsound.left.openable.wellFormed, hsound.left.openable.homed, by decide +kernel⟩

/-- A store is written to, flushed and checkpointed, all in vain, while another one is refused the
lock. Then it is closed, and the next one reads. -/
def vainActs : List Act :=
  [.use 0 .acquire, .use 0 (.upsert 0 [{ ordinal := 0, key := some [204] }] ⟨3, 1⟩ false),
    .use 0 .flush, .enter {}, .use 0 (.take .full ⟨2⟩), .use 0 .complete, .use 0 .evict, .leave 0,
    .enter { sessionPoolSize := Lending.single }, .use 0 .acquire, .use 0 (.read 0 64),
    .use 0 (.release 0)]

def vainActsEnd : Bool :=
  let before := run ["db"] [.enter {}] { disk := checkpointed }
  match before.stores, (run ["db"] vainActs before).stores,
    checkpointed.entry? ["db", "log.dat"] with
  | [early], [late], some (.file file) =>
    decide ((early.store.recover none none before.disk).1 = .ok ⟨1⟩ ∧
      (early.store.recover none none before.disk).2.1.heads = [([0, 170], 64)] ∧
      late.store.sessions.capacity = 1 ∧ (checkpointed.content file).length = 142)
  | _, _, _ => false

theorem survives_of_vainActs : ∃ (early late : OpenStore) (file : FileId),
    let before := run ["db"] [.enter {}] { disk := checkpointed }
    let after := run ["db"] vainActs before
    checkpointed.WellFormed ∧ Disk.Homed checkpointed ["db"] ["db"] ∧
      CheckpointDir.latestLog ["db"] checkpointed = .ok (some ⟨1⟩) ∧
      before.stores = [early] ∧ after.stores = [late] ∧ late.store.sessions.capacity = 1 ∧
      (∀ kind token, late.store.take kind token = .error (.awaitingRecovery ["db"])) ∧
      checkpointed.entry? ["db", "log.dat"] = some (.file file) ∧
      (checkpointed.content file).length = 142 ∧
      after.disk.content file = checkpointed.content file ∧
      (late.store.recover none none after.disk).1 = .ok ⟨1⟩ ∧
      (late.store.recover none none after.disk).2.1.heads = [([0, 170], 64)] := by
  obtain ⟨hw, hd, hl⟩ := checkpointed_left
  have hfacts : vainActsEnd = true := by decide +kernel
  unfold vainActsEnd at hfacts
  dsimp only at hfacts
  split at hfacts
  · rename_i early late file hbefore hafter hentry
    obtain ⟨hresult, hheads, hcapacity, hlength⟩ := of_decide_eq_true hfacts
    obtain ⟨-, hsurvives⟩ := survives_of_run hw hd hl [.enter {}] vainActs
    have hlate : late ∈
        (run ["db"] vainActs (run ["db"] [.enter {}] { disk := checkpointed })).stores :=
      hafter ▸ List.mem_cons_self
    have hsame := hsurvives.recoveries early (hbefore ▸ List.mem_cons_self) late hlate none none
    obtain ⟨-, hkept | ⟨hshort, -⟩⟩ := hsurvives.log file hentry
    · exact ⟨early, late, file, hw, hd, hl, hbefore, hafter, hcapacity,
        hsurvives.checkpoints late hlate, hentry, hlength, hkept, hsame.result.trans hresult,
        hsame.store.heads.trans hheads⟩
    · rw [hlength] at hshort
      exact absurd hshort (by decide)
  · cases hfacts

def emptied : Disk :=
  match checkpointed.find ["db", "log.dat"] with
  | .ok file => checkpointed.setLength file 0
  | .error _ => checkpointed

def emptiedGetsHeader : Bool :=
  match checkpointed.find ["db", "log.dat"] with
  | .ok file =>
    decide (CheckpointDir.latestLog ["db"] emptied = .ok (some ⟨1⟩) ∧
      emptied.entry? ["db", "log.dat"] = some (.file file) ∧ emptied.content file = [] ∧
      (run ["db"] [.enter {}] { disk := emptied }).disk.content file = Log.header)
  | .error _ => false

/-- A log file that was cut off does not keep its bytes: the first opening gives it a header. -/
theorem header_over_emptied : ¬ ∀ (dir place : Path) (disk : Disk) (token : Token)
    (front back : List Act), disk.WellFormed → Disk.Homed disk dir place →
      CheckpointDir.latestLog dir disk = .ok (some token) →
      (Fault.awaitingRecovery dir).category = .invalidState ∧
        Survives Eq dir place disk (run dir front { disk })
          (run dir back (run dir front { disk })) := by
  obtain ⟨hw, hd, -⟩ := checkpointed_left
  have hfacts : emptiedGetsHeader = true := by decide +kernel
  unfold emptiedGetsHeader at hfacts
  intro h
  split at hfacts
  · rename_i file hfind
    obtain ⟨hl, hentry, hempty, hheader⟩ := of_decide_eq_true hfacts
    have hcut : emptied = checkpointed.setLength file 0 := by
      unfold emptied
      simp only [hfind]
    have hwrites : Disk.WritesOnly file checkpointed emptied :=
      hcut ▸ Disk.writesOnly_setContent checkpointed file _
    have hhome : Disk.Homed emptied ["db"] ["db"] :=
      hd.mono fun p hp => (hwrites.entry?_eq p).trans hp
    obtain ⟨-, hsurvives⟩ := h ["db"] ["db"] emptied ⟨1⟩ [] [.enter {}] (hwrites.wellFormed hw)
      hhome hl
    have hnone : run ["db"] [] { disk := emptied } = { disk := emptied } := rfl
    rw [hnone] at hsurvives
    obtain ⟨-, hsame⟩ := hsurvives.log file hentry
    rw [hempty, hheader] at hsame
    cases hsame
  · cases hfacts

end StoreDir

end PredicateIndex
