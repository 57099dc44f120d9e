import PredicateIndex.Proofs.ChainReads
import PredicateIndex.Proofs.CheckpointFiles
import PredicateIndex.Proofs.StoreOpening
import PredicateIndex.Store.Checkpointing

/-!
# Running a store

Each operation of a run extends the records of a store by that of an upsert or
leaves them as they are, so the records after a run have the upserts in order.
-/

set_option autoImplicit false

namespace PredicateIndex

namespace Store

inductive Op where
  | upsert (session : Session) (key : CompositeKey) (id : RecordId) (tombstone : Bool)
  | flush
  | evict
  | acquire
  | release (session : Session)
  | readChain (ordinal : UInt8) (key : Bytes)
  | take (kind : CheckpointKind) (token : Token)
  | abort (token : Token)
  | complete

namespace Op

def record? : Op → Option LogRecord
  | upsert _ key id tombstone => some ⟨id, tombstone, key.retain fun _ => true⟩
  | _ => none

def Fits : Op → Prop
  | upsert _ key _ _ => key.Fits
  | _ => True

instance decidableFits : (op : Op) → Decidable op.Fits
  | upsert _ key _ _ => inferInstanceAs (Decidable key.Fits)
  | flush | evict | acquire | release _ | readChain _ _ | take _ _ | abort _ | complete =>
    isTrue trivial

def Ordered : Op → Prop
  | upsert _ key _ _ => key.Ordered
  | _ => True

end Op

def step : Op → Store × Disk → Store × Disk
  | .upsert session key id tombstone, (store, disk) =>
    match store.upsert session key id tombstone disk with
    | .ok (_, _, store, disk) => (store, disk)
    | .error _ => (store, disk)
  | .flush, (store, disk) => store.flush disk
  | .evict, (store, disk) => store.evict disk
  | .acquire, (store, disk) => (store.acquire.2, disk)
  | .release session, (store, disk) => (store.release session, disk)
  | .readChain ordinal key, (store, disk) => ((store.readChain ordinal key false disk []).2.1, disk)
  | .take kind token, (store, disk) =>
    match store.take kind token with
    | .ok (_, store) => (store, disk)
    | .error _ => (store, disk)
  | .abort token, (store, disk) => (store.abort token, disk)
  | .complete, (store, disk) => (store.complete disk).2

def run : List Op → Store × Disk → Store × Disk
  | [], state => state
  | op :: ops, state => run ops (step op state)

theorem run_append (ops rest : List Op) (state : Store × Disk) :
    run (ops ++ rest) state = run rest (run ops state) := by
  induction ops generalizing state with
  | nil => rfl
  | cons op ops ih => exact ih (step op state)

def adds (store : Store) : Op → List LogRecord
  | .upsert _ key id tombstone =>
    if store.awaitingRecovery then [] else [store.written key id tombstone]
  | _ => []

def added : List Op → Store × Disk → List LogRecord
  | [], _ => []
  | op :: ops, state => state.1.adds op ++ added ops (step op state)

structure SameStore (store after : Store) : Prop where
  dir : after.dir = store.dir
  lock : after.lock = store.lock
  awaitingRecovery : after.awaitingRecovery = store.awaitingRecovery
  logMemorySize : after.logMemorySize = store.logMemorySize

end Store

def LogRecord.unlinked (record : LogRecord) : LogRecord :=
  { record with key := record.key.retain fun _ => true }

namespace Store

theorem unlinked_written (store : Store) (key : CompositeKey) (id : RecordId) (tombstone : Bool) :
    (store.written key id tombstone).unlinked = ⟨id, tombstone, key.retain fun _ => true⟩ := by
  rw [written, LogRecord.stored, LogRecord.unlinked, CompositeKey.retain, CompositeKey.retain, link,
    List.map_map, List.map_map]
  congr 1
  apply List.map_congr_left
  intro slot _
  cases hc : slot.chain? <;> simp [Slot.stored, Slot.copy, hc]

theorem ordered_written (store : Store) {key : CompositeKey} (h : key.Ordered) (id : RecordId)
    (tombstone : Bool) : (store.written key id tombstone).key.Ordered := by
  apply CompositeKey.ordered_map
  · apply CompositeKey.ordered_map h
    intro slot
    split <;> rfl
  · intro slot
    rfl

open CheckpointDir (partFiles Apart writePart indexFile logFile)

def Outside (place p : Path) : Prop :=
  p ≠ place ++ [Log.fileName] ∧ ∀ name ∈ partFiles, Apart name p

theorem apart_log (place : Path) : ∀ name ∈ partFiles, Apart name (place ++ [Log.fileName]) := by
  have hnames : ∀ name ∈ partFiles,
      Log.fileName ≠ name ∧ Log.fileName ≠ CheckpointDir.draftFile name := by decide
  exact fun name hn => CheckpointDir.apart_snoc (hnames name hn).1 (hnames name hn).2 place

theorem take_cases (store : Store) (kind : CheckpointKind) (token : Token) :
    (∃ fault, store.take kind token = .error fault) ∨ store.take kind token = .ok (false, store) ∨
      (store.captured = none ∧ store.take kind token =
        .ok (true, { store with captured := some (store.capture kind token) })) := by
  rw [take]
  cases hr : store.checkRecovered with
  | error fault => exact Or.inl ⟨fault, rfl⟩
  | ok =>
    cases hc : store.captured with
    | some captured => exact Or.inr (Or.inl rfl)
    | none => exact Or.inr (Or.inr ⟨rfl, rfl⟩)

theorem take_captured {store other : Store} {kind : CheckpointKind} {token : Token} {started : Bool}
    (h : store.take kind token = .ok (started, other)) :
    ∃ captured, other = { store with captured } := by
  rcases take_cases store kind token with ⟨fault, ht⟩ | ht | ⟨-, ht⟩
  · rw [ht] at h
    cases h
  · rw [ht] at h
    exact ⟨store.captured, (Prod.mk.inj (Except.ok.inj h)).2.symm⟩
  · rw [ht] at h
    exact ⟨_, (Prod.mk.inj (Except.ok.inj h)).2.symm⟩

theorem abort_captured (store : Store) (token : Token) :
    ∃ captured, (captured = none ∨ captured = store.captured) ∧
      store.abort token = { store with captured } := by
  rw [abort]
  split
  · split
    · exact ⟨none, Or.inl rfl, rfl⟩
    · exact ⟨store.captured, Or.inr rfl, rfl⟩
  · exact ⟨store.captured, Or.inr rfl, rfl⟩

def beforeParts (store : Store) (captured : CapturedCheckpoint) (disk : Disk) : Store × Disk :=
  if captured.log.isSome then store.flush disk else (store, disk)

/-- What holds before the parts are written and withstands writing them holds when the checkpoint
has been completed, whether or not that succeeds. -/
theorem complete_keeps (kept : Store → Disk → Prop) {store : Store} {disk : Disk}
    {captured : CapturedCheckpoint} (hc : store.captured = some captured)
    (hb : kept (store.beforeParts captured disk).1 (store.beforeParts captured disk).2)
    (hp : ∀ name ∈ partFiles, ∀ part store disk, kept store disk →
      kept store (writePart store.dir name part disk).2)
    (hd : ∀ store disk, kept store disk →
      kept { store with captured := none, lastCheckpoint := some captured.token } disk) :
    kept (store.complete disk).2.1 (store.complete disk).2.2 := by
  rcases hf : store.beforeParts captured disk with ⟨flushed, opened⟩
  rw [hf] at hb
  rw [Store.beforeParts] at hf
  have hindex := hp indexFile (by decide) (captured.index.map IndexCheckpoint.part) _ _ hb
  rw [complete, hc]
  simp only [hf]
  rcases hwi : writePart flushed.dir indexFile (captured.index.map IndexCheckpoint.part) opened with
    ⟨fault | _, second⟩ <;> rw [hwi] at hindex
  · exact hindex
  · have hlog := hp logFile (by decide) (captured.log.map LogCheckpoint.part) _ _ hindex
    dsimp only at hlog ⊢
    rcases hwl : writePart flushed.dir logFile (captured.log.map LogCheckpoint.part) second with
      ⟨fault | _, third⟩ <;> rw [hwl] at hlog
    · exact hlog
    · exact hd _ _ hlog

theorem complete_same (store : Store) (disk : Disk) : ∃ log captured lastCheckpoint,
    (log = store.log ∨ log = (store.log.flush disk).1) ∧
      (store.complete disk).2.1 = { store with log, captured, lastCheckpoint } := by
  cases hc : store.captured with
  | none =>
    have hsame : (store.complete disk).2.1 = store := by rw [complete, hc]
    exact ⟨store.log, store.captured, store.lastCheckpoint, Or.inl rfl, hsame⟩
  | some captured =>
    refine complete_keeps (fun after _ => ∃ log captured lastCheckpoint,
      (log = store.log ∨ log = (store.log.flush disk).1) ∧
        after = { store with log, captured, lastCheckpoint }) hc ?_ ?_ ?_
    · rw [Store.beforeParts]
      split
      · exact ⟨_, store.captured, store.lastCheckpoint, Or.inr rfl, rfl⟩
      · exact ⟨_, store.captured, store.lastCheckpoint, Or.inl rfl, rfl⟩
    · exact fun _ _ _ _ _ hk => hk
    · rintro _ _ ⟨log, _, _, hlog, rfl⟩
      exact ⟨log, none, some captured.token, hlog, rfl⟩

theorem awaitingRecovery_complete (store : Store) (disk : Disk) :
    (store.complete disk).2.1.awaitingRecovery = store.awaitingRecovery := by
  obtain ⟨log, captured, last, -, h⟩ := complete_same store disk
  rw [h]

theorem step_upsert {store : Store} (hr : store.awaitingRecovery = false) (session : Session)
    (key : CompositeKey) (id : RecordId) (tombstone : Bool) (disk : Disk) :
    step (.upsert session key id tombstone) (store, disk) =
      (store.write key id tombstone).evictIfFull disk := by
  rw [step, upsert, checkRecovered, hr]
  rfl

theorem upsert_awaiting {store : Store} (hr : store.awaitingRecovery = true)
    (session : Session) (key : CompositeKey) (id : RecordId) (tombstone : Bool) (disk : Disk) :
    store.upsert session key id tombstone disk = .error (.awaitingRecovery store.dir) := by
  rw [upsert, checkRecovered, hr]
  rfl

theorem take_awaiting {store : Store} (hr : store.awaitingRecovery = true) (kind : CheckpointKind)
    (token : Token) : store.take kind token = .error (.awaitingRecovery store.dir) := by
  rw [take, checkRecovered, hr]
  rfl

theorem step_upsert_awaiting {store : Store} (hr : store.awaitingRecovery = true)
    (session : Session) (key : CompositeKey) (id : RecordId) (tombstone : Bool) (disk : Disk) :
    step (.upsert session key id tombstone) (store, disk) = (store, disk) := by
  rw [step, upsert_awaiting hr]

inductive Does (store : Store) (disk : Disk) : Op → Store × Disk → Prop
  | refused {session : Session} {key : CompositeKey} {id : RecordId} {tombstone : Bool}
    (h : store.awaitingRecovery = true) :
    Does store disk (.upsert session key id tombstone) (store, disk)
  | written {session : Session} {key : CompositeKey} {id : RecordId} {tombstone : Bool}
    (h : store.awaitingRecovery = false) :
    Does store disk (.upsert session key id tombstone)
      ((store.write key id tombstone).evictIfFull disk)
  | flush : Does store disk .flush (store.flush disk)
  | evict : Does store disk .evict (store.evict disk)
  | acquire : Does store disk .acquire (store.acquire.2, disk)
  | release {session : Session} : Does store disk (.release session) (store.release session, disk)
  | readChain {ordinal : UInt8} {key : Bytes} : Does store disk (.readChain ordinal key)
      ((store.readChain ordinal key false disk []).2.1, disk)
  | take {kind : CheckpointKind} {token : Token} {captured : Option CapturedCheckpoint}
    (h : captured = store.captured ∨
      store.captured = none ∧ captured = some (store.capture kind token)) :
    Does store disk (.take kind token) ({ store with captured }, disk)
  | abort {token : Token} {captured : Option CapturedCheckpoint}
    (h : captured = none ∨ captured = store.captured) :
    Does store disk (.abort token) ({ store with captured }, disk)
  | complete : Does store disk .complete (store.complete disk).2

theorem does_step (op : Op) (store : Store) (disk : Disk) :
    Does store disk op (step op (store, disk)) := by
  cases op with
  | upsert session key id tombstone =>
    cases hr : store.awaitingRecovery with
    | true =>
      rw [step_upsert_awaiting hr]
      exact .refused hr
    | false =>
      rw [step_upsert hr]
      exact .written hr
  | flush => exact .flush
  | evict => exact .evict
  | acquire => exact .acquire
  | release session => exact .release
  | readChain ordinal key => exact .readChain
  | take kind token =>
    rw [step]
    rcases take_cases store kind token with ⟨fault, ht⟩ | ht | ⟨hnone, ht⟩ <;> rw [ht]
    · exact .take (Or.inl rfl)
    · exact .take (Or.inl rfl)
    · exact .take (Or.inr ⟨hnone, rfl⟩)
  | abort token =>
    obtain ⟨captured, h, ho⟩ := abort_captured store token
    rw [step, ho]
    exact .abort h
  | complete => exact .complete

theorem heads_step {op : Op} (ho : op.record? = none) (store : Store) (disk : Disk) :
    (step op (store, disk)).1.heads = store.heads := by
  have hd := does_step op store disk
  generalize step op (store, disk) = after at hd ⊢
  cases hd with
  | refused | written => cases ho
  | complete =>
    obtain ⟨log, captured, last, -, hsame⟩ := complete_same store disk
    rw [hsame]
  | _ => rfl

theorem step_same (op : Op) (store : Store) (disk : Disk) :
    store.SameStore (step op (store, disk)).1 := by
  have hd := does_step op store disk
  generalize step op (store, disk) = after at hd ⊢
  cases hd with
  | written =>
    rw [evictIfFull]
    split <;> exact ⟨rfl, rfl, rfl, rfl⟩
  | complete =>
    obtain ⟨log, captured, last, -, hsame⟩ := complete_same store disk
    rw [hsame]
    exact ⟨rfl, rfl, rfl, rfl⟩
  | _ => exact ⟨rfl, rfl, rfl, rfl⟩

namespace Logs

variable {store : Store} {disk : Disk} {place : Path} {history : List LogRecord}

theorem complete (h : store.Logs disk place history) :
    (store.complete disk).2.1.Logs (store.complete disk).2.2 place history ∧
      Disk.Spares (Outside place) disk (store.complete disk).2.2 := by
  cases hc : store.captured with
  | none =>
    rw [Store.complete, hc]
    exact ⟨h, .refl h.wellFormed⟩
  | some captured =>
    refine complete_keeps (fun after other =>
      after.Logs other place history ∧ Disk.Spares (Outside place) disk other) hc ?_ ?_ ?_
    · rw [Store.beforeParts]
      split
      · exact ⟨h.flush, h.spares_flush.weaken fun p hp => hp.1⟩
      · exact ⟨h, .refl h.wellFormed⟩
    · intro name hn part after other hk
      have hs := CheckpointDir.spares_writePart after.dir hn part hk.1.wellFormed
      exact ⟨hk.1.frame hs (apart_log place name hn),
        hk.2.trans (hs.weaken fun p hp => hp.2 name hn)⟩
    · exact fun _ _ hk => ⟨hk.1.congr rfl rfl, hk.2⟩

theorem step (h : store.Logs disk place history) (op : Op) :
    (Store.step op (store, disk)).1.Logs (Store.step op (store, disk)).2 place
        (history ++ store.adds op) ∧
      Disk.Spares (Outside place) disk (Store.step op (store, disk)).2 := by
  have hrefl : Disk.Spares (Outside place) disk disk := .refl h.wellFormed
  have hsame := h
  rw [← List.append_nil history] at hsame
  have hd := does_step op store disk
  generalize Store.step op (store, disk) = after at hd ⊢
  cases hd with
  | refused hr =>
    rw [adds, if_pos hr]
    exact ⟨hsame, hrefl⟩
  | @written session key id tombstone hr =>
    have hw := h.write key id tombstone
    rw [adds, if_neg (by simp [hr])]
    exact ⟨hw.evictIfFull, hw.spares_evictIfFull.weaken fun p hp => hp.1⟩
  | flush => exact ⟨hsame.flush, h.spares_flush.weaken fun p hp => hp.1⟩
  | evict => exact ⟨hsame.evict, h.spares_evict.weaken fun p hp => hp.1⟩
  | complete => exact ⟨hsame.complete.1, h.complete.2⟩
  | _ => exact ⟨hsame.congr rfl rfl, hrefl⟩

theorem flushed_step (h : store.Logs disk place history) (op : Op) :
    store.log.flushed ≤ (Store.step op (store, disk)).1.log.flushed := by
  have hle := h.holds.flushed_le
  have hd := does_step op store disk
  generalize Store.step op (store, disk) = after at hd ⊢
  cases hd with
  | @written session key id tombstone =>
    have hw := (h.write key id tombstone).holds
    rw [Store.evictIfFull]
    split
    · have hevict := congrArg Log.flushed hw.evict_log
      exact Nat.le_trans hw.flushed_le (Nat.le_of_eq hevict.symm)
    · exact Nat.le_refl _
  | flush =>
    rw [flush_eq, h.holds.flush_log]
    exact hle
  | evict =>
    rw [evict_eq, h.holds.evict_log]
    exact hle
  | complete =>
    obtain ⟨log, captured, last, hlog, ho⟩ := complete_same store disk
    rw [ho]
    rcases hlog with rfl | rfl
    · exact Nat.le_refl _
    · rw [h.holds.flush_log]
      exact hle
  | _ => exact Nat.le_refl _

/-- A run adds its records to the log. -/
theorem run (h : store.Logs disk place history) (ops : List Op) :
    (Store.run ops (store, disk)).1.Logs (Store.run ops (store, disk)).2 place
      (history ++ added ops (store, disk)) := by
  induction ops generalizing store disk history with
  | nil =>
    rw [added, List.append_nil]
    exact h
  | cons op ops ih =>
    have hk := ih (h.step op).1
    rw [List.append_assoc] at hk
    exact hk

theorem flushed_run (h : store.Logs disk place history) (ops : List Op) :
    store.log.flushed ≤ (Store.run ops (store, disk)).1.log.flushed := by
  induction ops generalizing store disk history with
  | nil => exact Nat.le_refl _
  | cons op ops ih => exact Nat.le_trans (h.flushed_step op) (ih (h.step op).1)

end Logs

theorem adds_eq_nil (store : Store) {op : Op} (ho : op.record? = none) : store.adds op = [] := by
  cases op with
  | upsert => cases ho
  | _ => rfl

theorem adds_unlinked {store : Store} (hr : store.awaitingRecovery = false) (op : Op) :
    (store.adds op).map LogRecord.unlinked = op.record?.toList := by
  cases op with
  | upsert session key id tombstone =>
    rw [adds, if_neg (by simp [hr]), List.map_singleton, unlinked_written]
    rfl
  | _ => rfl

theorem of_mem_adds {store : Store} {op : Op} {record : LogRecord} (h : record ∈ store.adds op) :
    ∃ session key id tombstone, op = .upsert session key id tombstone ∧
      record = store.written key id tombstone := by
  cases op with
  | upsert session key id tombstone =>
    rw [adds] at h
    split at h
    · cases h
    · exact ⟨session, key, id, tombstone, rfl, List.mem_singleton.mp h⟩
  | _ => cases h

theorem added_unlinked {ops : List Op} {store : Store} (hr : store.awaitingRecovery = false)
    (disk : Disk) :
    (added ops (store, disk)).map LogRecord.unlinked = ops.filterMap Op.record? := by
  induction ops generalizing store disk with
  | nil => rfl
  | cons op ops ih =>
    have ha := (step_same op store disk).awaitingRecovery.trans hr
    rw [added, List.map_append, adds_unlinked hr, ih ha]
    cases hrec : op.record? with
    | none => rw [List.filterMap_cons_none hrec]; rfl
    | some record => rw [List.filterMap_cons_some hrec]; rfl

theorem of_mem_added {kept : LogRecord → Prop} {ops : List Op}
    (h : ∀ session key id tombstone, Op.upsert session key id tombstone ∈ ops →
      ∀ store : Store, kept (store.written key id tombstone)) (state : Store × Disk) :
    ∀ record ∈ added ops state, kept record := by
  induction ops generalizing state with
  | nil => simp [added]
  | cons op ops ih =>
    intro record hm
    rcases List.mem_append.mp hm with hm | hm
    · obtain ⟨session, key, id, tombstone, rfl, rfl⟩ := of_mem_adds hm
      exact h session key id tombstone List.mem_cons_self state.1
    · exact ih (fun session key id tombstone hop =>
        h session key id tombstone (List.mem_cons_of_mem op hop)) _ record hm

theorem added_ordered {ops : List Op} (ho : ∀ op ∈ ops, op.Ordered) (state : Store × Disk) :
    ∀ record ∈ added ops state, record.key.Ordered :=
  of_mem_added (fun _ _ id tombstone hop store => ordered_written store (ho _ hop) id tombstone) state

theorem added_storable {ops : List Op} (hf : ∀ op ∈ ops, op.Fits) (state : Store × Disk) :
    ∀ record ∈ added ops state, record.Storable :=
  of_mem_added (fun _ _ _ _ hop store =>
    LogRecord.storable_stored (fits_link store.heads (hf _ hop))) state

theorem added_append (ops rest : List Op) (state : Store × Disk) :
    added (ops ++ rest) state = added ops state ++ added rest (run ops state) := by
  induction ops generalizing state with
  | nil => rfl
  | cons op ops ih => rw [List.cons_append, added, added, run, ih, List.append_assoc]

theorem run_same (ops : List Op) (store : Store) (disk : Disk) :
    store.SameStore (run ops (store, disk)).1 := by
  induction ops generalizing store disk with
  | nil => exact ⟨rfl, rfl, rfl, rfl⟩
  | cons op ops ih =>
    have hstep := step_same op store disk
    have hrun := ih (step op (store, disk)).1 (step op (store, disk)).2
    exact ⟨hrun.dir.trans hstep.dir, hrun.lock.trans hstep.lock,
      hrun.awaitingRecovery.trans hstep.awaitingRecovery,
      hrun.logMemorySize.trans hstep.logMemorySize⟩

namespace Keeps

variable {store : Store} {disk : Disk} {place : Path} {history : List LogRecord}

theorem upsert (h : store.Keeps disk place history) (hr : store.awaitingRecovery = false)
    {key : CompositeKey} (hk : key.Fits) (session : Session) (id : RecordId) (tombstone : Bool) :
    ∃ written other, store.upsert session key id tombstone disk =
        .ok (store.log.tail, session.completeWrite, written, other) ∧
      written.Keeps other place (history ++ [store.written key id tombstone]) ∧
      written.awaitingRecovery = false ∧
      Disk.Spares (· ≠ place ++ [Log.fileName]) disk other := by
  have hw := h.write hk id tombstone
  refine ⟨_, _, ?_, hw.evictIfFull, ?_, hw.spares_evictIfFull⟩
  · rw [Store.upsert, checkRecovered, hr]
    rfl
  · rw [Store.evictIfFull]
    split <;> exact hr

theorem complete (h : store.Keeps disk place history) :
    (store.complete disk).2.1.Keeps (store.complete disk).2.2 place history ∧
      Disk.Spares (Outside place) disk (store.complete disk).2.2 := by
  have hheads : (store.complete disk).2.1.heads = store.heads := by
    obtain ⟨log, captured, last, -, hsame⟩ := complete_same store disk
    rw [hsame]
  exact ⟨⟨h.toLogs.complete.1, h.storable, hheads.trans h.heads, h.linked⟩, h.toLogs.complete.2⟩

theorem step (h : store.Keeps disk place history) {op : Op} (hf : op.Fits) :
    (Store.step op (store, disk)).1.Keeps (Store.step op (store, disk)).2 place
      (history ++ store.adds op) := by
  cases ho : op.record? with
  | none =>
    have hl := (h.toLogs.step op).1
    rw [adds_eq_nil store ho, List.append_nil] at hl ⊢
    exact ⟨hl, h.storable, (heads_step ho store disk).trans h.heads, h.linked⟩
  | some record =>
    have hd := does_step op store disk
    generalize Store.step op (store, disk) = after at hd ⊢
    cases hd with
    | refused hr =>
      rw [adds, if_pos hr, List.append_nil]
      exact h
    | written hr =>
      rw [adds, if_neg (by simp [hr])]
      exact (h.write hf _ _).evictIfFull
    | _ => cases ho

/-- A run adds its records, in order. -/
theorem run {ops : List Op} (h : store.Keeps disk place history) (hf : ∀ op ∈ ops, op.Fits) :
    (Store.run ops (store, disk)).1.Keeps (Store.run ops (store, disk)).2 place
      (history ++ added ops (store, disk)) := by
  induction ops generalizing store disk history with
  | nil =>
    rw [added, List.append_nil]
    exact h
  | cons op ops ih =>
    have hk := ih (h.step (hf op List.mem_cons_self)) fun other hother =>
      hf other (List.mem_cons_of_mem op hother)
    rw [List.append_assoc] at hk
    exact hk

end Keeps

end Store

end PredicateIndex
