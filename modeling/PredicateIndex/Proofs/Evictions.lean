import PredicateIndex.Proofs.StoreRun

/-!
# What eviction does not change

The records of a store follow from the upserts alone: each is linked to the
heads that the records before it leave behind. Flushing and evicting only move
records to the file, so two stores that take the same upserts give the same
addresses and have the same heads, however much each of them keeps in memory.
A read that has to go to the file may be completed at any later time, since
what has been flushed stays where it is.
-/

set_option autoImplicit false

namespace PredicateIndex

namespace Store

def Op.given? : Op → Option LogRecord
  | upsert _ key id tombstone => some ⟨id, tombstone, key⟩
  | _ => none

theorem Op.fits_of_given {op : Op} (h : ∀ given, op.given? = some given → given.key.Fits) :
    op.Fits := by
  cases op with
  | upsert session key id tombstone => exact h _ rfl
  | _ => trivial

def writtenAfter (history : List LogRecord) (given : LogRecord) : LogRecord :=
  LogRecord.stored { given with key := link (headsOf history) given.key }

def allWritten : List LogRecord → List LogRecord → List LogRecord
  | history, [] => history
  | history, given :: rest => allWritten (history ++ [writtenAfter history given]) rest

def address? : Op → Store × Disk → Option (Except Fault Nat)
  | .upsert session key id tombstone, (store, disk) =>
    some ((store.upsert session key id tombstone disk).map (·.1))
  | _, _ => none

def addresses : List Op → Store × Disk → List (Except Fault Nat)
  | [], _ => []
  | op :: ops, state => (address? op state).toList ++ addresses ops (step op state)

/-- Reading the address gives the record, at once or by a pending read. The pending read gives it
whatever is done before it is completed, unless the address exceeds what a file can hold. -/
def Serves (state : Store × Disk) (address : Nat) (record : LogRecord) : Prop :=
  ∀ session, state.1.read session address = .ok (.found record, session) ∨
    ∃ pending, state.1.read session address = .ok (.pending pending, session.recordPending) ∧
      (address + 4 < Disk.offsetLimit → ∀ more, pending.complete (run more state).2 = .ok record)

namespace Keeps

variable {store : Store} {disk : Disk} {place : Path} {history : List LogRecord}

theorem adds (h : store.Keeps disk place history) (hr : store.awaitingRecovery = false) (op : Op) :
    store.adds op = op.given?.toList.map (writtenAfter history) := by
  cases op with
  | upsert session key id tombstone =>
    rw [Store.adds, if_neg (by simp [hr]), written, h.heads]
    rfl
  | _ => rfl

theorem allWritten_adds (h : store.Keeps disk place history) (hr : store.awaitingRecovery = false)
    (op : Op) (ops : List Op) :
    allWritten history ((op :: ops).filterMap Op.given?) =
      allWritten (history ++ store.adds op) (ops.filterMap Op.given?) := by
  rw [h.adds hr]
  cases hg : op.given? with
  | none =>
    rw [List.filterMap_cons_none hg]
    simp
  | some given =>
    rw [List.filterMap_cons_some hg]
    rfl

theorem allWritten_run {ops : List Op} (h : store.Keeps disk place history)
    (hr : store.awaitingRecovery = false) (hf : ∀ op ∈ ops, op.Fits) :
    (Store.run ops (store, disk)).1.Keeps (Store.run ops (store, disk)).2 place
      (allWritten history (ops.filterMap Op.given?)) := by
  induction ops generalizing store disk history with
  | nil => exact h
  | cons op ops ih =>
    have hstep := h.step (hf op List.mem_cons_self)
    have hnext := (step_same op store disk).awaitingRecovery.trans hr
    rw [h.allWritten_adds hr]
    exact ih hstep hnext fun later hl => hf later (List.mem_cons_of_mem op hl)

theorem address_step (h : store.Keeps disk place history) (hr : store.awaitingRecovery = false)
    {op : Op} (hf : op.Fits) :
    (address? op (store, disk)).toList =
      (Log.addressed store.log.tail (store.adds op)).map fun entry => .ok entry.1 := by
  cases op with
  | upsert session key id tombstone =>
    obtain ⟨written, after, hu, -⟩ := h.upsert hr hf session id tombstone
    rw [address?, hu, Store.adds, if_neg (by simp [hr])]
    rfl
  | _ => rfl

theorem addresses_run {ops : List Op} (h : store.Keeps disk place history)
    (hr : store.awaitingRecovery = false) (hf : ∀ op ∈ ops, op.Fits) :
    (Log.addressed Log.origin history).map (fun entry => .ok entry.1) ++
        addresses ops (store, disk) =
      (Log.addressed Log.origin (allWritten history (ops.filterMap Op.given?))).map
        fun entry => .ok entry.1 := by
  -- the records that are there already stay in front, so the induction may extend them
  induction ops generalizing store disk history with
  | nil => exact List.append_nil _
  | cons op ops ih =>
    have hop := hf op List.mem_cons_self
    have hstep := h.step hop
    have hnext := (step_same op store disk).awaitingRecovery.trans hr
    have hlater := ih hstep hnext fun later hl => hf later (List.mem_cons_of_mem op hl)
    rw [h.allWritten_adds hr, ← hlater, Log.addressed_append, List.map_append, ← h.tail_eq,
      ← h.address_step hr hop, addresses, List.append_assoc]

theorem serves (h : store.Keeps disk place history) {address : Nat} {record : LogRecord}
    (hm : (address, record) ∈ Log.addressed Log.origin history) :
    Serves (store, disk) address record := by
  intro session
  rcases h.read hm with hfound | ⟨hflushed, hpending⟩
  · exact Or.inl (hfound session)
  · refine Or.inr ⟨_, hpending session, ?_⟩
    intro hlimit more
    -- later operations only add records and flush more, and the log keeps its path
    have hafter := h.toLogs.run more
    have hgrown := h.toLogs.flushed_run more
    have hsame : (Store.run more (store, disk)).1.log.pendingRead address =
        store.log.pendingRead address := by
      rw [Log.pendingRead, Log.pendingRead, hafter.path, h.path, (run_same more store disk).dir]
    have hrecord := h.storable record (Log.mem_of_addressed hm)
    have hlater : (address, record) ∈ Log.addressed Log.origin
        (history ++ added more (store, disk)) := by
      rw [Log.addressed_append]
      exact List.mem_append_left _ hm
    rw [← hsame]
    exact hafter.complete_pending hlater hrecord (Nat.le_trans hflushed hgrown) hlimit

end Keeps

/-- A new store gives every record that it takes the next address, links it as the heads of the
records before it say, and serves it from that address. -/
theorem serves_of_run {dir : Path} {config : Config} {disk opened : Disk} {store : Store}
    (hw : disk.WellFormed) (hopen : Store.open? dir config disk = (.ok store, opened))
    (hr : store.awaitingRecovery = false) {ops : List Op} {givens : List LogRecord}
    (hgivens : ops.filterMap Op.given? = givens) (hf : ∀ given ∈ givens, given.key.Fits) :
    addresses ops (store, opened) =
        (Log.addressed Log.origin (allWritten [] givens)).map (fun entry => .ok entry.1) ∧
      (run ops (store, opened)).1.heads = headsOf (allWritten [] givens) ∧
      ∀ address record, (address, record) ∈ Log.addressed Log.origin (allWritten [] givens) →
        Serves (run ops (store, opened)) address record := by
  obtain ⟨place, lock, latest, -, hkeeps, -, -⟩ := Store.open_ok hw hopen
  have hfits : ∀ op ∈ ops, op.Fits := by
    intro op ho
    apply Op.fits_of_given
    intro given hg
    apply hf
    rw [← hgivens]
    exact List.mem_filterMap.mpr ⟨op, ho, hg⟩
  have hrun := hkeeps.allWritten_run hr hfits
  have haddresses := hkeeps.addresses_run hr hfits
  rw [hgivens] at hrun haddresses
  refine ⟨haddresses, hrun.heads, ?_⟩
  intro address record hm
  exact hrun.serves hm

/-- Two new stores that take the same upserts give the same addresses, have the same heads and serve
the same records, whatever each of them may keep in memory and wherever it flushes, evicts, takes
checkpoints or reads. -/
theorem evictions_unnoticed {dir dir' : Path} {config config' : Config}
    {disk disk' opened opened' : Disk} {store store' : Store}
    (hw : disk.WellFormed) (hw' : disk'.WellFormed)
    (hopen : Store.open? dir config disk = (.ok store, opened))
    (hopen' : Store.open? dir' config' disk' = (.ok store', opened'))
    (hr : store.awaitingRecovery = false) (hr' : store'.awaitingRecovery = false)
    {ops ops' : List Op} (hsame : ops'.filterMap Op.given? = ops.filterMap Op.given?)
    (hf : ∀ given ∈ ops.filterMap Op.given?, given.key.Fits) :
    ∃ entries : List (Nat × LogRecord),
      entries.map (·.2) = allWritten [] (ops.filterMap Op.given?) ∧
      addresses ops (store, opened) = entries.map (fun entry => .ok entry.1) ∧
      addresses ops' (store', opened') = entries.map (fun entry => .ok entry.1) ∧
      (run ops (store, opened)).1.heads = (run ops' (store', opened')).1.heads ∧
      ∀ entry ∈ entries, Serves (run ops (store, opened)) entry.1 entry.2 ∧
        Serves (run ops' (store', opened')) entry.1 entry.2 := by
  obtain ⟨hfirst, hheads, hserves⟩ := serves_of_run hw hopen hr rfl hf
  obtain ⟨hsecond, hheads', hserves'⟩ := serves_of_run hw' hopen' hr' hsame hf
  refine ⟨Log.addressed Log.origin (allWritten [] (ops.filterMap Op.given?)),
    Log.map_addressed _ _, hfirst, hsecond, hheads.trans hheads'.symm, ?_⟩
  rintro ⟨address, record⟩ hm
  exact ⟨hserves address record hm, hserves' address record hm⟩

def halfNull : CompositeKey :=
  [{ ordinal := 0, key := some [97] }, { ordinal := 1, key := none, previous := 7 }]

def evictsBetween : List Op :=
  [.upsert ⟨1, 0, 0⟩ halfNull ⟨1, 1⟩ false, .evict, .upsert ⟨1, 1, 0⟩ halfNull ⟨2, 1⟩ true]

def flushesLast : List Op :=
  [.upsert ⟨4, 0, 0⟩ halfNull ⟨1, 1⟩ false, .readChain 0 [97],
    .upsert ⟨4, 1, 0⟩ halfNull ⟨2, 1⟩ true, .flush]

def bothOpen : Bool :=
  match Store.open? ["db"] {} {}, Store.open? ["eager"] { logMemorySize := 0 } {} with
  | (.ok store, _), (.ok store', _) => !store.awaitingRecovery && !store'.awaitingRecovery
  | _, _ => false

theorem evictions_unnoticed_between_upserts : ∃ store store' opened opened',
    ∃ entries : List (Nat × LogRecord),
      Store.open? ["db"] {} {} = (.ok store, opened) ∧
      Store.open? ["eager"] { logMemorySize := 0 } {} = (.ok store', opened') ∧
      entries.length = 2 ∧
      addresses evictsBetween (store, opened) = addresses flushesLast (store', opened') ∧
      ∀ entry ∈ entries, Serves (run evictsBetween (store, opened)) entry.1 entry.2 ∧
        Serves (run flushesLast (store', opened')) entry.1 entry.2 := by
  have hfacts : bothOpen = true := by decide +kernel
  unfold bothOpen at hfacts
  rcases hopen : Store.open? ["db"] {} {} with ⟨fault | store, opened⟩
  · rw [hopen] at hfacts
    cases hfacts
  · rcases hopen' : Store.open? ["eager"] { logMemorySize := 0 } {} with ⟨fault | store', opened'⟩
    · rw [hopen, hopen'] at hfacts
      cases hfacts
    · rw [hopen, hopen'] at hfacts
      obtain ⟨hr, hr'⟩ : store.awaitingRecovery = false ∧ store'.awaitingRecovery = false := by
        simpa using hfacts
      have hf : ∀ given ∈ evictsBetween.filterMap Op.given?, given.key.Fits := by decide
      obtain ⟨entries, hm, ha, ha', -, hserves⟩ := evictions_unnoticed Disk.WellFormed.empty
        Disk.WellFormed.empty hopen hopen' hr hr' (show flushesLast.filterMap Op.given? =
          evictsBetween.filterMap Op.given? from rfl) hf
      have hlength := congrArg List.length hm
      rw [List.length_map] at hlength
      exact ⟨store, store', opened, opened', entries, rfl, rfl, hlength, ha.trans ha'.symm,
        hserves⟩

end Store

end PredicateIndex
