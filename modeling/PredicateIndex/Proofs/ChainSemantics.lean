import PredicateIndex.Proofs.StoreRun

/-!
# Chains after a run

The log of a store can be read as a list of records, those on disk before those
in memory. After any run of a new store every chain leads through exactly the
records that hold its key, and reading it gives the ids that the newest of
these records left live.
-/

set_option autoImplicit false

namespace PredicateIndex

namespace LogRecord

def isOn (record : LogRecord) (ordinal : UInt8) (key : Bytes) : Bool :=
  (record.key.slot? ordinal).any fun slot => slot.key = some key

theorem isOn_iff {record : LogRecord} (ho : record.key.Ordered) (hl : record.key.length ≤ 255)
    (ordinal : UInt8) (key : Bytes) :
    record.isOn ordinal key = true ↔ chainKey ordinal key ∈ record.key.chains := by
  rw [CompositeKey.mem_chains_iff ho hl, isOn, Option.any_eq_true]
  simp

end LogRecord

namespace Store

def records (store : Store) (disk : Disk) : Except Fault (List (Nat × LogRecord)) :=
  Log.records (store.log.bytes disk).length store.log.start (store.log.bytes disk)

theorem Logs.records {store : Store} {disk : Disk} {place : Path} {history : List LogRecord}
    (h : store.Logs disk place history) (hs : ∀ record ∈ history, record.Storable) :
    store.records disk = .ok (Log.addressed Log.origin history) := by
  rw [Store.records, h.holds.bytes_eq, h.start]
  exact Log.records_image hs (Log.length_le_image history) Log.origin

theorem Keeps.records {store : Store} {disk : Disk} {place : Path} {history : List LogRecord}
    (h : store.Keeps disk place history) :
    store.records disk = .ok (Log.addressed Log.origin history) := h.toLogs.records h.storable

theorem liveIn_iff (id : RecordId) (records : List LogRecord) :
    liveIn id records = true ↔ ∃ front record back, records = front ++ record :: back ∧
      (∀ other ∈ front, other.id ≠ id) ∧ record.id = id ∧ record.tombstone = false := by
  induction records with
  | nil => simp [liveIn]
  | cons first rest ih =>
    rw [liveIn]
    by_cases h : first.id = id
    · rw [if_pos h]
      constructor
      · intro ht
        exact ⟨[], first, rest, rfl, by simp, h, by simpa using ht⟩
      · rintro ⟨front, record, back, hs, hf, -, ht⟩
        cases front with
        | nil =>
          obtain ⟨rfl, -⟩ := List.cons.inj hs
          simp [ht]
        | cons other front =>
          obtain ⟨rfl, -⟩ := List.cons.inj hs
          exact (hf first List.mem_cons_self h).elim
    · rw [if_neg h, ih]
      constructor
      · rintro ⟨front, record, back, rfl, hf, hi, ht⟩
        refine ⟨first :: front, record, back, rfl, fun other ho => ?_, hi, ht⟩
        rcases List.mem_cons.mp ho with rfl | ho
        · exact h
        · exact hf other ho
      · rintro ⟨front, record, back, hs, hf, hi, ht⟩
        cases front with
        | nil =>
          obtain ⟨rfl, -⟩ := List.cons.inj hs
          exact (h hi).elim
        | cons other front =>
          obtain ⟨rfl, rfl⟩ := List.cons.inj hs
          exact ⟨front, record, back, rfl,
            fun other ho => hf other (List.mem_cons_of_mem first ho), hi, ht⟩

/-- In the order of the log the last entry for an id decides whether it is live. -/
theorem liveIn_reverse_iff (id : RecordId) (entries : List (Nat × LogRecord)) :
    liveIn id (entries.reverse.map (·.2)) = true ↔
      ∃ front entry back, entries = front ++ entry :: back ∧ entry.2.id = id ∧
        entry.2.tombstone = false ∧ ∀ other ∈ back, other.2.id ≠ id := by
  rw [liveIn_iff]
  constructor
  · rintro ⟨front, record, back, hs, hf, hi, ht⟩
    obtain ⟨first, rest, hr, rfl, hrest⟩ := List.map_eq_append_iff.mp hs
    obtain ⟨entry, last, rfl, rfl, rfl⟩ := List.map_eq_cons_iff.mp hrest
    refine ⟨last.reverse, entry, first.reverse, ?_, hi, ht, fun other ho => ?_⟩
    · have hrev := congrArg List.reverse hr
      simpa using hrev
    · exact hf other.2 (List.mem_map_of_mem (List.mem_reverse.mp ho))
  · rintro ⟨front, entry, back, rfl, hi, ht, hb⟩
    refine ⟨back.reverse.map (·.2), entry.2, front.reverse.map (·.2), by simp, ?_, hi, ht⟩
    intro other ho
    obtain ⟨found, hm, rfl⟩ := List.mem_map.mp ho
    exact hb found (List.mem_reverse.mp hm)

def entriesOn (ordinal : UInt8) (key : Bytes) (entries : List (Nat × LogRecord)) :
    List (Nat × LogRecord) :=
  entries.filter fun entry => entry.2.isOn ordinal key

theorem Keeps.entriesOn_eq {store : Store} {disk : Disk} {place : Path} {history : List LogRecord}
    (h : store.Keeps disk place history) (ho : ∀ record ∈ history, record.key.Ordered)
    (ordinal : UInt8) (key : Bytes) :
    entriesOn ordinal key (Log.addressed Log.origin history) =
      onChain (chainKey ordinal key) (Log.addressed Log.origin history) := by
  apply List.filter_congr
  intro entry he
  have hm : entry.2 ∈ history := by
    rw [← Log.map_addressed Log.origin history]
    exact List.mem_map_of_mem he
  have hon := LogRecord.isOn_iff (ho entry.2 hm) (h.storable entry.2 hm).1.1 ordinal key
  rw [Bool.eq_iff_iff, hon, decide_eq_true_iff]

theorem Keeps.isSome_lookup_iff {store : Store} {disk : Disk} {place : Path}
    {history : List LogRecord} (h : store.Keeps disk place history) (chain : Bytes) :
    (store.heads.lookup chain).isSome ↔
      ∃ entry ∈ Log.addressed Log.origin history, chain ∈ entry.2.key.chains := by
  have hn : onChain chain (Log.addressed Log.origin history) ≠ [] ↔
      ∃ entry, entry ∈ onChain chain (Log.addressed Log.origin history) :=
    ⟨List.exists_mem_of_ne_nil _, fun ⟨_, he⟩ => List.ne_nil_of_mem he⟩
  rw [h.heads, lookup_headsOf, Option.isSome_map, List.getLast?_isSome, hn]
  simp only [onChain, List.mem_filter, decide_eq_true_eq]

/-- After any run of a new store, following the previous addresses from the head of a chain visits
exactly the records that hold its key, newest first; the index has heads for exactly the chains of
the records; and reading a chain gives the ids whose last record on it is no tombstone. -/
theorem chains_of_run {dir : Path} {config : Config} {disk opened other : Disk}
    {store after : Store} {ops : List Op} (hw : disk.WellFormed)
    (hopen : Store.open? dir config disk = (.ok store, opened))
    (hnew : store.awaitingRecovery = false) (hops : ∀ op ∈ ops, op.Fits ∧ op.Ordered)
    (hrun : run ops (store, opened) = (after, other)) (hfits : after.log.Fits) :
    ∃ entries, after.records other = .ok entries ∧
      entries.map (fun entry => entry.2.unlinked) = ops.filterMap Op.record? ∧
      (∀ entry ∈ entries, after.log.start ≤ entry.1 ∧
        entry.1 + entry.2.encodedLength ≤ after.log.tail) ∧
      entries.Pairwise (fun a b => a.1 < b.1) ∧
      (∀ chain, (after.heads.lookup chain).isSome ↔
        ∃ entry ∈ entries, chain ∈ entry.2.key.chains) ∧
      ∀ ordinal key,
        Traversal after other ordinal key (after.heads.head (chainKey ordinal key))
          (entriesOn ordinal key entries).reverse ∧
        ∃ ids, (∀ dead, (after.readChain ordinal key false other dead).1 = .ok (some ids)) ∧
          RecordId.Ascending ids ∧
          ∀ id, id ∈ ids ↔ ∃ front entry back, entriesOn ordinal key entries =
            front ++ entry :: back ∧ entry.2.id = id ∧ entry.2.tombstone = false ∧
              ∀ later ∈ back, later.2.id ≠ id := by
  obtain ⟨place, lock, latest, -, hk, -, -⟩ := open_ok hw hopen
  have hkeeps := hk.run fun op ho => (hops op ho).1
  have hmore : (added ops (store, opened)).map LogRecord.unlinked = ops.filterMap Op.record? :=
    added_unlinked hnew opened
  have hordered := added_ordered (fun op ho => (hops op ho).2) (store, opened)
  rw [hrun, List.nil_append] at hkeeps
  refine ⟨Log.addressed Log.origin (added ops (store, opened)), hkeeps.records, ?_,
    fun entry he => ?_,
    Log.addressed_ascending Log.origin _, hkeeps.isSome_lookup_iff, fun ordinal key => ?_⟩
  · have hmap := congrArg (List.map LogRecord.unlinked) 
      (Log.map_addressed Log.origin (added ops (store, opened)))
    rw [List.map_map] at hmap
    exact hmap.trans hmore
  · have hb := Log.addressed_bounds he
    rw [hkeeps.start, hkeeps.tail_eq]
    exact hb
  · rw [hkeeps.entriesOn_eq hordered]
    refine ⟨hkeeps.traversal hfits hordered ordinal key, ?_⟩
    obtain ⟨ids, -, ha, hm⟩ := hkeeps.readChain hfits hordered ordinal key []
    refine ⟨ids, fun dead => ?_, ha, fun id => (hm id).trans (liveIn_reverse_iff id _)⟩
    obtain ⟨others, hr, hao, hmo⟩ := hkeeps.readChain hfits hordered ordinal key dead
    rw [hr, ha.ext hao fun id => (hm id).trans (hmo id).symm]

def threeWrites : List Op :=
  let key : CompositeKey := [{ ordinal := 0, key := some [97] }]
  [.upsert ⟨1, 0, 0⟩ key ⟨1, 1⟩ false, .evict, .upsert ⟨1, 1, 0⟩ key ⟨2, 1⟩ false,
    .upsert ⟨1, 2, 0⟩ key ⟨1, 1⟩ true]

def threeWritesFit : Bool :=
  match Store.open? ["db"] {} {} with
  | (.ok store, opened) => decide (store.awaitingRecovery = false ∧
      (run threeWrites (store, opened)).1.log.flushed ≤ Disk.offsetLimit ∧
      (run threeWrites (store, opened)).1.log.tail < UInt64.size)
  | (.error _, _) => false

theorem chains_of_three_writes : ∃ store opened after other entries ids,
    Store.open? ["db"] {} {} = (.ok store, opened) ∧ run threeWrites (store, opened) = (after, other) ∧
      after.records other = .ok entries ∧ entries.length = 3 ∧
      Traversal after other 0 [97] (after.heads.head (chainKey 0 [97]))
        (entriesOn 0 [97] entries).reverse ∧
      (after.readChain 0 [97] false other []).1 = .ok (some ids) ∧ RecordId.Ascending ids := by
  have hfacts : threeWritesFit = true := by decide +kernel
  unfold threeWritesFit at hfacts
  have hops : ∀ op ∈ threeWrites, op.Fits ∧ op.Ordered := by
    have hkey : CompositeKey.Fits [{ ordinal := 0, key := some [97] }] ∧
        CompositeKey.Ordered [{ ordinal := 0, key := some [97] }] := by
      refine ⟨⟨by decide, by decide⟩, fun i slot hs => ?_⟩
      obtain ⟨rfl, rfl⟩ : i = 0 ∧ slot = { ordinal := 0, key := some [97] } := by
        cases i with
        | zero => exact ⟨rfl, (Option.some.inj hs).symm⟩
        | succ i => cases hs
      rfl
    simp [threeWrites, Op.Fits, Op.Ordered, hkey]
  cases hopen : Store.open? ["db"] {} {} with
  | mk result opened =>
    rw [hopen] at hfacts
    cases result with
    | error fault => cases hfacts
    | ok store =>
      obtain ⟨hnew, hflushed, htail⟩ := of_decide_eq_true hfacts
      obtain ⟨entries, hr, hm, -, -, -, hchain⟩ :=
        chains_of_run Disk.WellFormed.empty hopen hnew hops rfl ⟨hflushed, htail⟩
      obtain ⟨htraversal, ids, hids, ha, -⟩ := hchain 0 [97]
      have hlength := congrArg List.length hm
      rw [List.length_map] at hlength
      exact ⟨store, opened, _, _, entries, ids, rfl, rfl, hr, hlength, htraversal, hids [], ha⟩

end Store

end PredicateIndex
