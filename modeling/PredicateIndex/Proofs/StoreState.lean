import PredicateIndex.Proofs.Heads
import PredicateIndex.Proofs.LogRecords
import PredicateIndex.Store.Chain

/-!
# What a store keeps

A store stands for the list of records written to it. The bytes of its log are
the bytes of these records, its heads are their replay, and every slot of a
record names the head that its chain had when the record came. Writing extends
the list by one record; flushing and evicting leave it as it is.
-/

set_option autoImplicit false

namespace PredicateIndex

structure Log.Fits (log : Log) : Prop where
  flushed : log.flushed ≤ Disk.offsetLimit
  tail : log.tail < UInt64.size

namespace Store

def headsOf (history : List LogRecord) : ChainHeads := replay (Log.addressed Log.origin history) []

/-- Every slot of every record names the head that its chain had before the record. -/
def Linked (history : List LogRecord) : Prop :=
  ∀ front record back, history = front ++ record :: back →
    link (headsOf front) record.key = record.key

structure Logs (store : Store) (disk : Disk) (place : Path) (history : List LogRecord) : Prop where
  wellFormed : disk.WellFormed
  homed : Disk.Homed disk store.dir place
  path : store.log.path = store.dir.child Log.fileName
  entry : disk.entry? (place ++ [Log.fileName]) = some (.file store.log.file)
  start : store.log.start = Log.origin
  holds : store.log.Holds disk (Log.image history)
  aligned : ∃ old recent, history = old ++ recent ∧
    store.log.head = Log.origin + (Log.image old).length

/-- The records are those in the log of the store and can be read back; its heads and all links
follow them. -/
structure Keeps (store : Store) (disk : Disk) (place : Path) (history : List LogRecord) : Prop
    extends store.Logs disk place history where
  storable : ∀ record ∈ history, record.Storable
  heads : store.heads = headsOf history
  linked : Linked history

theorem headsOf_snoc (history : List LogRecord) (record : LogRecord) :
    headsOf (history ++ [record]) =
      relink (UInt64.ofNat (Log.origin + (Log.image history).length)) record.key
        (headsOf history) := by
  rw [headsOf, Log.addressed_append]
  exact replay_snoc _ _ _

theorem ascending_headsOf (history : List LogRecord) : (headsOf history).Ascending :=
  ascending_replay _ List.Pairwise.nil

theorem link_slot_stored (heads : ChainHeads) (key : CompositeKey) :
    link heads ((link heads key).map Slot.stored) = (link heads key).map Slot.stored := by
  rw [link, link, List.map_map, List.map_map, List.map_map]
  apply List.map_congr_left
  intro slot _
  cases hc : slot.chain? with
  | none =>
    have hs : slot.stored.chain? = none := hc
    simp [hc, hs]
  | some chain =>
    have hs : Slot.chain? (Slot.stored { slot with previous := heads.head chain }) = some chain := hc
    simp only [Function.comp, hc, hs]
    rfl

theorem linked_nil : Linked [] := fun front _ _ h => by cases front <;> cases h

theorem linked_snoc {history : List LogRecord} {record : LogRecord} (h : Linked history)
    (hr : link (headsOf history) record.key = record.key) : Linked (history ++ [record]) := by
  intro front other back hs
  rcases List.eq_nil_or_concat back with rfl | ⟨back, last, rfl⟩
  · obtain ⟨rfl, hl⟩ := List.append_inj' hs rfl
    obtain ⟨rfl, -⟩ := List.cons.inj hl
    exact hr
  · rw [List.concat_eq_append, ← List.cons_append, ← List.append_assoc] at hs
    obtain ⟨rfl, -⟩ := List.append_inj' hs rfl
    exact h front other back rfl

def written (store : Store) (key : CompositeKey) (id : RecordId) (tombstone : Bool) : LogRecord :=
  LogRecord.stored ⟨id, tombstone, link store.heads key⟩

theorem fits_link (heads : ChainHeads) {key : CompositeKey} (h : key.Fits) :
    (link heads key).Fits := by
  refine ⟨?_, fun slot hs => ?_⟩
  · rw [link, List.length_map]
    exact h.1
  · obtain ⟨original, ho, rfl⟩ := List.mem_map.mp hs
    have hk := h.2 original ho
    split <;> exact hk

theorem chains_written (store : Store) (key : CompositeKey) (id : RecordId) (tombstone : Bool) :
    (store.written key id tombstone).key.chains = key.chains := by
  rw [written, CompositeKey.chains_stored, CompositeKey.chains_link]

theorem flush_eq (store : Store) (disk : Disk) :
    store.flush disk = ({ store with log := (store.log.flush disk).1 },
      (store.log.flush disk).2) := rfl

theorem evict_eq (store : Store) (disk : Disk) :
    store.evict disk = ({ store with log := (store.log.evict disk).1 },
      (store.log.evict disk).2) := rfl

namespace Logs

variable {store : Store} {disk other : Disk} {place : Path} {history : List LogRecord}

theorem frame {spared : Path → Prop} (h : store.Logs disk place history)
    (hs : Disk.Spares spared disk other) (hp : spared (place ++ [Log.fileName])) :
    store.Logs other place history := by
  obtain ⟨he, hc⟩ := hs.file _ _ hp h.entry
  have hr := hs.wellFormed.inRange _ _ he
  exact { h with
    wellFormed := hs.wellFormed
    homed := h.homed.mono hs.directory
    entry := he
    holds := { h.holds with
      inRange := hr
      reaches := hc ▸ h.holds.reaches
      onDisk := hc ▸ h.holds.onDisk } }

theorem congr {same : Store} (h : store.Logs disk place history) (hd : same.dir = store.dir)
    (hl : same.log = store.log) : same.Logs disk place history where
  wellFormed := h.wellFormed
  homed := hd ▸ h.homed
  path := by rw [hl, hd, h.path]
  entry := by rw [hl, h.entry]
  start := by rw [hl, h.start]
  holds := by rw [hl]; exact h.holds
  aligned := by rw [hl]; exact h.aligned

theorem tail_eq (h : store.Logs disk place history) :
    store.log.tail = Log.origin + (Log.image history).length := by
  rw [h.holds.tail_eq, h.start]

theorem origin_le_tail (h : store.Logs disk place history) : Log.origin ≤ store.log.tail := by
  rw [h.tail_eq]
  exact Nat.le_add_right _ _

theorem write (h : store.Logs disk place history) (key : CompositeKey) (id : RecordId)
    (tombstone : Bool) :
    (store.write key id tombstone).Logs disk place (history ++ [store.written key id tombstone]) := by
  have himage : Log.image (history ++ [store.written key id tombstone]) =
      Log.image history ++ LogRecord.encode ⟨id, tombstone, link store.heads key⟩ := by
    rw [Log.image_append, Log.image_singleton, written, LogRecord.encode_stored]
  obtain ⟨old, recent, hs, hh⟩ := h.aligned
  refine ⟨h.wellFormed, h.homed, h.path, h.entry, h.start, ?_, ?_⟩
  · rw [himage]
    exact h.holds.append _
  · exact ⟨old, recent ++ [store.written key id tombstone], by rw [hs, List.append_assoc], hh⟩

theorem writesOnly (h : store.Logs disk place history) {id : FileId}
    (hw : Disk.WritesOnly id disk other) {log : Log} (hp : log.path = store.log.path)
    (hf : log.file = store.log.file) (hs : log.start = store.log.start)
    (hl : log.Holds other (Log.image history))
    (ha : ∃ old recent, history = old ++ recent ∧ log.head = Log.origin + (Log.image old).length) :
    Logs { store with log } other place history where
  wellFormed := hw.wellFormed h.wellFormed
  homed := h.homed.mono fun p hd => by rw [hw.entry?_eq p, hd]
  path := hp.trans h.path
  entry := by rw [hw.entry?_eq, h.entry, hf]
  start := hs.trans h.start
  holds := hl
  aligned := ha

theorem flush (h : store.Logs disk place history) :
    (store.flush disk).1.Logs (store.flush disk).2 place history := by
  have hf := h.holds.flush_log
  rw [flush_eq]
  apply h.writesOnly (Log.Holds.writesOnly_flush store.log disk)
  · rw [hf]
  · rw [hf]
  · rw [hf]
  · exact h.holds.flush
  · rw [hf]
    exact h.aligned

theorem evict (h : store.Logs disk place history) :
    (store.evict disk).1.Logs (store.evict disk).2 place history := by
  have hf := h.holds.evict_log
  rw [evict_eq]
  apply h.writesOnly (Log.Holds.writesOnly_evict store.log disk)
  · rw [hf]
  · rw [hf]
  · rw [hf]
  · exact h.holds.evict
  · rw [hf]
    exact ⟨history, [], (List.append_nil history).symm, h.tail_eq⟩

theorem evictIfFull (h : store.Logs disk place history) :
    (store.evictIfFull disk).1.Logs (store.evictIfFull disk).2 place history := by
  rw [Store.evictIfFull]
  split
  · exact h.evict
  · exact h

theorem spares_flush (h : store.Logs disk place history) :
    Disk.Spares (· ≠ place ++ [Log.fileName]) disk (store.flush disk).2 :=
  (Log.Holds.writesOnly_flush store.log disk).spares h.wellFormed h.entry

theorem spares_evict (h : store.Logs disk place history) :
    Disk.Spares (· ≠ place ++ [Log.fileName]) disk (store.evict disk).2 :=
  (Log.Holds.writesOnly_evict store.log disk).spares h.wellFormed h.entry

theorem spares_evictIfFull (h : store.Logs disk place history) :
    Disk.Spares (· ≠ place ++ [Log.fileName]) disk (store.evictIfFull disk).2 := by
  rw [Store.evictIfFull]
  split
  · exact h.spares_evict
  · exact .refl h.wellFormed

end Logs

theorem heads_evictIfFull (store : Store) (disk : Disk) :
    (store.evictIfFull disk).1.heads = store.heads := by
  rw [evictIfFull]
  split <;> rfl

namespace Keeps

variable {store : Store} {disk other : Disk} {place : Path} {history : List LogRecord}

theorem frame {spared : Path → Prop} (h : store.Keeps disk place history)
    (hs : Disk.Spares spared disk other) (hp : spared (place ++ [Log.fileName])) :
    store.Keeps other place history := ⟨h.toLogs.frame hs hp, h.storable, h.heads, h.linked⟩

theorem congr {same : Store} (h : store.Keeps disk place history) (hd : same.dir = store.dir)
    (hl : same.log = store.log) (hh : same.heads = store.heads) : same.Keeps disk place history :=
  ⟨h.toLogs.congr hd hl, h.storable, hh.trans h.heads, h.linked⟩

theorem write (h : store.Keeps disk place history) {key : CompositeKey} (hk : key.Fits)
    (id : RecordId) (tombstone : Bool) :
    (store.write key id tombstone).Keeps disk place
      (history ++ [store.written key id tombstone]) := by
  have hc : (link store.heads key).chains = (store.written key id tombstone).key.chains := by
    rw [chains_written, CompositeKey.chains_link]
  have hstored : (store.written key id tombstone).Storable :=
    LogRecord.storable_stored (fits_link store.heads hk)
  refine ⟨h.toLogs.write key id tombstone, ?_, ?_, ?_⟩
  · intro record hr
    rcases List.mem_append.mp hr with hr | hr
    · exact h.storable record hr
    · rw [List.mem_singleton.mp hr]
      exact hstored
  · rw [headsOf_snoc, ← h.heads, ← h.tail_eq]
    exact relink_congr hc _ _
  · apply linked_snoc h.linked
    rw [← h.heads]
    exact link_slot_stored store.heads key

theorem flush (h : store.Keeps disk place history) :
    (store.flush disk).1.Keeps (store.flush disk).2 place history :=
  ⟨h.toLogs.flush, h.storable, h.heads, h.linked⟩

theorem evict (h : store.Keeps disk place history) :
    (store.evict disk).1.Keeps (store.evict disk).2 place history :=
  ⟨h.toLogs.evict, h.storable, h.heads, h.linked⟩

theorem evictIfFull (h : store.Keeps disk place history) :
    (store.evictIfFull disk).1.Keeps (store.evictIfFull disk).2 place history :=
  ⟨h.toLogs.evictIfFull, h.storable, (heads_evictIfFull store disk).trans h.heads, h.linked⟩

end Keeps

end Store

end PredicateIndex
