import PredicateIndex.Proofs.LogContents
import PredicateIndex.Proofs.RecordCodec

/-!
# The records of a log

A log that took records one after another is scanned into these records at the
addresses they got. Reading one of them back gives it whether its bytes are
still in memory or only in the file.
-/

set_option autoImplicit false

namespace PredicateIndex

namespace LogRecord

def Storable (record : LogRecord) : Prop := record.key.Fits ∧ record.stored = record

theorem slotsLength_stored (key : CompositeKey) :
    slotsLength (key.map Slot.stored) = slotsLength key := by
  induction key with
  | nil => rfl
  | cons slot key ih =>
    rw [List.map_cons, slotsLength, slotsLength, ih]
    rfl

theorem encodedLength_stored (record : LogRecord) :
    record.stored.encodedLength = record.encodedLength := by
  rw [encodedLength, encodedLength, stored, slotsLength_stored]

theorem encode_stored (record : LogRecord) : record.stored.encode = record.encode := by
  have hb : record.stored.encodeBody = record.encodeBody := by
    rw [encodeBody, encodeBody, encodedLength_stored, stored, List.length_map, List.flatMap_map]
    rfl
  rw [encode, encode, hb]

theorem storable_stored {record : LogRecord} (h : record.key.Fits) : record.stored.Storable :=
  ⟨CompositeKey.fits_stored.mpr h, by simp [stored, Slot.stored]⟩

theorem Storable.decode {record : LogRecord} (h : record.Storable) (rest : Bytes) :
    LogRecord.decode (record.encode ++ rest) = .ok record := by
  rw [decode_append h.1, h.2]

end LogRecord

namespace Log

def image (history : List LogRecord) : Bytes := history.flatMap LogRecord.encode

def addressed : Nat → List LogRecord → List (Nat × LogRecord)
  | _, [] => []
  | address, record :: rest =>
    (address, record) :: addressed (address + record.encodedLength) rest

theorem image_append (front back : List LogRecord) :
    image (front ++ back) = image front ++ image back := List.flatMap_append

theorem image_prefix {front history : List LogRecord} (h : front <+: history) :
    image front <+: image history := by
  obtain ⟨back, rfl⟩ := h
  rw [image_append]
  exact List.prefix_append _ _

theorem image_cons (record : LogRecord) (rest : List LogRecord) :
    image (record :: rest) = record.encode ++ image rest := List.flatMap_cons

theorem image_singleton (record : LogRecord) : image [record] = record.encode := by
  rw [image_cons]
  exact List.append_nil _

theorem addressed_append (address : Nat) (front back : List LogRecord) :
    addressed address (front ++ back) =
      addressed address front ++ addressed (address + (image front).length) back := by
  induction front generalizing address with
  | nil => rfl
  | cons record front ih =>
    rw [List.cons_append, addressed, addressed, ih, image_cons, List.length_append,
      LogRecord.length_encode, Nat.add_assoc]
    rfl

theorem map_addressed (address : Nat) (history : List LogRecord) :
    (addressed address history).map (·.2) = history := by
  induction history generalizing address with
  | nil => rfl
  | cons record rest ih => rw [addressed, List.map_cons, ih]

theorem mem_addressed {address start : Nat} {record : LogRecord} {history : List LogRecord} :
    (address, record) ∈ addressed start history ↔
      ∃ front back, history = front ++ record :: back ∧
        address = start + (image front).length := by
  constructor
  · intro h
    induction history generalizing start with
    | nil => cases h
    | cons first rest ih =>
      rcases List.mem_cons.mp h with h | h
      · obtain ⟨rfl, rfl⟩ := Prod.mk.inj h
        exact ⟨[], rest, rfl, rfl⟩
      · obtain ⟨front, back, rfl, rfl⟩ := ih h
        refine ⟨first :: front, back, rfl, ?_⟩
        rw [image_cons, List.length_append, LogRecord.length_encode, Nat.add_assoc]
  · rintro ⟨front, back, rfl, rfl⟩
    rw [addressed_append]
    exact List.mem_append_right _ List.mem_cons_self

theorem addressed_bounds {address start : Nat} {record : LogRecord} {history : List LogRecord}
    (h : (address, record) ∈ addressed start history) :
    start ≤ address ∧ address + record.encodedLength ≤ start + (image history).length := by
  obtain ⟨front, back, rfl, rfl⟩ := mem_addressed.mp h
  rw [image_append, image_cons, List.length_append, List.length_append, LogRecord.length_encode]
  omega

theorem mem_of_addressed {address start : Nat} {record : LogRecord} {history : List LogRecord}
    (h : (address, record) ∈ addressed start history) : record ∈ history := by
  obtain ⟨front, back, rfl, -⟩ := mem_addressed.mp h
  exact List.mem_append_right _ List.mem_cons_self

theorem drop_image {address start : Nat} {record : LogRecord} {history : List LogRecord}
    (h : (address, record) ∈ addressed start history) :
    ∃ rest, (image history).drop (address - start) = record.encode ++ rest := by
  obtain ⟨front, back, rfl, rfl⟩ := mem_addressed.mp h
  refine ⟨image back, ?_⟩
  rw [image_append, image_cons, Nat.add_sub_cancel_left, List.drop_left]

theorem addressed_ascending (start : Nat) (history : List LogRecord) :
    (addressed start history).Pairwise fun a b => a.1 < b.1 := by
  induction history generalizing start with
  | nil => exact List.Pairwise.nil
  | cons record rest ih =>
    refine List.pairwise_cons.mpr ⟨fun entry he => ?_, ih _⟩
    have hb := (addressed_bounds he).1
    have hg := record.encodedLength_ge
    omega

theorem records_succ {bytes : Bytes} (h : bytes ≠ []) (fuel address : Nat) :
    records (fuel + 1) address bytes = (do
      let record ← LogRecord.decode bytes
      let length ← LogRecord.peekLength bytes
      let others ← records fuel (address + length) (bytes.drop length)
      return (address, record) :: others) := by
  cases bytes with
  | nil => exact (h rfl).elim
  | cons => rfl

theorem records_front {record : LogRecord} {front : Bytes} (h : record.Fills front)
    (fuel address : Nat) (behind : Bytes) :
    records (fuel + 1) address (front ++ behind) =
      (records fuel (address + front.length) behind).map ((address, record) :: ·) := by
  rw [records_succ (h.append_ne_nil behind)]
  simp only [h.decode_append, h.peekLength_append, List.drop_left, bind, Except.bind]
  cases records fuel (address + front.length) behind <;> rfl

/-- Scanning bytes of records gives the records, each at its address. -/
theorem records_image {history : List LogRecord} (hs : ∀ r ∈ history, r.Storable) {fuel : Nat}
    (hf : history.length ≤ fuel) (address : Nat) :
    records fuel address (image history) = .ok (addressed address history) := by
  induction history generalizing fuel address with
  | nil => cases fuel <;> rfl
  | cons record rest ih =>
    cases fuel with
    | zero => simp at hf
    | succ fuel =>
      have hr := hs record List.mem_cons_self
      have hfills := LogRecord.fills_encode hr.1
      rw [hr.2] at hfills
      have ht := ih (fun r h => hs r (List.mem_cons_of_mem record h))
        (Nat.le_of_succ_le_succ hf) (address + record.encode.length)
      rw [image_cons, addressed, records_front hfills, ht, record.length_encode]
      rfl

/-- A record with 256 slots alone in a log is read as one without slots. -/
theorem records_wrapped {record : LogRecord} (h : record.encodedLength < Bytes.modulus 4)
    (hc : record.key.length % 256 = 0) (address : Nat) :
    records record.encode.length address record.encode =
      .ok [(address, ⟨record.id, record.tombstone, []⟩)] := by
  have hd := LogRecord.decode_wrapped h hc []
  have hp := LogRecord.peekLength_append h []
  have hl := record.length_encode
  have hg := record.encodedLength_ge
  rw [List.append_nil] at hd hp
  obtain ⟨fuel, hf⟩ : ∃ fuel, record.encode.length = fuel + 1 := ⟨record.encode.length - 1, by omega⟩
  rw [hf, records_succ record.encode_ne_nil]
  simp only [hd, hp, bind, Except.bind, List.drop_of_length_le (Nat.le_of_eq hl)]
  cases fuel <;> rfl

theorem length_le_image (history : List LogRecord) : history.length ≤ (image history).length := by
  induction history with
  | nil => exact Nat.le_refl _
  | cons record rest ih =>
    have hg := record.encodedLength_ge
    rw [image_cons, List.length_append, LogRecord.length_encode, List.length_cons]
    omega

namespace Holds

variable {log : Log} {disk : Disk}

theorem resident_of_le {bytes : Bytes} (h : log.Holds disk bytes) {address : Nat}
    (hh : log.head ≤ address) (ht : address < log.tail) :
    log.resident address = .ok (some (bytes.drop (address - log.start))) := by
  have hs := h.start_le
  have hd : address - log.head + (log.head - log.start) = address - log.start := by omega
  rw [resident, if_neg (by omega), if_neg (by omega), h.buffer_eq, List.drop_drop, Nat.add_comm, hd]

theorem resident_of_lt {bytes : Bytes} (h : log.Holds disk bytes) {address : Nat}
    (hs : log.start ≤ address) (hh : address < log.head) : log.resident address = .ok none := by
  have hf := h.head_le
  have ht := h.flushed_le
  rw [resident, if_neg (by omega), if_pos hh]

end Holds

/-- A pending read gives the record whose bytes stand at its address. -/
theorem complete_record {read : PendingRead} {disk : Disk} {content rest : Bytes}
    {record : LogRecord} (hs : record.Storable)
    (hr : disk.readAt read.path read.address 4 = .ok content)
    (hc : content.drop read.address = record.encode ++ rest) :
    read.complete disk = .ok record := by
  have hg := record.encodedLength_ge
  have hl : content.length - read.address = record.encodedLength + rest.length := by
    rw [← List.length_drop, hc, List.length_append, LogRecord.length_encode]
  have ht : (record.encode ++ rest).take record.encodedLength = record.encode :=
    List.take_left' record.length_encode
  have hd := hs.decode []
  have hp := LogRecord.peekLength_append (LogRecord.encodedLength_lt hs.1) rest
  have hfour : 4 ≤ (record.encode ++ rest).length := by
    rw [List.length_append, LogRecord.length_encode]
    omega
  have hword : 4 ≤ ((record.encode ++ rest).take 4).length := by
    rw [List.length_take]
    omega
  have hw : LogRecord.peekLength ((record.encode ++ rest).take 4) = .ok record.encodedLength := by
    rw [LogRecord.peekLength, Bytes.split?_of_le hfour] at hp
    rw [LogRecord.peekLength, Bytes.split?_of_le hword, List.take_take, Nat.min_self]
    exact hp
  rw [List.append_nil] at hd
  rw [PendingRead.complete, hr]
  simp only [hc, Bytes.split?_of_le hfour, hw, bind, Except.bind, ht]
  rw [if_neg (by omega)]
  exact hd

theorem Holds.part_content {log : Log} {disk : Disk} {bytes : Bytes} (h : log.Holds disk bytes)
    {first last : Nat} (hs : log.start ≤ first) (hf : last ≤ log.flushed) :
    ((disk.content log.file).take last).drop first =
      (bytes.take (last - log.start)).drop (first - log.start) := by
  have hd : log.start + (first - log.start) = first := by omega
  rw [← h.onDisk_below hf, List.drop_drop, hd]

/-- Scanning reads the records off the bytes that the file has between the two addresses. -/
theorem scan_range {log : Log} {disk : Disk} {content : Bytes} {first last : Nat}
    (hr : disk.read log.path = .ok content) (hs : log.start ≤ first) (hle : first ≤ last)
    (hf : last ≤ log.flushed) (hl : last ≤ content.length) :
    log.scan first last disk = records ((content.take last).drop first).length first
      ((content.take last).drop first) := by
  rw [scan]
  rcases Nat.eq_or_lt_of_le hle with rfl | hlt
  · have hnil : (content.take first).drop first = [] :=
      List.drop_of_length_le (List.length_take_le first content)
    rw [if_pos (Nat.le_refl first), hnil]
    rfl
  · have hlong : last - first ≤ (content.drop first).length := by
      rw [List.length_drop]
      omega
    rw [if_neg (Nat.not_le.mpr hlt), if_neg (by omega), hr]
    simp only [Bytes.split?_of_le hlong, List.drop_take]

theorem scan_bytes {log : Log} {disk : Disk} {bytes : Bytes} (h : log.Holds disk bytes)
    (hf : log.flushed = log.tail) (hr : disk.read log.path = .ok (disk.content log.file))
    {address : Nat} (hs : log.start ≤ address) (hl : address ≤ log.tail) :
    log.scan address log.tail disk = records (bytes.drop (address - log.start)).length address
      (bytes.drop (address - log.start)) := by
  have hreach := h.reaches
  have hwhole : bytes.take (log.tail - log.start) = bytes := by
    rw [h.tail_eq, Nat.add_sub_cancel_left, List.take_length]
  rw [scan_range hr hs hl (by omega) (by omega), h.part_content hs (by omega), hwhole]

end Log

end PredicateIndex
