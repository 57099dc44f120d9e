import PredicateIndex.LogRecord
import PredicateIndex.Proofs.Words

/-!
# The record format read back

A record's length, slot count and key lengths are words of fixed width. While
the slots and keys fit these words, a record at the front of any byte string is
read back whole, except for the link marks, which are not stored. No other
record can be read back, and only the bytes of a record decide what is read.
-/

set_option autoImplicit false

namespace PredicateIndex

def Slot.stored (slot : Slot) : Slot := { slot with unlinksOld := false, linksNew := false }

def CompositeKey.Fits (key : CompositeKey) : Prop :=
  key.length ≤ 255 ∧ ∀ slot ∈ key, (slot.key.getD []).length < 65536

instance CompositeKey.decidableFits (key : CompositeKey) : Decidable key.Fits :=
  inferInstanceAs (Decidable (key.length ≤ 255 ∧ ∀ slot ∈ key, (slot.key.getD []).length < 65536))

theorem CompositeKey.fits_stored {key : CompositeKey} :
    CompositeKey.Fits (key.map Slot.stored) ↔ key.Fits := by
  rw [Fits, Fits, List.length_map, List.forall_mem_map]
  exact Iff.rfl

namespace LogRecord

def stored (record : LogRecord) : LogRecord := { record with key := record.key.map Slot.stored }

theorem length_encodeSlot (slot : Slot) : (encodeSlot slot).length = slotLength slot := by
  simp only [encodeSlot, slotLength, List.length_append, Bytes.length_bigEndian, List.length_cons,
    List.length_nil]

theorem length_encodeSlots (key : CompositeKey) :
    (key.flatMap encodeSlot).length = slotsLength key := by
  induction key with
  | nil => rfl
  | cons slot key ih =>
    rw [List.flatMap_cons, List.length_append, length_encodeSlot, ih, slotsLength]

theorem length_encodeBody (record : LogRecord) :
    record.encodeBody.length + checksumSize = record.encodedLength := by
  simp only [encodeBody, encodedLength, List.length_append, Bytes.length_bigEndian,
    List.length_singleton, length_encodeSlots, headSize]

theorem length_encode (record : LogRecord) : record.encode.length = record.encodedLength := by
  rw [encode, List.length_append, Bytes.length_bigEndian, length_encodeBody]

theorem encodedLength_ge (record : LogRecord) : 26 ≤ record.encodedLength := by
  rw [encodedLength, headSize, checksumSize]
  omega

theorem encode_ne_nil (record : LogRecord) : record.encode ≠ [] := by
  intro h
  have hl := record.length_encode
  have hg := record.encodedLength_ge
  rw [h, List.length_nil] at hl
  omega

theorem slotsLength_le {key : CompositeKey}
    (h : ∀ slot ∈ key, (slot.key.getD []).length < 65536) :
    slotsLength key ≤ 65547 * key.length := by
  induction key with
  | nil => exact Nat.zero_le _
  | cons slot key ih =>
    have hs := h slot List.mem_cons_self
    have hk := ih fun s hs => h s (List.mem_cons_of_mem slot hs)
    rw [slotsLength, slotLength, List.length_cons]
    omega

theorem encodedLength_lt {record : LogRecord} (h : record.key.Fits) :
    record.encodedLength < Bytes.modulus 4 := by
  have hs := slotsLength_le h.2
  have hl := h.1
  have hm : Bytes.modulus 4 = 4294967296 := rfl
  rw [encodedLength, headSize, checksumSize]
  omega

theorem encode_eq (record : LogRecord) :
    ∃ behind, record.encode = Bytes.bigEndian 4 record.encodedLength ++ behind := by
  have hprefix : Bytes.bigEndian 4 record.encodedLength <+: record.encode := by
    simp only [encode, encodeBody, List.append_assoc]
    exact List.prefix_append _ _
  obtain ⟨behind, heq⟩ := hprefix
  exact ⟨behind, heq.symm⟩

theorem peekLength_mod (n : Nat) (rest : Bytes) : peekLength (Bytes.bigEndian 4 n ++ rest) =
    if n % Bytes.modulus 4 < 26 then .error (.badRecordLength (n % Bytes.modulus 4))
    else .ok (n % Bytes.modulus 4) := by
  have hw := Bytes.split?_append (Bytes.bigEndian 4 n) rest
  rw [Bytes.length_bigEndian] at hw
  simp only [peekLength, hw, Bytes.ofBigEndian_bigEndian, headSize, checksumSize]

theorem peekLength_bigEndian {n : Nat} (hlow : 26 ≤ n) (hhigh : n < Bytes.modulus 4)
    (rest : Bytes) : peekLength (Bytes.bigEndian 4 n ++ rest) = .ok n := by
  rw [peekLength_mod, Nat.mod_eq_of_lt hhigh, if_neg (Nat.not_lt.mpr hlow)]

theorem peekLength_append {record : LogRecord} (h : record.encodedLength < Bytes.modulus 4)
    (rest : Bytes) :
    peekLength (record.encode ++ rest) = .ok record.encodedLength := by
  obtain ⟨behind, heq⟩ := record.encode_eq
  rw [heq, List.append_assoc]
  exact peekLength_bigEndian record.encodedLength_ge h _

theorem peekLength_ok {bytes : Bytes} {n : Nat} (h : peekLength bytes = .ok n) :
    4 ≤ bytes.length ∧ 26 ≤ n := by
  rw [peekLength] at h
  by_cases hs : 4 ≤ bytes.length
  · rw [Bytes.split?_of_le hs] at h
    dsimp only at h
    split at h
    · cases h
    · rename_i hn
      cases h
      exact ⟨hs, Nat.le_of_not_lt hn⟩
  · rw [Bytes.split?_of_lt (Nat.lt_of_not_le hs)] at h
    cases h

theorem peekLength_front {front : Bytes} (h : 4 ≤ front.length) (behind : Bytes) :
    peekLength (front ++ behind) = peekLength front := by
  have hs : 4 ≤ (front ++ behind).length := by
    rw [List.length_append]
    omega
  rw [peekLength, peekLength, Bytes.split?_of_le hs, Bytes.split?_of_le h,
    List.take_append_of_le_length h]

theorem byte_append (byte : UInt8) (rest : Bytes) :
    Reader.bigWord 1 (byte :: rest) = some (byte.toNat, rest) := by
  have h : Reader.bytes 1 (byte :: rest) = some ([byte], rest) := Reader.bytes_append [byte] rest
  rw [Reader.bigWord, Reader.bind_apply h]
  simp [Bytes.ofBigEndian]
  rfl

theorem readSlot_append {slot : Slot} (h : (slot.key.getD []).length < 65536) (rest : Bytes) :
    readSlot (encodeSlot slot ++ rest) = some (slot.stored, rest) := by
  have hl : (slot.key.getD []).length < Bytes.modulus 2 := h
  simp only [encodeSlot, List.append_assoc, List.cons_append, List.nil_append]
  rw [readSlot, Reader.bind_apply (byte_append _ _), Reader.bind_apply (byte_append _ _),
    Reader.bind_apply (Reader.bigWord_append (Bytes.word64_lt _) _),
    Reader.bind_apply (Reader.bigWord_append hl _),
    Reader.bind_apply (Reader.bytes_append _ _)]
  obtain ⟨ordinal, key, previous, _, _⟩ := slot
  cases key <;> simp [Slot.stored, Slot.isNull] <;> rfl

theorem readBody_slots {record : LogRecord} (hl : record.encodedLength < Bytes.modulus 4)
    {key : CompositeKey} {rest : Bytes}
    (hk : Reader.replicate readSlot (record.key.length % 256) (record.key.flatMap encodeSlot) =
      some (key, rest)) :
    readBody record.encodeBody = some (⟨record.id, record.tombstone, key⟩, rest) := by
  have hc : (UInt8.ofNat record.key.length).toNat = record.key.length % 256 := UInt8.toNat_ofNat'
  simp only [encodeBody, List.append_assoc, List.cons_append, List.nil_append]
  rw [readBody, Reader.bind_apply (Reader.bigWord_append hl _),
    Reader.bind_apply (byte_append _ _),
    Reader.bind_apply (Reader.bigWord_append (Bytes.word64_lt _) _),
    Reader.bind_apply (Reader.bigWord_append (Bytes.word32_lt _) _), Reader.bind_apply
      (byte_append _ _), hc,
    Reader.bind_apply hk]
  obtain ⟨⟨address, version⟩, tombstone, slots⟩ := record
  cases tombstone <;> simp <;> rfl

theorem readBody_encodeBody {record : LogRecord} (h : record.key.Fits) :
    readBody record.encodeBody = some (record.stored, []) := by
  have hk := Reader.replicate_append Slot.stored (fun slot hs => readSlot_append (h.2 slot hs)) []
  rw [List.append_nil, ← Nat.mod_eq_of_lt (Nat.lt_succ_of_le h.1)] at hk
  exact readBody_slots (encodedLength_lt h) hk

theorem decode_whole {body stored rest : Bytes}
    (hp : peekLength (body ++ stored ++ rest) = .ok (body ++ stored).length)
    (hs : stored.length = checksumSize) :
    decode (body ++ stored ++ rest) =
      if (checksum body).toNat ≠ Bytes.ofBigEndian stored then .error .badChecksum
      else (readBody body).elim (.error (.file .endOfFile)) fun read => .ok read.1 := by
  have henough : ¬ (body ++ stored ++ rest).length < (body ++ stored).length :=
    Nat.not_lt.mpr (List.prefix_append (body ++ stored) rest).length_le
  have hl : (body ++ stored).length - checksumSize = body.length := by
    rw [List.length_append, hs, Nat.add_sub_cancel]
  simp only [decode, hp, bind, Except.bind, if_neg henough, hl]
  rw [List.append_assoc, List.take_left, List.drop_left, List.take_left' hs]
  split
  · rfl
  · cases readBody body <;> rfl

/-- Bytes that state their own length are decoded by their checksum and their body. -/
theorem decode_split {front : Bytes} (h : peekLength front = .ok front.length) (behind : Bytes) :
    decode (front ++ behind) =
      if (checksum (front.take (front.length - checksumSize))).toNat ≠
          Bytes.ofBigEndian (front.drop (front.length - checksumSize)) then .error .badChecksum
      else (readBody (front.take (front.length - checksumSize))).elim (.error (.file .endOfFile))
        fun read => .ok read.1 := by
  obtain ⟨hfour, hlow⟩ := peekLength_ok h
  have hsplit := List.take_append_drop (front.length - checksumSize) front
  have hstored : (front.drop (front.length - checksumSize)).length = checksumSize := by
    rw [List.length_drop, checksumSize]
    omega
  have hpeek : peekLength (front ++ behind) = .ok front.length := by
    rw [peekLength_front hfour, h]
  rw [← hsplit] at hpeek
  have hwhole := decode_whole hpeek hstored
  rwa [hsplit] at hwhole

/-- Only the bytes that the length covers matter to what is decoded. -/
theorem decode_front {front : Bytes} (h : peekLength front = .ok front.length) (behind : Bytes) :
    decode (front ++ behind) = decode front := by
  have halone := decode_split h []
  rw [List.append_nil] at halone
  rw [decode_split h, halone]

structure Fills (record : LogRecord) (bytes : Bytes) : Prop where
  length_eq : peekLength bytes = .ok bytes.length
  decode_eq : decode bytes = .ok record

namespace Fills

variable {record : LogRecord} {front : Bytes}

theorem length_ge (h : record.Fills front) : 26 ≤ front.length := (peekLength_ok h.length_eq).2

theorem append_ne_nil (h : record.Fills front) (behind : Bytes) : front ++ behind ≠ [] := by
  intro hn
  have hge := h.length_ge
  rw [(List.append_eq_nil_iff.mp hn).1, List.length_nil] at hge
  omega

theorem decode_append (h : record.Fills front) (behind : Bytes) :
    decode (front ++ behind) = .ok record := by
  rw [decode_front h.length_eq, h.decode_eq]

theorem peekLength_append (h : record.Fills front) (behind : Bytes) :
    peekLength (front ++ behind) = .ok front.length := by
  rw [peekLength_front (peekLength_ok h.length_eq).1, h.length_eq]

end Fills

theorem decode_ok {bytes : Bytes} {record : LogRecord} (h : decode bytes = .ok record) :
    ∃ front behind, bytes = front ++ behind ∧ record.Fills front := by
  cases hp : peekLength bytes with
  | error fault =>
    rw [decode, hp] at h
    cases h
  | ok n =>
    obtain ⟨hfour, hlow⟩ := peekLength_ok hp
    by_cases hs : bytes.length < n
    · simp only [decode, hp, bind, Except.bind, if_pos hs] at h
      cases h
    · have hlength : (bytes.take n).length = n := by
        rw [List.length_take]
        omega
      have hpeek : peekLength (bytes.take n) = .ok (bytes.take n).length := by
        rw [← peekLength_front (by omega) (bytes.drop n), List.take_append_drop, hp, hlength]
      refine ⟨bytes.take n, bytes.drop n, (List.take_append_drop n bytes).symm, hpeek, ?_⟩
      rw [← decode_front hpeek (bytes.drop n), List.take_append_drop, h]

theorem decode_of_readBody {record read : LogRecord} {left : Bytes}
    (h : record.encodedLength < Bytes.modulus 4)
    (hr : readBody record.encodeBody = some (read, left)) (rest : Bytes) :
    decode (record.encode ++ rest) = .ok read := by
  have hp := peekLength_append h rest
  rw [← length_encode, encode] at hp
  have hsealed : ¬ (checksum record.encodeBody).toNat ≠
      Bytes.ofBigEndian (Bytes.bigEndian checksumSize (checksum record.encodeBody).toNat) := by
    rw [checksumSize, Bytes.ofBigEndian_bigEndian, Nat.mod_eq_of_lt (Bytes.word64_lt _)]
    exact fun hne => hne rfl
  rw [encode, decode_whole hp (Bytes.length_bigEndian _ _), if_neg hsealed, hr]
  rfl

/-- A record is read back off the front of any byte string, without its link marks. -/
theorem decode_append {record : LogRecord} (h : record.key.Fits) (rest : Bytes) :
    decode (record.encode ++ rest) = .ok record.stored :=
  decode_of_readBody (encodedLength_lt h) (readBody_encodeBody h) rest

theorem fills_encode {record : LogRecord} (h : record.key.Fits) :
    record.stored.Fills record.encode where
  length_eq := by
    have hp := peekLength_append (encodedLength_lt h) []
    rwa [List.append_nil, ← length_encode] at hp
  decode_eq := by
    have hd := decode_append h []
    rwa [List.append_nil] at hd

/-- A record that is cut off within its length, or behind it, is refused as such. -/
theorem decode_take {record : LogRecord} (h : record.encodedLength < Bytes.modulus 4) {n : Nat}
    (hn : n < record.encode.length) :
    decode (record.encode.take n) =
      .error (if n < 4 then .truncatedLength else .shortRecord record.encodedLength n) := by
  have hl : (record.encode.take n).length = n := by
    rw [List.length_take]
    omega
  by_cases hs : n < 4
  · have hsplit := Bytes.split?_of_lt (show (record.encode.take n).length < 4 by omega)
    simp only [decode, peekLength, hsplit, if_pos hs, bind, Except.bind]
  · obtain ⟨behind, heq⟩ := record.encode_eq
    have htake : record.encode.take n =
        Bytes.bigEndian 4 record.encodedLength ++ behind.take (n - 4) := by
      rw [heq, List.take_append, Bytes.length_bigEndian,
        List.take_of_length_le (by rw [Bytes.length_bigEndian]; omega)]
    have hpeek := peekLength_bigEndian record.encodedLength_ge h (behind.take (n - 4))
    rw [← htake] at hpeek
    rw [length_encode] at hn
    simp only [decode, hpeek, hl, if_pos hn, if_neg hs, bind, Except.bind]
    rfl

/-- The count is a byte, so a record with 256 slots is read back as one with none. -/
theorem decode_wrapped {record : LogRecord} (h : record.encodedLength < Bytes.modulus 4)
    (hc : record.key.length % 256 = 0) (rest : Bytes) :
    decode (record.encode ++ rest) = .ok ⟨record.id, record.tombstone, []⟩ := by
  have hk : Reader.replicate readSlot (record.key.length % 256) (record.key.flatMap encodeSlot) =
      some ([], record.key.flatMap encodeSlot) := by
    rw [hc]
    rfl
  exact decode_of_readBody h (readBody_slots h hk) rest

theorem readSlot_some {input rest : Bytes} {slot : Slot} (h : readSlot input = some (slot, rest)) :
    slot.stored = slot ∧ (slot.key.getD []).length < 65536 := by
  obtain ⟨ordinal, _, -, h⟩ := Reader.bind_some h
  obtain ⟨null, _, -, h⟩ := Reader.bind_some h
  obtain ⟨previous, _, -, h⟩ := Reader.bind_some h
  obtain ⟨length, _, hlength, h⟩ := Reader.bind_some h
  obtain ⟨key, _, hkey, h⟩ := Reader.bind_some h
  obtain ⟨rfl, -⟩ := Prod.mk.inj (Option.some.inj h)
  refine ⟨rfl, ?_⟩
  have hlt : key.length < 65536 := Reader.length_of_bytes hkey ▸ Reader.bigWord_lt hlength
  by_cases hn : null = 0
  · rwa [if_pos hn]
  · rw [if_neg hn]
    exact Nat.zero_lt_succ _

theorem readBody_some {input rest : Bytes} {record : LogRecord}
    (h : readBody input = some (record, rest)) : record.key.Fits ∧ record.stored = record := by
  obtain ⟨length, _, -, h⟩ := Reader.bind_some h
  obtain ⟨flags, _, -, h⟩ := Reader.bind_some h
  obtain ⟨address, _, -, h⟩ := Reader.bind_some h
  obtain ⟨version, _, -, h⟩ := Reader.bind_some h
  obtain ⟨count, _, hcount, h⟩ := Reader.bind_some h
  obtain ⟨key, _, hkey, h⟩ := Reader.bind_some h
  obtain ⟨rfl, -⟩ := Prod.mk.inj (Option.some.inj h)
  obtain ⟨hlength, hslots⟩ := Reader.replicate_some hkey
  have hlt : key.length < 256 := hlength ▸ Reader.bigWord_lt hcount
  have hslot : ∀ slot ∈ key, slot.stored = slot ∧ (slot.key.getD []).length < 65536 := by
    intro slot hm
    obtain ⟨before, behind, hread⟩ := hslots slot hm
    exact readSlot_some hread
  refine ⟨⟨Nat.le_of_lt_succ hlt, fun slot hm => (hslot slot hm).2⟩, ?_⟩
  rw [stored, List.map_congr_left fun slot hm => (hslot slot hm).1, List.map_id']

theorem fits_of_decode {bytes : Bytes} {record : LogRecord} (h : decode bytes = .ok record) :
    record.key.Fits ∧ record.stored = record := by
  obtain ⟨front, behind, -, hfills⟩ := decode_ok h
  have hd := hfills.decode_append []
  rw [decode_split hfills.length_eq] at hd
  split at hd
  · cases hd
  · cases hr : readBody (front.take (front.length - checksumSize)) with
    | none =>
      rw [hr] at hd
      cases hd
    | some read =>
      rw [hr] at hd
      obtain rfl := Except.ok.inj hd
      exact readBody_some hr

/-- The records that can be read back are those that fit the format. -/
theorem decode_encode_iff (record : LogRecord) :
    decode record.encode = .ok record.stored ↔ record.key.Fits := by
  constructor
  · intro h
    exact CompositeKey.fits_stored.mp (fits_of_decode h).1
  · intro h
    exact (fills_encode h).decode_eq

end LogRecord

end PredicateIndex
