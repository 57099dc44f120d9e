import PredicateIndex.Checkpoint.Format
import PredicateIndex.Proofs.ChecksumRegister
import PredicateIndex.Proofs.RecordCodec

/-!
# Burst errors

Records and frames end with the checksum of what stands before it, so the
register is zero after all of their bytes. By linearity an error leaves in the
register what it leaves there on its own. An error within 64 bits that follow
each other is added to the register at once, and is not shifted out of it by
whatever comes after: the damage shows, however long the message is.
-/

set_option autoImplicit false

namespace PredicateIndex

namespace Bytes

/-- Some bit is wrong, and all wrong bits are among 64 that follow each other. -/
def Burst (error : Bytes) : Prop :=
  ∃ before pattern behind, pattern.length ≤ 64 ∧ true ∈ pattern ∧
    error.bits = List.replicate before false ++ pattern ++ List.replicate behind false

def damaged (bytes error : Bytes) : Bytes := bytes.take 4 ++ flip (bytes.drop 4) error

def Sealed (bytes : Bytes) : Prop := ∃ body, bytes = body ++ bigEndian 8 (checksum body).toNat

theorem length_flip {bytes error : Bytes} (h : bytes.length = error.length) :
    (bytes.flip error).length = error.length := by
  rw [flip, List.length_zipWith, h, Nat.min_self]

theorem damaged_append {front : Bytes} (h : front.length = 4) (bytes error : Bytes) :
    (front ++ bytes).damaged error = front ++ bytes.flip error := by
  rw [damaged, List.take_left' h, List.drop_left' h]

/-- A checksum takes the register to zero, and nothing else of its length does. -/
theorem checksum_append_eq_zero_iff (body : Bytes) {stored : Bytes} (h : stored.length = 8) :
    checksum (body ++ stored) = 0 ↔ (checksum body).toNat = ofBigEndian stored := by
  rw [checksum, Checksum.update_append]
  exact Checksum.update_eq_zero_iff _ h

theorem Sealed.checksum_eq_zero {bytes : Bytes} (h : bytes.Sealed) : checksum bytes = 0 := by
  obtain ⟨body, rfl⟩ := h
  rw [checksum_append_eq_zero_iff body (length_bigEndian 8 _), ofBigEndian_bigEndian,
    Nat.mod_eq_of_lt (word64_lt _)]

theorem unsealed_end {bytes : Bytes} {n : Nat} (hn : n + 8 = bytes.length)
    (h : checksum bytes ≠ 0) : (checksum (bytes.take n)).toNat ≠ ofBigEndian (bytes.drop n) := by
  intro he
  have hl : (bytes.drop n).length = 8 := by
    rw [List.length_drop]
    omega
  have hz := (checksum_append_eq_zero_iff (bytes.take n) hl).mpr he
  rw [List.take_append_drop] at hz
  exact h hz

end Bytes

namespace Checksum

theorem foldl_absorb_clear (n : Nat) (register : UInt64) :
    (List.replicate n false).foldl absorb register = shifts n register := by
  induction n generalizing register with
  | zero => rfl
  | succ n ih =>
    have hstep : absorb register false = shift register := congrArg shift UInt64.xor_zero
    rw [List.replicate_succ, List.foldl_cons, hstep, ih, shifts]

theorem word_ne_zero {bits : List Bool} (h : bits.length ≤ 64) (hb : true ∈ bits) :
    word bits ≠ 0 := by
  intro hz
  obtain ⟨i, hi, hbit⟩ := List.mem_iff_getElem.mp hb
  have hword := bitAt_word bits (Nat.lt_of_lt_of_le hi h)
  rw [hz, bitAt_zero, List.getElem?_eq_getElem hi, Option.getD_some, hbit] at hword
  cases hword

/-- The generator divides no burst, wherever the burst stands. -/
theorem burst_ne_zero {error : Bytes} (h : error.Burst) : checksum error ≠ 0 := by
  obtain ⟨before, pattern, behind, hl, hp, hbits⟩ := h
  intro hz
  -- the clear bits in front leave the register at zero, those behind only shift it
  rw [checksum, update_bits, hbits, List.foldl_append, List.foldl_append, foldl_absorb_clear,
    foldl_absorb_clear, shifts_zero, foldl_absorb hl, UInt64.zero_xor] at hz
  exact word_ne_zero hl hp (shifts_eq_zero (shifts_eq_zero hz))

/-- A burst behind any bytes changes a checksum of zero. -/
theorem burst_flip_ne_zero {front bytes error : Bytes} (hz : checksum (front ++ bytes) = 0)
    (hl : bytes.length = error.length) (h : error.Burst) :
    checksum (front ++ bytes.flip error) ≠ 0 := by
  have hflip := update_flip (update 0 front) 0 hl
  rw [checksum, update_append] at hz
  rw [UInt64.xor_zero, hz, UInt64.zero_xor] at hflip
  rw [checksum, update_append, hflip]
  exact burst_ne_zero h

end Checksum

namespace LogRecord

theorem sealed_encode (record : LogRecord) : record.encode.Sealed := ⟨record.encodeBody, rfl⟩

theorem decode_unsealed {n : Nat} {behind : Bytes} (hlow : 26 ≤ n) (hhigh : n < Bytes.modulus 4)
    (hl : 4 + behind.length = n) (h : checksum (Bytes.bigEndian 4 n ++ behind) ≠ 0)
    (rest : Bytes) :
    decode (Bytes.bigEndian 4 n ++ behind ++ rest) = .error .badChecksum := by
  have hlen : (Bytes.bigEndian 4 n ++ behind).length = n := by
    rw [List.length_append, Bytes.length_bigEndian, hl]
  have hpeek := peekLength_bigEndian hlow hhigh (behind ++ rest)
  rw [← List.append_assoc] at hpeek
  generalize Bytes.bigEndian 4 n ++ behind = whole at hlen hpeek h ⊢
  have hwrong := Bytes.unsealed_end (show n - 8 + 8 = whole.length by omega) h
  have hsplit := List.take_append_drop (n - 8) whole
  have hstored : (whole.drop (n - 8)).length = checksumSize := by
    rw [List.length_drop, checksumSize]
    omega
  rw [← hlen, ← hsplit] at hpeek
  rw [← hsplit, decode_whole hpeek hstored, if_pos hwrong]

theorem damaged_encode {error : Bytes} (h : error.Burst) {record : LogRecord}
    (hl : record.encode.length = 4 + error.length) :
    ∃ behind, record.encode.damaged error = Bytes.bigEndian 4 record.encodedLength ++ behind ∧
      4 + behind.length = record.encodedLength ∧ checksum (record.encode.damaged error) ≠ 0 := by
  obtain ⟨behind, heq⟩ := record.encode_eq
  have hz := record.sealed_encode.checksum_eq_zero
  have hlen := record.length_encode
  rw [heq] at hl hz hlen ⊢
  rw [List.length_append, Bytes.length_bigEndian] at hl hlen
  have hflip := Bytes.length_flip (show behind.length = error.length by omega)
  rw [Bytes.damaged_append (Bytes.length_bigEndian 4 _)]
  exact ⟨_, rfl, by omega, Checksum.burst_flip_ne_zero hz (by omega) h⟩

end LogRecord

namespace Frame

theorem wrap_eq (payload : Bytes) :
    ∃ behind : Bytes, wrap payload = Bytes.bigEndian 4 payload.length ++ behind ∧
      behind.length = payload.length + 8 ∧ behind.Sealed := by
  refine ⟨payload ++ Bytes.bigEndian 8 (checksum payload).toNat, ?_, ?_, payload, rfl⟩
  · rw [wrap, List.append_assoc]
  · rw [List.length_append, Bytes.length_bigEndian]

theorem decode_unsealed {α : Type} {n : Nat} {behind : Bytes} (hn : n < Bytes.modulus 4)
    (hl : behind.length = n + 8) (h : checksum behind ≠ 0) (value : Reader α) (rest : Bytes) :
    decode value (Bytes.bigEndian 4 n ++ behind ++ rest) = .error .badChecksum := by
  have hlength := Bytes.split?_append (Bytes.bigEndian 4 n) (behind ++ rest)
  have hpayload := Bytes.split?_append (behind.take n) (behind.drop n ++ rest)
  have hstored := Bytes.split?_append (behind.drop n) rest
  rw [Bytes.length_bigEndian, ← List.append_assoc] at hlength
  rw [List.length_take, Nat.min_eq_left (by omega), ← List.append_assoc, List.take_append_drop]
    at hpayload
  rw [List.length_drop, hl, Nat.add_sub_cancel_left] at hstored
  have hwrong := Bytes.unsealed_end hl.symm h
  simp only [decode, unwrap, hlength, Bytes.ofBigEndian_bigEndian, Nat.mod_eq_of_lt hn, hpayload,
    hstored, if_neg hwrong, bind, Except.bind]

theorem damaged_wrap {error : Bytes} (h : error.Burst) {payload : Bytes}
    (hl : (wrap payload).length = 4 + error.length) :
    ∃ behind, (wrap payload).damaged error = Bytes.bigEndian 4 payload.length ++ behind ∧
      behind.length = payload.length + 8 ∧ checksum behind ≠ 0 := by
  obtain ⟨behind, heq, hlen, hsealed⟩ := wrap_eq payload
  have hz : checksum ([] ++ behind) = 0 := hsealed.checksum_eq_zero
  rw [heq] at hl ⊢
  rw [List.length_append, Bytes.length_bigEndian] at hl
  have hflip := Bytes.length_flip (show behind.length = error.length by omega)
  rw [Bytes.damaged_append (Bytes.length_bigEndian 4 _)]
  exact ⟨_, rfl, by omega, Checksum.burst_flip_ne_zero hz (by omega) h⟩

end Frame

/-- A burst behind the length prefix of a record or of a checkpoint frame is always found out: the
checksum does not hold any more, and reading fails for it if the prefix can state the length. -/
theorem burst_detected {error : Bytes} (h : error.Burst) (rest : Bytes) :
    (∀ record : LogRecord, record.encode.length = 4 + error.length →
      ¬ (record.encode.damaged error).Sealed ∧
        (record.encodedLength < Bytes.modulus 4 →
          LogRecord.decode (record.encode.damaged error ++ rest) = .error .badChecksum)) ∧
    ∀ payload : Bytes, (Frame.wrap payload).length = 4 + error.length →
      ¬ Bytes.Sealed (((Frame.wrap payload).damaged error).drop 4) ∧
        (payload.length < Bytes.modulus 4 → ∀ {α : Type} (value : Reader α),
          Frame.decode value ((Frame.wrap payload).damaged error ++ rest) =
            .error .badChecksum) := by
  constructor
  · intro record hl
    obtain ⟨behind, hd, hlen, hwrong⟩ := LogRecord.damaged_encode h hl
    constructor
    · intro hs
      exact hwrong hs.checksum_eq_zero
    · intro hfit
      rw [hd] at hwrong ⊢
      exact LogRecord.decode_unsealed record.encodedLength_ge hfit hlen hwrong rest
  · intro payload hl
    obtain ⟨behind, hd, hlen, hwrong⟩ := Frame.damaged_wrap h hl
    rw [hd, List.drop_left' (Bytes.length_bigEndian 4 _)]
    constructor
    · intro hs
      exact hwrong hs.checksum_eq_zero
    · intro hfit α value
      exact Frame.decode_unsealed hfit hlen hwrong value rest

def wrongNibbles : Bytes :=
  [0, 0, 0x0F, 255, 255, 255, 255, 255, 255, 255, 0xF0] ++ List.replicate 11 0

theorem burst_detected_nibbles :
    wrongNibbles.Burst ∧
      LogRecord.decode (Bytes.damaged (LogRecord.encode ⟨⟨7, 1⟩, false, []⟩) wrongNibbles ++ [9]) =
        .error .badChecksum ∧
      Frame.decode Payload.readLog
        (Bytes.damaged (Frame.wrap (List.replicate 14 5)) wrongNibbles ++ [9]) =
          .error .badChecksum := by
  have h : wrongNibbles.Burst :=
    ⟨20, List.replicate 64 true, 92, by decide, by decide, by decide +kernel⟩
  have hdetected := burst_detected h [9]
  refine ⟨h, ?_, ?_⟩
  · exact (hdetected.1 ⟨⟨7, 1⟩, false, []⟩ (LogRecord.length_encode _)).2 (by decide)
  · exact (hdetected.2 (List.replicate 14 5) rfl).2 (by decide) Payload.readLog

namespace Bytes

def oneBit (before behind : Nat) : Bytes :=
  List.replicate before 0 ++ 128 :: List.replicate behind 0

theorem length_oneBit (before behind : Nat) :
    (oneBit before behind).length = before + (behind + 1) := by
  rw [oneBit, List.length_append, List.length_cons, List.length_replicate, List.length_replicate]

theorem bits_zeros (n : Nat) : bits (List.replicate n 0) = List.replicate (8 * n) false := by
  induction n with
  | zero => rfl
  | succ n ih =>
    have hzero : bitsOfByte 0 = List.replicate 8 false := rfl
    rw [List.replicate_succ, bits_cons, ih, hzero, List.replicate_append_replicate, Nat.mul_succ,
      Nat.add_comm]

theorem burst_oneBit (before behind : Nat) : (oneBit before behind).Burst := by
  refine ⟨8 * before, [true], 7 + 8 * behind, by decide, by decide, ?_⟩
  have hbyte : bitsOfByte 128 = true :: List.replicate 7 false := rfl
  have happend : bits (oneBit before behind) =
      bits (List.replicate before 0) ++ bits (128 :: List.replicate behind 0) :=
    List.flatMap_append
  rw [happend, bits_cons, bits_zeros, bits_zeros, hbyte, List.append_assoc, List.cons_append,
    List.replicate_append_replicate]
  rfl

theorem flip_zeros (n : Nat) (bytes error : Bytes) :
    Bytes.flip (List.replicate n 0 ++ bytes) (List.replicate n 0 ++ error) =
      List.replicate n 0 ++ bytes.flip error := by
  induction n with
  | zero => rfl
  | succ n ih => exact congrArg (0 :: ·) ih

end Bytes

namespace LogRecord

theorem decode_short {record : LogRecord} (h : record.encodedLength % Bytes.modulus 4 < 26)
    (error : Bytes) : decode (record.encode.damaged error) =
      .error (.badRecordLength (record.encodedLength % Bytes.modulus 4)) := by
  obtain ⟨behind, heq⟩ := record.encode_eq
  rw [heq, Bytes.damaged_append (Bytes.length_bigEndian 4 _), decode, peekLength_mod, if_pos h]
  rfl

def ofZeros (n : Nat) : LogRecord where
  id := ⟨0, 0⟩
  tombstone := false
  key := [{ ordinal := 0, key := some (List.replicate n 0) }]

theorem encodedLength_ofZeros (n : Nat) : (ofZeros n).encodedLength = n + 38 := by
  simp only [ofZeros, encodedLength, slotsLength, slotLength, Option.getD_some,
    List.length_replicate, headSize, checksumSize]
  omega

end LogRecord

namespace LogCheckpoint

def ofZeros (n : Nat) : LogCheckpoint where
  token := ⟨0⟩
  start := 64
  tail := 64
  commitPoints := List.replicate n (0, 0)

theorem length_ofZeros (n : Nat) : (Payload.log (ofZeros n)).length = 32 + 16 * n := by
  have hpoint : (Payload.commitPoint (0, 0)).length = 16 := rfl
  simp only [Payload.log, ofZeros, Payload.list, Payload.token, Payload.word, List.length_append,
    Bytes.length_littleEndian, List.length_flatMap, List.map_replicate, hpoint, List.sum_replicate_nat]
  omega

end LogCheckpoint

namespace Frame

theorem decode_short {α : Type} (value : Reader α) {n : Nat} (h : n % Bytes.modulus 4 = 0)
    (rest : Bytes) : decode value (Bytes.bigEndian 4 n ++ (List.replicate 8 0 ++ rest)) =
      Payload.decode value [] := by
  have hlength := Bytes.split?_append (Bytes.bigEndian 4 n) (List.replicate 8 0 ++ rest)
  have hstored := Bytes.split?_append (List.replicate 8 0) rest
  rw [Bytes.length_bigEndian] at hlength
  rw [List.length_replicate] at hstored
  have hsum : (checksum []).toNat = Bytes.ofBigEndian (List.replicate 8 0) := rfl
  simp only [decode, unwrap, hlength, Bytes.ofBigEndian_bigEndian, h, Bytes.split?, hstored,
    if_pos hsum, bind, Except.bind]

/-- The token in front of a payload stays zero where the wrong bit is behind it. -/
theorem decode_damaged_ofZeros {n : Nat} (h : (32 + 16 * n) % Bytes.modulus 4 = 0) (behind : Nat) :
    decode Payload.readLog
        ((wrap (Payload.log (.ofZeros n))).damaged (Bytes.oneBit 8 behind)) =
      .error .truncatedPayload := by
  have hzero : Payload.token ⟨0⟩ = List.replicate 8 0 := rfl
  obtain ⟨rest, hrest⟩ : ∃ rest, Payload.log (.ofZeros n) = List.replicate 8 0 ++ rest := by
    rw [Payload.log, LogCheckpoint.ofZeros, hzero, List.append_assoc, List.append_assoc]
    exact ⟨_, rfl⟩
  rw [wrap, List.append_assoc, Bytes.damaged_append (Bytes.length_bigEndian 4 _),
    LogCheckpoint.length_ofZeros, hrest, List.append_assoc, Bytes.oneBit, Bytes.flip_zeros,
    decode_short Payload.readLog h]
  rfl

end Frame

/-- At 4 GiB the length prefix is zero, and a single wrong bit does not show as a wrong checksum,
neither in a record nor in a frame. -/
theorem burst_behind_wrapped_length : ∃ recordError partError : Bytes,
    (recordError.Burst ∧ (LogRecord.ofZeros 4294967258).encode.length = 4 + recordError.length ∧
      LogRecord.decode ((LogRecord.ofZeros 4294967258).encode.damaged recordError) =
        .error (.badRecordLength 0)) ∧
    partError.Burst ∧
      (Frame.wrap (Payload.log (.ofZeros 268435454))).length = 4 + partError.length ∧
      Frame.decode Payload.readLog
          ((Frame.wrap (Payload.log (.ofZeros 268435454))).damaged partError) =
        .error .truncatedPayload := by
  refine ⟨Bytes.oneBit 0 4294967291, Bytes.oneBit 8 4294967295,
    ⟨Bytes.burst_oneBit .., ?_, ?_⟩, Bytes.burst_oneBit .., ?_, Frame.decode_damaged_ofZeros rfl _⟩
  · rw [LogRecord.length_encode, LogRecord.encodedLength_ofZeros, Bytes.length_oneBit]
  · have hzero : (LogRecord.ofZeros 4294967258).encodedLength % Bytes.modulus 4 = 0 := by
      rw [LogRecord.encodedLength_ofZeros]
      rfl
    rw [LogRecord.decode_short (hzero ▸ by decide), hzero]
  · obtain ⟨behind, heq, hlen, -⟩ := Frame.wrap_eq (Payload.log (.ofZeros 268435454))
    rw [heq, List.length_append, Bytes.length_bigEndian, hlen, LogCheckpoint.length_ofZeros,
      Bytes.length_oneBit]

end PredicateIndex
