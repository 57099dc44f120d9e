import PredicateIndex.Checkpoint.Format
import PredicateIndex.Proofs.Words

/-!
# The checkpoint format read back

A frame states the length of its payload in four bytes. A checkpoint part whose
payload is shorter than that word can say is read back as it was written.
-/

set_option autoImplicit false

namespace PredicateIndex

def IndexCheckpoint.Fits (checkpoint : IndexCheckpoint) : Prop :=
  (Payload.index checkpoint).length < Bytes.modulus 4

instance IndexCheckpoint.decidableFits (checkpoint : IndexCheckpoint) : Decidable checkpoint.Fits :=
  inferInstanceAs (Decidable ((Payload.index checkpoint).length < Bytes.modulus 4))

def LogCheckpoint.Fits (checkpoint : LogCheckpoint) : Prop :=
  (Payload.log checkpoint).length < Bytes.modulus 4

instance LogCheckpoint.decidableFits (checkpoint : LogCheckpoint) : Decidable checkpoint.Fits :=
  inferInstanceAs (Decidable ((Payload.log checkpoint).length < Bytes.modulus 4))

namespace Payload

theorem length_word (n : UInt64) : (word n).length = 8 := Bytes.length_littleEndian 8 _

theorem readWord_append (n : UInt64) (rest : Bytes) : readWord (word n ++ rest) = some (n, rest) := by
  rw [readWord, word, Reader.bind_apply (Reader.littleWord_append (Bytes.word64_lt n) rest)]
  simp
  rfl

theorem readBytes_append {content : Bytes} (h : content.length < Bytes.modulus 8) (rest : Bytes) :
    readBytes (bytes content ++ rest) = some (content, rest) := by
  rw [readBytes, bytes, List.append_assoc, Reader.bind_apply (readWord_append _ _),
    UInt64.toNat_ofNat_of_lt' h, Reader.bytes_append]

theorem readList_append {α : Type} {read : Reader α} {write : α → Bytes} {items : List α}
    (hl : items.length < Bytes.modulus 8)
    (h : ∀ a ∈ items, ∀ rest, read (write a ++ rest) = some (a, rest)) (rest : Bytes) :
    readList read (list write items ++ rest) = some (items, rest) := by
  have hr := Reader.replicate_append (fun a => a) h rest
  rw [List.map_id'] at hr
  rw [readList, list, List.append_assoc, Reader.bind_apply (readWord_append _ _),
    UInt64.toNat_ofNat_of_lt' hl, hr]

theorem length_le_flatMap {α : Type} (write : α → Bytes) (items : List α)
    (h : ∀ a ∈ items, 1 ≤ (write a).length) : items.length ≤ (items.flatMap write).length := by
  induction items with
  | nil => exact Nat.zero_le _
  | cons a items ih =>
    have ha := h a List.mem_cons_self
    have hi := ih fun b hb => h b (List.mem_cons_of_mem a hb)
    rw [List.flatMap_cons, List.length_append, List.length_cons]
    omega

theorem length_le_of_mem {α : Type} (write : α → Bytes) {items : List α} {a : α}
    (h : a ∈ items) : (write a).length ≤ (items.flatMap write).length := by
  obtain ⟨front, back, rfl⟩ := List.append_of_mem h
  rw [List.flatMap_append, List.flatMap_cons, List.length_append, List.length_append]
  omega

theorem readHead_append {entry : Bytes × UInt64} (h : entry.1.length < Bytes.modulus 8)
    (rest : Bytes) : readHead (head entry ++ rest) = some (entry, rest) := by
  rw [readHead, head, List.append_assoc, Reader.bind_apply (readBytes_append h _),
    Reader.bind_apply (readWord_append _ _)]
  rfl

theorem readCommitPoint_append (point : UInt64 × UInt64) (rest : Bytes) :
    readCommitPoint (commitPoint point ++ rest) = some (point, rest) := by
  rw [readCommitPoint, commitPoint, List.append_assoc, Reader.bind_apply (readWord_append _ _),
    Reader.bind_apply (readWord_append _ _)]
  rfl

theorem modulus_four_lt : Bytes.modulus 4 < Bytes.modulus 8 := by decide

theorem readIndex_index {checkpoint : IndexCheckpoint} (h : checkpoint.Fits) (rest : Bytes) :
    readIndex (index checkpoint ++ rest) = some (checkpoint, rest) := by
  have hm := modulus_four_lt
  simp only [IndexCheckpoint.Fits, index, list, List.length_append] at h
  have hl : checkpoint.heads.length < Bytes.modulus 8 := by
    have hc := length_le_flatMap head checkpoint.heads fun entry _ => by
      rw [head, bytes, List.length_append, List.length_append, length_word, length_word]
      omega
    omega
  have hh : ∀ entry ∈ checkpoint.heads, ∀ rest, readHead (head entry ++ rest) = some (entry, rest) := by
    intro entry he
    apply readHead_append
    have hc := length_le_of_mem head he
    rw [head, bytes, List.length_append, List.length_append] at hc
    omega
  rw [readIndex, index, token, List.append_assoc, List.append_assoc, readToken]
  rw [Reader.bind_apply (a := checkpoint.token) (by rw [Reader.bind_apply (readWord_append _ _)]; rfl),
    Reader.bind_apply (readWord_append _ _), Reader.bind_apply (readList_append hl hh rest)]
  rfl

theorem readLog_log {checkpoint : LogCheckpoint} (h : checkpoint.Fits) (rest : Bytes) :
    readLog (log checkpoint ++ rest) = some (checkpoint, rest) := by
  have hm := modulus_four_lt
  simp only [LogCheckpoint.Fits, log, list, List.length_append] at h
  have hl : checkpoint.commitPoints.length < Bytes.modulus 8 := by
    have hc := length_le_flatMap commitPoint checkpoint.commitPoints fun point _ => by
      rw [commitPoint, List.length_append, length_word, length_word]
      omega
    omega
  rw [readLog, log, token, List.append_assoc, List.append_assoc, List.append_assoc, readToken]
  rw [Reader.bind_apply (a := checkpoint.token) (by rw [Reader.bind_apply (readWord_append _ _)]; rfl),
    Reader.bind_apply (readWord_append _ _), Reader.bind_apply (readWord_append _ _),
    Reader.bind_apply (readList_append hl (fun point _ => readCommitPoint_append point) rest)]
  rfl

end Payload

namespace Frame

theorem unwrap_append {payload : Bytes} (h : payload.length < Bytes.modulus 4) (rest : Bytes) :
    unwrap (wrap payload ++ rest) = .ok payload := by
  have hl := Bytes.split?_append (Bytes.bigEndian 4 payload.length)
  have hs := Bytes.split?_append (Bytes.bigEndian 8 (checksum payload).toNat) rest
  rw [Bytes.length_bigEndian] at hl hs
  simp only [unwrap, wrap, List.append_assoc, hl, Bytes.ofBigEndian_bigEndian, Nat.mod_eq_of_lt h,
    Bytes.split?_append, hs, Nat.mod_eq_of_lt (Bytes.word64_lt _), if_true]

/-- A part is read back from the front of any bytes that begin with its frame. -/
theorem decode_append {α : Type} {read : Reader α} {payload left : Bytes} {a : α}
    (h : payload.length < Bytes.modulus 4) (hr : read payload = some (a, left)) (rest : Bytes) :
    decode read (wrap payload ++ rest) = .ok a := by
  simp only [decode, unwrap_append h, bind, Except.bind, Payload.decode, hr]

theorem decode_wrap {α : Type} {read : Reader α} {payload rest : Bytes} {a : α}
    (h : payload.length < Bytes.modulus 4) (hr : read payload = some (a, rest)) :
    decode read (wrap payload) = .ok a := by
  have hd := decode_append h hr []
  rwa [List.append_nil] at hd

theorem decode_index {checkpoint : IndexCheckpoint} (h : checkpoint.Fits) :
    decode Payload.readIndex (wrap (Payload.index checkpoint)) = .ok checkpoint := by
  have hr := Payload.readIndex_index h []
  rw [List.append_nil] at hr
  exact decode_wrap h hr

theorem decode_log {checkpoint : LogCheckpoint} (h : checkpoint.Fits) :
    decode Payload.readLog (wrap (Payload.log checkpoint)) = .ok checkpoint := by
  have hr := Payload.readLog_log h []
  rw [List.append_nil] at hr
  exact decode_wrap h hr

end Frame

end PredicateIndex
