import PredicateIndex.Proofs.CheckpointCodec
import PredicateIndex.Proofs.CheckpointFiles
import PredicateIndex.Proofs.Heads
import PredicateIndex.Store.Checkpointing

/-!
# Checkpoint files read back

A file that begins with the frame of a part is read as that part, whatever
follows; a file that ends within the frame is refused, wherever it ends. The
heads of an index are captured in the order of their chains, so restoring them
gives the same index.
-/

set_option autoImplicit false

namespace PredicateIndex

namespace Frame

variable {payload : Bytes}

theorem length_wrap (payload : Bytes) : (wrap payload).length = 4 + payload.length + 8 := by
  rw [wrap, List.length_append, List.length_append, Bytes.length_bigEndian, Bytes.length_bigEndian]

/-- A frame that is cut off is refused: its length, its payload or its checksum is not whole. -/
theorem unwrap_take (h : payload.length < Bytes.modulus 4) {n : Nat}
    (hn : n < (wrap payload).length) :
    unwrap ((wrap payload).take n) =
      .error (if n < 4 then .truncatedFrame else .file .endOfFile) := by
  rw [length_wrap] at hn
  by_cases hlength : n < 4
  · have hshort : ((wrap payload).take n).length < 4 := by
      rw [List.length_take]
      omega
    simp only [unwrap, Bytes.split?_of_lt hshort, if_pos hlength]
  · have hfront : (wrap payload).take n = Bytes.bigEndian 4 payload.length ++
        (payload ++ Bytes.bigEndian 8 (checksum payload).toNat).take (n - 4) := by
      rw [wrap, List.append_assoc, List.take_append, Bytes.length_bigEndian,
        List.take_of_length_le (by rw [Bytes.length_bigEndian]; omega)]
    have hsplit := Bytes.split?_append (Bytes.bigEndian 4 payload.length)
      ((payload ++ Bytes.bigEndian 8 (checksum payload).toNat).take (n - 4))
    rw [Bytes.length_bigEndian, ← hfront] at hsplit
    simp only [unwrap, hsplit, Bytes.ofBigEndian_bigEndian, Nat.mod_eq_of_lt h, if_neg hlength]
    by_cases hpayload : n - 4 < payload.length
    · have hshort : ((payload ++ Bytes.bigEndian 8 (checksum payload).toNat).take (n - 4)).length <
          payload.length := by
        rw [List.length_take]
        omega
      simp only [Bytes.split?_of_lt hshort]
    · have hbehind : (payload ++ Bytes.bigEndian 8 (checksum payload).toNat).take (n - 4) =
          payload ++ (Bytes.bigEndian 8 (checksum payload).toNat).take (n - 4 - payload.length) := by
        rw [List.take_append, List.take_of_length_le (by omega)]
      have hshort : ((Bytes.bigEndian 8 (checksum payload).toNat).take
          (n - 4 - payload.length)).length < 8 := by
        rw [List.length_take]
        omega
      simp only [hbehind, Bytes.split?_append, Bytes.split?_of_lt hshort]

end Frame

namespace ChainHeads

inductive Formed : ChainHeads → Prop
  | empty : Formed []
  | set {heads : ChainHeads} (h : Formed heads) (chain : Bytes) (address : UInt64) :
      Formed (heads.set chain address)
  | restore (entries : List (Bytes × UInt64)) : Formed (restore entries)

theorem ascending_setAll {heads : ChainHeads} (entries : List (Bytes × UInt64))
    (h : heads.Ascending) : (setAll heads entries).Ascending := by
  induction entries generalizing heads with
  | nil => exact h
  | cons entry entries ih => exact ih (ascending_set entry.1 entry.2 h)

theorem Formed.ascending {heads : ChainHeads} (h : heads.Formed) : heads.Ascending := by
  induction h with
  | empty => exact List.Pairwise.nil
  | set _ chain address ih => exact ascending_set chain address ih
  | restore entries => exact ascending_setAll entries List.Pairwise.nil

end ChainHeads

namespace CheckpointDir

/-- Files of the given name with the payload are read as the value: when the frame is followed by
any bytes, and when the part has been written. A file that ends within the frame is refused. -/
structure ReadBack {α : Type} (name : String) (value : Reader α) (payload : Bytes) (a : α) :
    Prop where
  whole : ∀ dir token disk rest,
    disk.read ((tokenDir dir token).child name) = .ok (Frame.wrap payload ++ rest) →
    read dir token name value disk = .ok a
  torn : ∀ dir token disk n, n < (Frame.wrap payload).length →
    disk.read ((tokenDir dir token).child name) = .ok ((Frame.wrap payload).take n) →
    read dir token name value disk =
      .error (if n < 4 then .truncatedFrame else .file .endOfFile)
  written : ∀ dir token disk other, disk.WellFormed →
    write dir token name payload disk = (.ok (), other) →
    read dir token name value other = .ok a

theorem readBack_of_reader {α : Type} {name : String} {value : Reader α} {payload : Bytes} {a : α}
    (hn : Path.Plain name) (hd : Path.Plain (draftFile name))
    (h : payload.length < Bytes.modulus 4) (hv : value payload = some (a, [])) :
    ReadBack name value payload a where
  whole dir token disk rest hr := by
    simp only [read, hr, Frame.decode_append h hv]
  torn dir token disk n hlt hr := by
    simp only [read, hr, Frame.decode, Frame.unwrap_take h hlt, bind, Except.bind]
  written dir token disk other hw hwrite := by
    have hr := read_written hw hn hd hwrite
    simp only [read, hr, Frame.decode_wrap h hv]

/-- Every part whose payload has a length that a frame can state is read back from its file, and
the heads of a captured index are restored with it. -/
theorem parts_read_back :
    (∀ checkpoint : IndexCheckpoint, checkpoint.Fits →
      ReadBack indexFile Payload.readIndex (Payload.index checkpoint) checkpoint) ∧
    (∀ checkpoint : LogCheckpoint, checkpoint.Fits →
      ReadBack logFile Payload.readLog (Payload.log checkpoint) checkpoint) ∧
    ∀ (store : Store) (kind : CheckpointKind) (token : Token) (part : IndexCheckpoint)
      (rest : Bytes), store.heads.Formed → (store.capture kind token).index = some part →
      part.Fits → ∃ decoded,
        Frame.decode Payload.readIndex (Frame.wrap (Payload.index part) ++ rest) = .ok decoded ∧
        (∀ chain, (ChainHeads.restore decoded.heads).head chain = store.heads.head chain) ∧
        (ChainHeads.restore decoded.heads).length = store.heads.length := by
  refine ⟨fun checkpoint h => ?_, fun checkpoint h => ?_, ?_⟩
  · have hr := Payload.readIndex_index h []
    rw [List.append_nil] at hr
    exact readBack_of_reader (by decide) (by decide) h hr
  · have hr := Payload.readLog_log h []
    rw [List.append_nil] at hr
    exact readBack_of_reader (by decide) (by decide) h hr
  · intro store kind token part rest hformed hpart hfits
    have hheads : part.heads = store.heads := by
      simp only [Store.capture] at hpart
      split at hpart
      · obtain rfl := Option.some.inj hpart
        rfl
      · cases hpart
    have hr := Payload.readIndex_index hfits []
    rw [List.append_nil] at hr
    refine ⟨part, Frame.decode_append hfits hr rest, ?_⟩
    rw [hheads, ChainHeads.restore_ascending hformed.ascending]
    exact ⟨fun _ => rfl, rfl⟩

def twoChains : Store :=
  { dir := [], lock := ⟨0, []⟩, log := .empty 1 [], heads := ChainHeads.set [] 64 [([1, 2], 104)]
    sessions := .ofCapacity .standard, awaitingRecovery := false, logMemorySize := 1024 }

def indexOfTwo : IndexCheckpoint := ⟨⟨2⟩, 64, [([], 64), ([1, 2], 104)]⟩

def logOfOne : LogCheckpoint := ⟨⟨2⟩, 64, 144, [(7, 3)]⟩

def tornDisk (n : Nat) : Disk :=
  { entries := [(["checkpoints"], .directory), (["checkpoints", "0000000000000002"], .directory),
      (["checkpoints", "0000000000000002", logFile], .file 0)]
    files := [(Frame.wrap (Payload.log logOfOne)).take n] }

/-- The heads come back with a byte behind the frame; the log part is read where it was written
and refused where only its first twenty bytes are. -/
theorem parts_read_back_two_chains : ∃ decoded other,
    Frame.decode Payload.readIndex (Frame.wrap (Payload.index indexOfTwo) ++ [9]) = .ok decoded ∧
    (ChainHeads.restore decoded.heads).head [] = 64 ∧
    (ChainHeads.restore decoded.heads).length = 2 ∧
    write [] ⟨2⟩ logFile (Payload.log logOfOne) {} = (.ok (), other) ∧
    readLog [] ⟨2⟩ other = .ok logOfOne ∧
    readLog [] ⟨2⟩ (tornDisk 20) = .error (.file .endOfFile) := by
  obtain ⟨-, hlog, hindex⟩ := parts_read_back
  have hformed : twoChains.heads.Formed := (((ChainHeads.Formed.empty).set [1, 2] 104).set [] 64)
  obtain ⟨decoded, hdecoded, hhead, hlength⟩ :=
    hindex twoChains .full ⟨2⟩ indexOfTwo [9] hformed rfl (by decide +kernel)
  have hfits : logOfOne.Fits := by decide +kernel
  obtain ⟨-, htorn, hwritten⟩ := hlog logOfOne hfits
  obtain ⟨other, hwrite⟩ : ∃ other,
      write [] ⟨2⟩ logFile (Payload.log logOfOne) {} = (.ok (), other) := ⟨_, rfl⟩
  refine ⟨decoded, other, hdecoded, hhead [], hlength, hwrite,
    hwritten [] ⟨2⟩ {} other .empty hwrite, ?_⟩
  exact htorn [] ⟨2⟩ (tornDisk 20) 20 (by decide +kernel) rfl

end CheckpointDir

end PredicateIndex
