import PredicateIndex.Proofs.Registration

/-!
# Records of registered groups

A manager admits as many predicates to a group as ordinals can number, and only
key types whose codes are short. The composite keys of such a group therefore
fit the words of a record, whatever chains their slots are put on, and a record
that fits is read back from the front of any bytes, but never from a part of it.
-/

set_option autoImplicit false

namespace PredicateIndex

namespace CompositeKey

structure Uniform (key : CompositeKey) (count length : Nat) : Prop where
  count : key.length = count
  ordinals : ∀ (i : Nat) (slot : Slot), key[i]? = some slot → slot.ordinal.toNat = i
  lengths : ∀ slot ∈ key, ∀ code, slot.key = some code → code.length = length

theorem Uniform.fits {key : CompositeKey} {count length : Nat} (h : key.Uniform count length)
    (hc : count ≤ 255) (hl : length < 65536) : key.Fits := by
  refine ⟨h.count ▸ hc, ?_⟩
  intro slot hs
  cases hk : slot.key with
  | none => exact Nat.zero_lt_succ _
  | some code =>
    have hcode := h.lengths slot hs code hk
    show code.length < 65536
    omega

end CompositeKey

namespace LogRecord

structure Unwrapped (record : LogRecord) : Prop where
  count : record.key.length < Bytes.modulus 1
  keys : ∀ slot ∈ record.key, (slot.key.getD []).length < Bytes.modulus 2
  length : record.encodedLength < Bytes.modulus 4

structure RoundTrips (record : LogRecord) : Prop where
  length : record.encode.length = record.encodedLength
  peek : ∀ rest, peekLength (record.encode ++ rest) = .ok record.encodedLength
  read : ∀ rest, decode (record.encode ++ rest) = .ok record.stored
  cut : ∀ n, n < record.encode.length →
    ∃ fault, decode (record.encode.take n) = .error fault ∧ fault.category = .corruptedRecord

theorem unwrapped_of_fits {record : LogRecord} (h : record.key.Fits) : record.Unwrapped :=
  ⟨Nat.lt_succ_of_le h.1, h.2, encodedLength_lt h⟩

theorem roundTrips_of_fits {record : LogRecord} (h : record.key.Fits) : record.RoundTrips := by
  have hl := encodedLength_lt h
  refine ⟨record.length_encode, peekLength_append hl, decode_append h, ?_⟩
  intro n hn
  refine ⟨_, decode_take hl hn, ?_⟩
  split <;> rfl

end LogRecord

namespace Group

variable {D : Type} {group : Group D} {data : D} {key : CompositeKey}

theorem slot_of_evaluate (hk : key.retain (fun _ => true) = group.evaluate data) {i : Nat}
    {slot : Slot} (hs : key[i]? = some slot) :
    ∃ predicate, group.predicates[i]? = some predicate ∧ slot.ordinal = UInt8.ofNat i ∧
      slot.key = predicate.evaluate data := by
  have hcopy : (group.evaluate data)[i]? = some (slot.copy true) := by
    rw [← hk, CompositeKey.retain, List.getElem?_map, hs, Option.map_some]
  rw [Group.evaluate, CompositeKey.getElem?_ofOutputs, List.getElem?_map, Option.map_map,
    Option.map_eq_some_iff] at hcopy
  obtain ⟨predicate, hp, he⟩ := hcopy
  exact ⟨predicate, hp, (congrArg Slot.ordinal he).symm, (congrArg Slot.key he).symm⟩

/-- The keys of a group that a manager admits are uniform. -/
theorem uniform_of_evaluate {type : KeyType} (hv : type.layout.validate = .ok ())
    (hsize : group.size ≤ maxPredicates)
    (htype : ∀ predicate ∈ group.predicates, predicate.type = type)
    (hk : key.retain (fun _ => true) = group.evaluate data) :
    key.Uniform group.size type.layout.encodedLength := by
  have hlength : key.length = group.size := by
    have hl := congrArg List.length hk
    rwa [CompositeKey.retain, List.length_map, Group.evaluate, CompositeKey.length_ofOutputs,
      List.length_map] at hl
  refine ⟨hlength, ?_, ?_⟩
  · intro i slot hs
    obtain ⟨predicate, -, ho, -⟩ := slot_of_evaluate hk hs
    have hi : i < key.length := (List.getElem?_eq_some_iff.mp hs).1
    have hm : maxPredicates = 255 := rfl
    rw [ho, UInt8.toNat_ofNat']
    exact Nat.mod_eq_of_lt (by omega)
  · intro slot hs code hc
    obtain ⟨i, hi⟩ := List.mem_iff_getElem?.mp hs
    obtain ⟨predicate, hp, -, he⟩ := slot_of_evaluate hk hi
    have ht := htype predicate (List.mem_of_getElem? hp)
    rw [he, Predicate.evaluate] at hc
    obtain ⟨value, -, rfl⟩ := Option.map_eq_some_iff.mp hc
    rw [← ht] at hv ⊢
    exact KeyType.length_encode hv value

end Group

namespace Manager

variable {D : Type} {manager after : Manager D} {type : KeyType}
  {definitions : List (String × (D → Option type.Value))} {handles : List (Handle type)}
  {disk other : Disk}

theorem register_ok
    (h : manager.register type definitions disk = (.ok handles, after, other)) :
    definitions ≠ [] ∧ definitions.length ≤ maxPredicates ∧ type.layout.validate = .ok () ∧
      ∃ group, after.groups = manager.groups ++ [group] ∧
        group.predicates = definitions.map fun d => ⟨d.1, type, d.2⟩ := by
  have hr := registers manager type definitions disk
  rw [h] at hr
  cases hr with
  | opened hc =>
    obtain ⟨hn, hl, hv⟩ := checkDefinitions_ok hc
    rw [List.length_map] at hl
    exact ⟨fun hd => hn (by rw [hd]; rfl), hl, hv, _, rfl, rfl⟩

end Manager

/-- The records of every group that a manager admits have slots in ordinal order with keys of the
length that the layout states, so nothing in them is cut to its word, whatever the addresses of
previous records; and every record that fits the format is read back as it was written, except for
the link marks, while no part of it is taken for a record. -/
theorem records_of_registered :
    (∀ {D : Type} {manager after : Manager D} {type : KeyType}
      {definitions : List (String × (D → Option type.Value))} {handles : List (Handle type)}
      {disk other : Disk},
      manager.register type definitions disk = (.ok handles, after, other) →
      1 ≤ definitions.length ∧ definitions.length ≤ 255 ∧ type.layout.encodedLength ≤ 256 ∧
        ∃ group, after.groups = manager.groups ++ [group] ∧
          group.predicates = definitions.map (fun d => ⟨d.1, type, d.2⟩) ∧
          ∀ data key, key.retain (fun _ => true) = group.evaluate data →
            key.Uniform definitions.length type.layout.encodedLength ∧
              ∀ id tombstone, LogRecord.Unwrapped ⟨id, tombstone, key⟩ ∧
                LogRecord.RoundTrips ⟨id, tombstone, key⟩) ∧
    ∀ record : LogRecord, record.key.Fits → record.RoundTrips := by
  constructor
  · intro D manager after type definitions handles disk other h
    obtain ⟨hn, hmax, hv, group, hg, hp⟩ := Manager.register_ok h
    have hle := KeyLayout.encodedLength_le hv
    refine ⟨List.length_pos_iff.mpr hn, hmax, hle, group, hg, hp, ?_⟩
    intro data key hk
    have hsize : group.size = definitions.length := by rw [Group.size, hp, List.length_map]
    have htype : ∀ predicate ∈ group.predicates, predicate.type = type := by
      intro predicate hm
      rw [hp] at hm
      obtain ⟨definition, -, rfl⟩ := List.mem_map.mp hm
      rfl
    have huniform := Group.uniform_of_evaluate hv (hsize ▸ hmax) htype hk
    rw [hsize] at huniform
    have hm : maxKeySize = 256 := rfl
    have hfits := huniform.fits hmax (by omega)
    refine ⟨huniform, ?_⟩
    intro id tombstone
    exact ⟨LogRecord.unwrapped_of_fits hfits, LogRecord.roundTrips_of_fits hfits⟩
  · intro record hf
    exact LogRecord.roundTrips_of_fits hf

def evenAndNone : List (String × (Nat → Option KeyType.bool.Value)) :=
  [("even", fun n => some (n % 2 == 0)), ("none", fun _ => none)]

def evenKey : CompositeKey := [⟨0, some [1, 1], 64, false, true⟩, ⟨1, none, 0, false, false⟩]

theorem records_of_even_and_none : ∃ handles after other group,
    Manager.register { config := { dir := ["db"] }, identity := 0 } .bool evenAndNone {} =
        (.ok handles, after, other) ∧ after.groups = [group] ∧
      group.evaluate 4 = [{ ordinal := 0, key := some [1, 1] }, { ordinal := 1, key := none }] ∧
      group.evaluate 7 = [{ ordinal := 0, key := some [1, 0] }, { ordinal := 1, key := none }] ∧
      evenKey.retain (fun _ => true) = group.evaluate 4 ∧ evenKey.Uniform 2 2 ∧
      LogRecord.RoundTrips ⟨⟨1, 1⟩, true, evenKey⟩ ∧
      LogRecord.RoundTrips ⟨⟨2, 1⟩, false, List.replicate 255 ⟨0, none, 0, false, false⟩⟩ := by
  have hok : (Manager.register { config := { dir := ["db"] }, identity := 0 } .bool evenAndNone
      {}).1.isOk = true := by decide +kernel
  rcases hr : Manager.register { config := { dir := ["db"] }, identity := 0 } .bool evenAndNone {}
    with ⟨fault | handles, after, other⟩
  · rw [hr] at hok
    cases hok
  · obtain ⟨-, -, -, group, hg, hp, hkeys⟩ := records_of_registered.1 hr
    have heven : group.evaluate 4 =
        [{ ordinal := 0, key := some [1, 1] }, { ordinal := 1, key := none }] := by
      rw [Group.evaluate, hp]
      rfl
    have hodd : group.evaluate 7 =
        [{ ordinal := 0, key := some [1, 0] }, { ordinal := 1, key := none }] := by
      rw [Group.evaluate, hp]
      rfl
    have hk : evenKey.retain (fun _ => true) = group.evaluate 4 := heven ▸ rfl
    have hwide : CompositeKey.Fits (List.replicate 255 ⟨0, none, 0, false, false⟩) := by
      decide +kernel
    obtain ⟨huniform, hrecords⟩ := hkeys 4 _ hk
    exact ⟨handles, after, other, group, rfl, hg, heven, hodd, hk, huniform,
      (hrecords ⟨1, 1⟩ true).2, records_of_registered.2 _ hwide⟩

end PredicateIndex
