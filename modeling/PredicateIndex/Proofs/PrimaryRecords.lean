import PredicateIndex.Primary
import PredicateIndex.Proofs.Lookup

/-!
# The records of a primary store

A record is pushed, replaced in its slot or taken out of it. Through all of this
every key that the store knows leads to a record that has the key. An operation
does one of these things, in step with what the groups make of it.
-/

set_option autoImplicit false

namespace PredicateIndex

namespace Primary

variable {K V : Type}

def At (primary : Primary K V) (address : Nat) (data : KeyValue K V) : Prop :=
  primary.slot address = .ok (some data)

theorem slot_succ (primary : Primary K V) (n : Nat) :
    primary.slot (n + 1) = match primary.log[n]? with
      | some slot => .ok slot
      | none => .error (.addressOutOfRange (n + 1)) := rfl

theorem slot_bounds {primary : Primary K V} {address : Nat} {found : Option (KeyValue K V)}
    (h : primary.slot address = .ok found) : 0 < address ∧ address < primary.tail := by
  cases address with
  | zero => cases h
  | succ n =>
    rw [slot_succ] at h
    cases hs : primary.log[n]? with
    | none =>
      rw [hs] at h
      cases h
    | some slot =>
      exact ⟨Nat.succ_pos n, Nat.succ_lt_succ (List.getElem?_eq_some_iff.mp hs).1⟩

theorem At.bounds {primary : Primary K V} {address : Nat} {data : KeyValue K V}
    (h : primary.At address data) : 0 < address ∧ address < primary.tail := slot_bounds h

theorem At.record {primary : Primary K V} {address : Nat} {data : KeyValue K V}
    (h : primary.At address data) : primary.record address = .ok data := by
  rw [At] at h
  rw [Primary.record, h]
  rfl

theorem At.of_record {primary : Primary K V} {address : Nat} {data : KeyValue K V}
    (h : primary.record address = .ok data) : primary.At address data := by
  rw [Primary.record] at h
  rw [At]
  rcases hs : primary.slot address with fault | found <;> rw [hs] at h
  · cases h
  · cases found with
    | none => cases h
    | some found =>
      cases h
      rfl

theorem tail_setSlot (primary : Primary K V) (address : Nat) (data : Option (KeyValue K V)) :
    (primary.setSlot address data).tail = primary.tail := by
  rw [tail, tail, setSlot, List.length_set]

theorem slot_setSlot {primary : Primary K V} {address : Nat} {old : KeyValue K V}
    (h : primary.At address old) (new : Option (KeyValue K V)) (other : Nat) :
    (primary.setSlot address new).slot other =
      if other = address then .ok new else primary.slot other := by
  have hb := h.bounds
  rw [tail] at hb
  cases other with
  | zero =>
    rw [if_neg (by omega)]
    rfl
  | succ n =>
    rw [slot_succ, setSlot, List.getElem?_set]
    by_cases ho : n + 1 = address
    · subst ho
      rw [if_pos rfl, Nat.add_sub_cancel, if_pos rfl, if_pos (by omega)]
    · rw [if_neg ho, if_neg (by omega)]
      rfl

theorem at_setSlot {primary : Primary K V} {address : Nat} {old : KeyValue K V}
    (hat : primary.At address old) (new : Option (KeyValue K V)) (place : Nat) (data : KeyValue K V) :
    (primary.setSlot address new).At place data ↔
      if place = address then new = some data else primary.At place data := by
  rw [At, slot_setSlot hat]
  split
  · rw [Except.ok.injEq]
  · exact Iff.rfl

theorem At.unique {primary : Primary K V} {address : Nat} {data other : KeyValue K V}
    (h : primary.At address data) (ho : primary.At address other) : data = other := by
  rw [At] at h ho
  rw [h] at ho
  exact Option.some.inj (Except.ok.inj ho)

theorem get_of_at [DecidableEq K] {primary : Primary K V} {key : K} {value : V} {address : Nat}
    (hk : primary.address? key = some address) (hat : primary.At address ⟨key, value⟩) :
    primary.get key = .ok (some (primary.recordId address, value)) := by
  rw [At] at hat
  rw [get, hk]
  dsimp only
  rw [hat]
  rfl

theorem read_recordId {primary : Primary K V} {address : Nat} (ht : address < primary.tail)
    (hf : primary.tail < UInt64.size) :
    primary.read (primary.recordId address) = primary.slot address := by
  have ha : (primary.recordId address).address.toNat = address :=
    UInt64.toNat_ofNat_of_lt' (Nat.lt_trans ht hf)
  have hin : ¬ ((primary.recordId address).version ≠ primary.version ∨
      primary.tail ≤ (primary.recordId address).address.toNat) := by
    rw [ha]
    rintro (hv | ht')
    · exact hv rfl
    · exact absurd ht (Nat.not_lt_of_le ht')
  rw [read, if_neg hin, ha]

/-- Ids tell addresses apart as long as these are 64-bit words. -/
theorem recordId_inj {primary : Primary K V} (hf : primary.tail ≤ UInt64.size) {a b : Nat}
    (ha : a < primary.tail) (hb : b < primary.tail) (h : primary.recordId a = primary.recordId b) :
    a = b := by
  have hn := congrArg (fun id => id.address.toNat) h
  simp only [recordId] at hn
  rwa [UInt64.toNat_ofNat_of_lt' (by omega), UInt64.toNat_ofNat_of_lt' (by omega)] at hn

theorem recordId_ne_next {primary : Primary K V} (hf : primary.tail < UInt64.size) {a : Nat}
    (ha : a < primary.tail) : primary.recordId a ≠ primary.recordId primary.tail := by
  intro h
  have hn := congrArg (fun id => id.address.toNat) h
  simp only [recordId] at hn
  rw [UInt64.toNat_ofNat_of_lt' (by omega), UInt64.toNat_ofNat_of_lt' hf] at hn
  omega

/-- A record is written at a place for one at an address, which may be the same: the old one is gone
afterwards, the place has the new one, if there is any, and all others are as they were. -/
structure Rewrites (primary after : Primary K V) (address place : Nat)
    (new : Option (KeyValue K V)) : Prop where
  version : after.version = primary.version
  bounds : address < after.tail ∧ place < after.tail
  records : ∀ other data, after.At other data ↔
    if other = place then new = some data else other ≠ address ∧ primary.At other data

namespace Rewrites

variable {primary after last : Primary K V} {address place : Nat} {new : Option (KeyValue K V)}

theorem at_place (h : primary.Rewrites after address place new) {data : KeyValue K V} :
    after.At place data ↔ new = some data := by
  rw [h.records, if_pos rfl]

theorem at_other (h : primary.Rewrites after address place new) {other : Nat} (hn : other ≠ place)
    {data : KeyValue K V} : after.At other data ↔ other ≠ address ∧ primary.At other data := by
  rw [h.records, if_neg hn]

theorem of_log (h : primary.Rewrites after address place new)
    (hv : last.version = after.version) (hl : last.log = after.log) :
    primary.Rewrites last address place new := by
  have hat : ∀ other data, last.At other data ↔ after.At other data := fun other data => by
    rw [At, At, slot.eq_def, slot.eq_def, hl]
  have htail : last.tail = after.tail := by rw [tail, tail, hl]
  exact ⟨hv.trans h.version, htail ▸ h.bounds, fun other data =>
    (hat other data).trans (h.records other data)⟩

end Rewrites

theorem rewrites_setSlot {primary : Primary K V} {address : Nat} {old : KeyValue K V}
    (hat : primary.At address old) (new : Option (KeyValue K V)) :
    primary.Rewrites (primary.setSlot address new) address address new where
  version := rfl
  bounds := by
    rw [tail_setSlot]
    exact ⟨hat.bounds.2, hat.bounds.2⟩
  records other data := by
    rw [at_setSlot hat]
    by_cases ho : other = address <;> simp [ho]

variable [DecidableEq K]

def Filed (primary : Primary K V) : Prop :=
  ∀ key address, primary.address? key = some address →
    ∃ data, primary.At address data ∧ data.key = key

theorem slot_push (primary : Primary K V) (data : KeyValue K V) (address : Nat) :
    (push data primary).slot address =
      if address = primary.tail then .ok (some data) else primary.slot address := by
  cases address with
  | zero => rw [if_neg (by rw [tail]; omega)]; rfl
  | succ n =>
    rw [slot_succ, push, tail]
    rcases Nat.lt_trichotomy n primary.log.length with h | h | h
    · rw [if_neg (by omega), List.getElem?_append_left h]
      rfl
    · rw [if_pos (by omega), h, List.getElem?_concat_length]
    · have hn : primary.log[n]? = none := List.getElem?_eq_none (by omega)
      rw [if_neg (by omega), slot_succ, hn, List.getElem?_eq_none]
      rw [List.length_append, List.length_singleton]
      omega

theorem tail_push (primary : Primary K V) (data : KeyValue K V) :
    (push data primary).tail = primary.tail + 1 := by
  rw [tail, tail, push, List.length_append, List.length_singleton]

theorem at_push (primary : Primary K V) (new : KeyValue K V) (place : Nat) (data : KeyValue K V) :
    (push new primary).At place data ↔
      if place = primary.tail then new = data else primary.At place data := by
  rw [At, slot_push]
  split
  · rw [Except.ok.injEq, Option.some.injEq]
  · exact Iff.rfl

theorem At.push {primary : Primary K V} {address : Nat} {data : KeyValue K V}
    (hat : primary.At address data) (new : KeyValue K V) :
    (Primary.push new primary).At address data := by
  rw [at_push, if_neg (Nat.ne_of_lt hat.bounds.2)]
  exact hat

theorem rewrites_push (primary : Primary K V) (new : KeyValue K V) :
    primary.Rewrites (push new primary) primary.tail primary.tail (some new) where
  version := rfl
  bounds := by
    rw [tail_push]
    exact ⟨Nat.lt_succ_self _, Nat.lt_succ_self _⟩
  records other data := by
    rw [at_push]
    by_cases ho : other = primary.tail <;> simp [ho]

theorem rewrites_copy {primary : Primary K V} {address : Nat} {old : KeyValue K V}
    (hat : primary.At address old) (new : KeyValue K V) :
    primary.Rewrites ((push new primary).setSlot address none) address primary.tail (some new) where
  version := rfl
  bounds := by
    rw [tail_setSlot, tail_push]
    exact ⟨Nat.lt_succ_of_lt hat.bounds.2, Nat.lt_succ_self _⟩
  records other data := by
    have hne : primary.tail ≠ address := Nat.ne_of_gt hat.bounds.2
    rw [at_setSlot (hat.push new), at_push]
    by_cases hp : other = primary.tail <;> by_cases ho : other = address <;> simp_all

theorem address?_push (primary : Primary K V) (data : KeyValue K V) (key : K) :
    (push data primary).address? key =
      if key = data.key then some primary.tail else primary.address? key := by
  have hf := Lookup.filter_eq primary.index (fun other => decide (other ≠ data.key)) key
  rw [address?, push, Lookup.cons_eq, hf]
  by_cases h : key = data.key <;> simp [h, address?]

namespace Filed

variable {primary : Primary K V}

theorem push (h : primary.Filed) (data : KeyValue K V) : (Primary.push data primary).Filed := by
  intro key address hk
  rw [address?_push] at hk
  split at hk
  · rename_i he
    obtain rfl := Option.some.inj hk
    refine ⟨data, ?_, he.symm⟩
    rw [at_push, if_pos rfl]
  · obtain ⟨found, hat, he⟩ := h key address hk
    exact ⟨found, hat.push data, he⟩

theorem replace (h : primary.Filed) {address : Nat} {old new : KeyValue K V}
    (hat : primary.At address old) (hk : new.key = old.key) :
    (primary.setSlot address (some new)).Filed := by
  intro key place hplace
  obtain ⟨found, hfound, he⟩ := h key place hplace
  by_cases hp : place = address
  · subst hp
    obtain rfl := hat.unique hfound
    refine ⟨new, ?_, hk.trans he⟩
    rw [at_setSlot hat, if_pos rfl]
  · refine ⟨found, ?_, he⟩
    rw [at_setSlot hat, if_neg hp]
    exact hfound

theorem copy (h : primary.Filed) {address : Nat} {old new : KeyValue K V}
    (hat : primary.At address old) (hk : new.key = old.key) :
    ((Primary.push new primary).setSlot address none).Filed := by
  have hmid := hat.push new
  intro key place hplace
  obtain ⟨found, hfound, he⟩ := h.push new key place hplace
  have hne : place ≠ address := by
    rintro rfl
    have hindex : (if key = new.key then some primary.tail else primary.address? key) = some place :=
      (address?_push primary new key).symm.trans hplace
    split at hindex
    · exact Nat.ne_of_gt hat.bounds.2 (Option.some.inj hindex)
    · rename_i hkey
      obtain rfl := hmid.unique hfound
      exact hkey (he.symm.trans hk.symm)
  refine ⟨found, ?_, he⟩
  rw [at_setSlot hmid, if_neg hne]
  exact hfound

theorem remove (h : primary.Filed) {address : Nat} {data : KeyValue K V}
    (hat : primary.At address data) :
    Filed { primary.setSlot address none with
      index := primary.index.filter fun entry => entry.1 ≠ data.key } := by
  intro key place hplace
  have hindex : (if key ≠ data.key then primary.address? key else none) = some place := by
    have hfilter := Lookup.filter_eq primary.index (fun k => decide (k ≠ data.key)) key
    simp only [decide_eq_true_eq] at hfilter
    rw [← hplace]
    exact hfilter.symm
  split at hindex
  · rename_i hn
    obtain ⟨found, hfound, he⟩ := h key place hindex
    have hne : place ≠ address := by
      rintro rfl
      exact hn (hat.unique hfound ▸ he.symm)
    refine ⟨found, ?_, he⟩
    show (primary.setSlot address none).At place found
    rw [at_setSlot hat, if_neg hne]
    exact hfound
  · cases hindex

end Filed

def updateOf (primary : Primary K V) (address place : Nat) (data : KeyValue K V)
    (change : V → V) : ChangeTracker (KeyValue K V) :=
  (primary.manager.beginUpdate data (primary.recordId address)).setAfter
    { data with value := change data.value } (primary.recordId place)

section

variable {primary : Primary K V} {address : Nat} {data : KeyValue K V}

theorem insertNew_cases (primary : Primary K V) (data : KeyValue K V) (disk : Disk) :
    (∃ fault manager other,
      primary.manager.insert data (primary.recordId primary.tail) disk =
        (.error fault, manager, other) ∧
      primary.insertNew data disk = (.error fault, { primary with manager }, other)) ∨
    ∃ manager other,
      primary.manager.insert data (primary.recordId primary.tail) disk = (.ok (), manager, other) ∧
      primary.insertNew data disk =
        (.ok (primary.recordId primary.tail), push data { primary with manager }, other) := by
  rw [insertNew]
  rcases hm : primary.manager.insert data (primary.recordId primary.tail) disk with
    ⟨fault | _, manager, other⟩
  · exact .inl ⟨fault, manager, other, rfl, rfl⟩
  · exact .inr ⟨manager, other, rfl, rfl⟩

omit [DecidableEq K] in
theorem changeInPlace_eq (hat : primary.At address data) (change : V → V) (disk : Disk) :
    ∃ result manager last other,
      primary.manager.upsert { data with value := change data.value } (primary.recordId address)
        (some (primary.updateOf address address data change)) disk = (result, manager, last, other) ∧
      primary.changeInPlace address change disk =
        (result.map fun _ => primary.recordId address,
          { primary.setSlot address (some { data with value := change data.value }) with manager },
          other) := by
  rcases hm : primary.manager.upsert { data with value := change data.value }
    (primary.recordId address) (some (primary.updateOf address address data change)) disk with
    ⟨result, manager, last, other⟩
  refine ⟨result, manager, last, other, rfl, ?_⟩
  rw [updateOf] at hm
  rw [changeInPlace, hat.record]
  dsimp only
  rw [show (primary.setSlot address _).manager = primary.manager from rfl, hm]
  cases result <;> rfl

theorem changeByCopy_cases (hat : primary.At address data) (change : V → V) (disk : Disk) :
    (∃ fault manager last other,
      primary.manager.update (primary.updateOf address primary.tail data change) disk =
        (.error fault, manager, last, other) ∧
      primary.changeByCopy address change disk = (.error fault, { primary with manager }, other)) ∨
    ∃ manager last other,
      primary.manager.update (primary.updateOf address primary.tail data change) disk =
        (.ok (), manager, last, other) ∧
      primary.changeByCopy address change disk = (.ok (primary.recordId primary.tail),
        (push { data with value := change data.value } { primary with manager }).setSlot address none,
        other) := by
  rw [changeByCopy, hat.record, updateOf]
  dsimp only
  rcases hm : primary.manager.update ((primary.manager.beginUpdate data
    (primary.recordId address)).setAfter { data with value := change data.value }
    (primary.recordId primary.tail)) disk with ⟨fault | _, manager, last, other⟩
  · exact .inl ⟨fault, manager, last, other, rfl, rfl⟩
  · exact .inr ⟨manager, last, other, rfl, rfl⟩

theorem delete_cases {key : K} (hk : primary.address? key = some address)
    (hat : primary.At address data) (disk : Disk) :
    (∃ fault manager last other,
      primary.manager.delete (primary.manager.beginUpdate data (primary.recordId address)) disk =
        (.error fault, manager, last, other) ∧
      primary.delete key disk = (.error fault, { primary with manager }, other)) ∨
    ∃ manager last other,
      primary.manager.delete (primary.manager.beginUpdate data (primary.recordId address)) disk =
        (.ok (), manager, last, other) ∧
      primary.delete key disk = (.ok true,
        { ({ primary with manager } : Primary K V).setSlot address none with
          index := primary.index.filter fun entry => entry.1 ≠ key }, other) := by
  rw [delete, hk]
  simp only [hat.record]
  rcases hm : primary.manager.delete
    (primary.manager.beginUpdate data (primary.recordId address)) disk with
    ⟨fault | _, manager, last, other⟩
  · exact .inl ⟨fault, manager, last, other, rfl, rfl⟩
  · exact .inr ⟨manager, last, other, rfl, rfl⟩

end

end Primary

end PredicateIndex
