import PredicateIndex.Proofs.PrimaryRecords
import PredicateIndex.Proofs.Registration

/-!
# The records of a primary store and the indexes

Every operation of the primary store changes one record and tells the groups
about it. In every group a chain then holds exactly the ids of the records that
are stored now and have the chain in their key, whether a record came new, was
changed in its place, copied to the tail or deleted.
-/

set_option autoImplicit false

namespace PredicateIndex

namespace Primary

variable {K V : Type}

def Stores (primary : Primary K V) (condition : Nat → KeyValue K V → Prop) (id : RecordId) : Prop :=
  ∃ address data, primary.At address data ∧ primary.recordId address = id ∧ condition address data

section

variable {condition final : Nat → KeyValue K V → Prop} {id : RecordId}

theorem stores_of_at {primary : Primary K V} (hf : primary.tail ≤ UInt64.size) {address : Nat}
    {data : KeyValue K V} (h : primary.At address data) :
    primary.Stores condition (primary.recordId address) ↔ condition address data := by
  constructor
  · rintro ⟨other, found, ho, he, hc⟩
    obtain rfl := recordId_inj hf ho.bounds.2 h.bounds.2 he
    exact h.unique ho ▸ hc
  · intro hc
    exact ⟨address, data, h, rfl, hc⟩

/-- When a record is written, its own id is decided by the new record, the id that was there before is
stored no more, and all other ids as they were. -/
theorem Rewrites.stores {primary after : Primary K V} {address place : Nat}
    {new : Option (KeyValue K V)} (h : primary.Rewrites after address place new)
    (hf : after.tail ≤ UInt64.size)
    (hc : ∀ other, other ≠ place → ∀ data, final other data ↔ condition other data) :
    after.Stores final id ↔
      if id = primary.recordId place then ∃ data, new = some data ∧ final place data
      else if id = primary.recordId address then False else primary.Stores condition id := by
  have hid : ∀ other, after.recordId other = primary.recordId other := fun other => by
    rw [recordId, recordId, h.version]
  have hsame : ∀ {other data place}, after.At other data → place < after.tail →
      after.recordId other = id → id = primary.recordId place → other = place :=
    fun hat hp he hi => recordId_inj hf hat.bounds.2 hp (he.trans (hi.trans (hid _).symm))
  split
  next hp =>
    constructor
    · rintro ⟨other, data, hat, he, hfinal⟩
      obtain rfl := hsame hat h.bounds.2 he hp
      exact ⟨data, h.at_place.mp hat, hfinal⟩
    · rintro ⟨data, hnew, hfinal⟩
      exact ⟨place, data, h.at_place.mpr hnew, (hid _).trans hp.symm, hfinal⟩
  next hp =>
    have hplace : ∀ {other}, primary.recordId other = id → other ≠ place := by
      rintro _ he rfl
      exact hp he.symm
    split
    next ha =>
      refine iff_false_intro ?_
      rintro ⟨other, data, hat, he, -⟩
      obtain rfl := hsame hat h.bounds.1 he ha
      exact ((h.at_other (hplace ha.symm)).mp hat).1 rfl
    next ha =>
      constructor
      · rintro ⟨other, data, hat, he, hfinal⟩
        rw [hid] at he
        have hn := hplace he
        exact ⟨other, data, ((h.at_other hn).mp hat).2, he, (hc other hn data).mp hfinal⟩
      · rintro ⟨other, data, hat, he, hcondition⟩
        have hn := hplace he
        have hold : other ≠ address := by
          rintro rfl
          exact ha he.symm
        exact ⟨other, data, (h.at_other hn).mpr ⟨hold, hat⟩, (hid _).trans he,
          (hc other hn data).mpr hcondition⟩

theorem not_stores_next {primary : Primary K V} (hf : primary.tail < UInt64.size) :
    ¬ primary.Stores condition (primary.recordId primary.tail) := by
  rintro ⟨address, data, hat, he, -⟩
  exact recordId_ne_next hf hat.bounds.2 he

theorem unknown_next {primary : Primary K V} {known : RecordId → Bool}
    (hk : ∀ id, known id = true ↔ primary.Stores condition id)
    (hf : primary.tail < UInt64.size) : known (primary.recordId primary.tail) = false :=
  Bool.eq_false_iff.mpr fun hc => not_stores_next hf ((hk _).mp hc)

end

def Has (primary : Primary K V) (predicates : List (Predicate (KeyValue K V))) (chain : Bytes)
    (id : RecordId) : Prop :=
  ∃ address data, primary.At address data ∧ primary.recordId address = id ∧
    chain ∈ (keyOf predicates data).chains

theorem has_of_at {primary : Primary K V} (hf : primary.tail ≤ UInt64.size) {address : Nat}
    {data : KeyValue K V} (h : primary.At address data)
    (predicates : List (Predicate (KeyValue K V))) (chain : Bytes) :
    primary.Has predicates chain (primary.recordId address) ↔
      chain ∈ (keyOf predicates data).chains :=
  stores_of_at hf h

theorem holds_stored {primary : Primary K V} {predicates : List (Predicate (KeyValue K V))}
    {index : Index} (ha : ∀ chain id, index chain id = true ↔ primary.Has predicates chain id)
    (hf : primary.tail ≤ UInt64.size) {address : Nat} {data : KeyValue K V}
    (hat : primary.At address data) (chain : Bytes) :
    index chain (primary.recordId address) = true ↔ chain ∈ (keyOf predicates data).chains :=
  (ha chain _).trans (has_of_at hf hat predicates chain)

theorem holds_next {primary : Primary K V} {predicates : List (Predicate (KeyValue K V))}
    {index : Index} (ha : ∀ chain id, index chain id = true ↔ primary.Has predicates chain id)
    (hf : primary.tail < UInt64.size) (chain : Bytes) :
    index chain (primary.recordId primary.tail) = false :=
  unknown_next (ha chain) hf

variable [DecidableEq K]

/-- Keys lead to their records, and every group stands for the chains of the stored records. The
groups are those of the manager that the store began with. -/
structure Indexed (primary : Primary K V) (disk : Disk) (base : Path)
    (origin : Manager (KeyValue K V)) : Prop where
  same : origin.SameGroups primary.manager
  keys : ∀ key address, primary.address? key = some address →
    ∃ data, primary.At address data ∧ data.key = key
  chains : ∃ index, primary.manager.Indexed disk base origin.schema index ∧
    ∀ group ∈ primary.manager.groups.map Group.id, ∀ chain id,
      index group chain id = true ↔ primary.Has (origin.schema group) chain id

namespace Indexed

variable {primary : Primary K V} {disk : Disk} {base : Path}
  {origin : Manager (KeyValue K V)}

theorem ofManager (h : primary.Indexed disk base origin) {manager : Manager (KeyValue K V)}
    {other : Disk} (hm : ∀ index, primary.manager.Indexed disk base origin.schema index →
      primary.manager.SameGroups manager ∧ manager.Indexed other base origin.schema index) :
    Indexed { primary with manager } other base origin := by
  obtain ⟨index, hi, ha⟩ := h.chains
  obtain ⟨hs, hother⟩ := hm index hi
  exact ⟨h.same.trans hs, h.keys, index, hother, fun group hg => ha group (hs.ids ▸ hg)⟩

/-- What the groups wrote when one record was written agrees with the records stored then. -/
theorem ofRewrites (h : primary.Indexed disk base origin) {after : Primary K V} {other : Disk}
    {address place : Nat} {new : Option (KeyValue K V)} {index final : Nat → Index}
    (hfiled : after.Filed) (hs : primary.manager.SameGroups after.manager)
    (hi : after.manager.Indexed other base origin.schema final)
    (ha : ∀ group ∈ primary.manager.groups.map Group.id, ∀ chain id,
      index group chain id = true ↔ primary.Has (origin.schema group) chain id)
    (hr : primary.Rewrites after address place new) (hf : after.tail ≤ UInt64.size)
    (hfinal : ∀ group ∈ primary.manager.groups.map Group.id, ∀ chain id,
      final group chain id = true ↔
        if id = primary.recordId place then
          ∃ data, new = some data ∧ chain ∈ (keyOf (origin.schema group) data).chains
        else if id = primary.recordId address then False else index group chain id = true) :
    after.Indexed other base origin := by
  refine ⟨h.same.trans hs, hfiled, final, hi, fun group hg chain id => ?_⟩
  have hg := hs.ids ▸ hg
  rw [hfinal group hg, ha group hg]
  exact (hr.stores hf fun _ _ _ => Iff.rfl).symm

theorem insertNew (h : primary.Indexed disk base origin) (data : KeyValue K V)
    (hf : primary.tail < UInt64.size) :
    (primary.insertNew data disk).1 = .ok (primary.recordId primary.tail) ∧
      (primary.insertNew data disk).2.1.Indexed (primary.insertNew data disk).2.2 base origin := by
  obtain ⟨index, hi, ha⟩ := h.chains
  obtain ⟨manager, other, hm, hs, hfinal⟩ := hi.insert data (primary.recordId primary.tail)
  rcases insertNew_cases primary data disk with ⟨fault, _, _, hc, -⟩ | ⟨_, _, hc, hop⟩ <;>
    rw [hm] at hc <;> cases hc
  rw [hop]
  have hfiled : Filed { primary with manager } := h.keys
  have htail : (push data { primary with manager }).tail = primary.tail + 1 := tail_push _ data
  refine ⟨rfl, h.ofRewrites (hfiled.push data) hs hfinal ha
    ((rewrites_push primary data).of_log rfl rfl) (htail ▸ hf) fun group hg chain id => ?_⟩
  rw [IndexWrite.mark]
  by_cases hid : id = primary.recordId primary.tail
  · simp [hid, holds_next (ha group hg) hf]
  · simp [hid, Ne.symm hid]

theorem change (h : primary.Indexed disk base origin) {address : Nat} {data : KeyValue K V}
    (hat : primary.At address data) (change : V → V) {place : Nat}
    (hp : place = address ∨ place = primary.tail) (hf : place < UInt64.size)
    (ht : primary.tail ≤ UInt64.size) :
    (primary.updateOf address place data change).kind ≠ .insert ∧
    ∃ (manager : Manager (KeyValue K V)) (last : ChangeTracker (KeyValue K V)) (other : Disk),
      primary.manager.update (primary.updateOf address place data change) disk =
        (.ok (), manager, last, other) ∧
      ∀ after : Primary K V, after.manager = manager → after.Filed →
        primary.Rewrites after address place (some { data with value := change data.value }) →
        after.tail ≤ UInt64.size → after.Indexed other base origin := by
  obtain ⟨index, hi, ha⟩ := h.chains
  have hmem : ∀ group ∈ primary.manager.groups,
      group.id ∈ primary.manager.groups.map Group.id := fun _ hg => List.mem_map_of_mem hg
  obtain ⟨hkind, manager, last, other, hm, hs, hfinal⟩ :=
    hi.change (data, primary.recordId address)
      ({ data with value := change data.value }, primary.recordId place)
      (fun group hg => holds_stored (ha group.id (hmem group hg)) ht hat)
      (fun hn group hg chain => by
        rcases hp with rfl | rfl
        · exact (hn rfl).elim
        · exact holds_next (ha group.id (hmem group hg)) hf chain)
  refine ⟨hkind, manager, last, other, hm, ?_⟩
  rintro after rfl hfiled hr htail
  refine h.ofRewrites hfiled hs hfinal ha hr htail fun group _ chain id => ?_
  by_cases hid : id = primary.recordId place <;> by_cases hold : id = primary.recordId address <;>
    simp [hid, hold]

theorem changeInPlace (h : primary.Indexed disk base origin) {address : Nat}
    {data : KeyValue K V} (hat : primary.At address data) (change : V → V)
    (hf : primary.tail ≤ UInt64.size) :
    (primary.changeInPlace address change disk).1 = .ok (primary.recordId address) ∧
      (primary.changeInPlace address change disk).2.1.Indexed
        (primary.changeInPlace address change disk).2.2 base origin := by
  have hb := hat.bounds.2
  obtain ⟨hkind, manager, last, other, hm, hindexed⟩ :=
    h.change hat change (Or.inl rfl) (by omega) hf
  obtain ⟨_, _, _, _, hc, hop⟩ := changeInPlace_eq hat change disk
  simp only [Manager.upsert, if_neg hkind, hm] at hc
  cases hc
  rw [hop]
  have hfiled : Filed primary := h.keys
  exact ⟨rfl, hindexed _ rfl (hfiled.replace hat rfl) ((rewrites_setSlot hat _).of_log rfl rfl)
    ((tail_setSlot primary address _).symm ▸ hf)⟩

theorem changeByCopy (h : primary.Indexed disk base origin) {address : Nat}
    {data : KeyValue K V} (hat : primary.At address data) (change : V → V)
    (hf : primary.tail < UInt64.size) :
    (primary.changeByCopy address change disk).1 = .ok (primary.recordId primary.tail) ∧
      (primary.changeByCopy address change disk).2.1.Indexed
        (primary.changeByCopy address change disk).2.2 base origin := by
  obtain ⟨-, manager, last, other, hm, hindexed⟩ :=
    h.change hat change (Or.inr rfl) hf (Nat.le_of_lt hf)
  rcases changeByCopy_cases hat change disk with ⟨fault, _, _, _, hc, -⟩ | ⟨_, _, _, hc, hop⟩ <;>
    rw [hm] at hc <;> cases hc
  rw [hop]
  have hfiled : Filed { primary with manager } := h.keys
  refine ⟨rfl, hindexed _ rfl (hfiled.copy hat rfl) ((rewrites_copy hat _).of_log rfl rfl) ?_⟩
  rw [tail_setSlot, tail_push]
  exact hf

theorem delete (h : primary.Indexed disk base origin) (key : K)
    (hf : primary.tail ≤ UInt64.size) :
    (primary.delete key disk).2.1.Indexed (primary.delete key disk).2.2 base origin := by
  cases hk : primary.address? key with
  | none =>
    rw [Primary.delete, hk]
    exact h
  | some address =>
    obtain ⟨data, hat, hkey⟩ := h.keys key address hk
    obtain ⟨index, hi, ha⟩ := h.chains
    obtain ⟨hbefore, hcaptured⟩ := hi.beginUpdate data (primary.recordId address)
    obtain ⟨manager, last, other, hm, hs, hfinal⟩ := hi.delete hbefore hcaptured
    rcases delete_cases hk hat disk with ⟨fault, _, _, _, hc, -⟩ | ⟨_, _, _, hc, hop⟩ <;>
      rw [hm] at hc <;> cases hc
    rw [hop]
    have hfiled : Filed { primary with manager } := h.keys
    refine h.ofRewrites (hkey ▸ hfiled.remove hat) hs hfinal ha
      ((rewrites_setSlot hat none).of_log rfl rfl) ((tail_setSlot primary address none).symm ▸ hf)
      fun group hg chain id => ?_
    rw [IndexWrite.mark]
    by_cases hid : id = primary.recordId address
    · have hstored := holds_stored (ha group hg) hf hat chain
      by_cases hc : chain ∈ (keyOf (origin.schema group) data).chains
      · simp [hid, hc]
      · simp [hid, hc, hstored]
    · simp [hid, Ne.symm hid]

end Indexed

end Primary

end PredicateIndex
