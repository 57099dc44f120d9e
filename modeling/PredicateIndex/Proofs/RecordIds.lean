import PredicateIndex.Proofs.PrimaryRecords
import PredicateIndex.Proofs.RecordOrder

/-!
# Record ids over the life of a primary store

To its callers a primary store is a map from keys to values that gives the
record of each key an id. What the map holds and which ids there are follows
from the calls that came through, whatever manager and disk they met. Record,
key and id stay tied to each other, and an id that has lost its record is never
given to another one.
-/

set_option autoImplicit false

namespace PredicateIndex

namespace Primary

inductive Call (K V : Type) where
  | upsert (key : K) (value : V) (id : RecordId)
  | updateWith (key : K) (change : V → V) (id : Option RecordId)
  | delete (key : K) (found : Bool)
  | shiftReadOnly

variable {K V : Type}

namespace Call

def id? : Call K V → Option RecordId
  | .upsert _ _ id => some id
  | .updateWith _ _ id => id
  | .delete _ _ => none
  | .shiftReadOnly => none

def isShift : Call K V → Bool
  | .shiftReadOnly => true
  | _ => false

end Call

def issued (calls : List (Call K V)) : List RecordId := calls.filterMap Call.id?

def sinceShift (calls : List (Call K V)) : List (Call K V) :=
  calls.takeWhile fun call => !call.isShift

theorem mem_issued_cons {call : Call K V} {calls : List (Call K V)} {id : RecordId} :
    id ∈ issued (call :: calls) ↔ call.id? = some id ∨ id ∈ issued calls := by
  simp [issued]

theorem sinceShift_cons {call : Call K V} (h : call.isShift = false) (calls : List (Call K V)) :
    sinceShift (call :: calls) = call :: sinceShift calls := by
  rw [sinceShift, List.takeWhile_cons, h]
  rfl

section

variable [DecidableEq K]

def value? : List (Call K V) → K → Option V
  | [], _ => none
  | .upsert key value _ :: past, other => if other = key then some value else value? past other
  | .updateWith key change _ :: past, other =>
    if other = key then (value? past key).map change else value? past other
  | .delete key _ :: past, other => if other = key then none else value? past other
  | .shiftReadOnly :: past, other => value? past other

inductive History (start : Primary K V) : List (Call K V) → Primary K V → Prop
  | start : History start [] start
  | manage {calls : List (Call K V)} {primary : Primary K V} (h : History start calls primary)
    (manager : Manager (KeyValue K V)) : History start calls { primary with manager }
  | upsert {calls : List (Call K V)} {primary : Primary K V} (h : History start calls primary)
    {key : K} {value : V} {disk : Disk} {id : RecordId}
    (hok : (primary.upsert key value disk).1 = .ok id) :
    History start (.upsert key value id :: calls) (primary.upsert key value disk).2.1
  | updateWith {calls : List (Call K V)} {primary : Primary K V} (h : History start calls primary)
    {key : K} {change : V → V} {disk : Disk} {id : Option RecordId}
    (hok : (primary.updateWith key change disk).1 = .ok id) :
    History start (.updateWith key change id :: calls) (primary.updateWith key change disk).2.1
  | delete {calls : List (Call K V)} {primary : Primary K V} (h : History start calls primary)
    {key : K} {disk : Disk} {found : Bool} (hok : (primary.delete key disk).1 = .ok found) :
    History start (.delete key found :: calls) (primary.delete key disk).2.1
  | shiftReadOnly {calls : List (Call K V)} {primary : Primary K V}
    (h : History start calls primary) :
    History start (.shiftReadOnly :: calls) primary.shiftReadOnly

end

structure Grows (primary after : Primary K V) : Prop where
  version : after.version = primary.version
  tail : primary.tail ≤ after.tail
  gone : ∀ address, primary.slot address = .ok none → after.slot address = .ok none

namespace Grows

variable {primary after last : Primary K V}

theorem refl (primary : Primary K V) : Grows primary primary :=
  ⟨rfl, Nat.le_refl _, fun _ h => h⟩

theorem trans (h : Grows primary after) (ha : Grows after last) : Grows primary last :=
  ⟨ha.version.trans h.version, Nat.le_trans h.tail ha.tail,
    fun address hn => ha.gone address (h.gone address hn)⟩

end Grows

theorem slot_of_lt_tail {primary : Primary K V} {address : Nat} (hp : 0 < address)
    (ht : address < primary.tail) : ∃ found, primary.slot address = .ok found := by
  obtain ⟨n, rfl⟩ := Nat.exists_eq_add_of_lt hp
  rw [tail] at ht
  rw [Nat.zero_add] at ht ⊢
  rw [slot_succ, List.getElem?_eq_getElem (Nat.lt_of_succ_lt_succ ht)]
  exact ⟨_, rfl⟩

theorem grows_setSlot {primary : Primary K V} {address : Nat} {data : KeyValue K V}
    (hat : primary.At address data) (new : Option (KeyValue K V)) :
    Grows primary (primary.setSlot address new) where
  version := rfl
  tail := Nat.le_of_eq (tail_setSlot primary address new).symm
  gone place hn := by
    have hne : place ≠ address := by
      rintro rfl
      rw [hat] at hn
      cases hn
    rw [slot_setSlot hat, if_neg hne, hn]

variable [DecidableEq K]

theorem grows_push (primary : Primary K V) (data : KeyValue K V) :
    Grows primary (push data primary) where
  version := rfl
  tail := by
    rw [tail_push]
    exact Nat.le_succ _
  gone place hn := by rw [slot_push, if_neg (Nat.ne_of_lt (slot_bounds hn).2), hn]

/-! ### What a call does to the records -/

section

variable {primary : Primary K V} {disk : Disk} {address : Nat} {data : KeyValue K V} {id : RecordId}

theorem insertNew_ok (h : (primary.insertNew data disk).1 = .ok id) :
    id = primary.recordId primary.tail ∧
      ∃ manager, (primary.insertNew data disk).2.1 = { push data primary with manager } := by
  rcases insertNew_cases primary data disk with
    ⟨fault, manager, other, -, hop⟩ | ⟨manager, other, -, hop⟩ <;> rw [hop] at h ⊢ <;> cases h
  exact ⟨rfl, manager, rfl⟩

omit [DecidableEq K] in
theorem changeInPlace_replaces (hat : primary.At address data) {change : V → V}
    (h : (primary.changeInPlace address change disk).1 = .ok id) :
    id = primary.recordId address ∧ ∃ manager, (primary.changeInPlace address change disk).2.1 =
      { primary.setSlot address (some ⟨data.key, change data.value⟩) with manager } := by
  obtain ⟨result, manager, last, other, -, hop⟩ := changeInPlace_eq hat change disk
  rw [hop] at h ⊢
  cases result with
  | error fault => cases h
  | ok =>
    cases h
    exact ⟨rfl, manager, rfl⟩

theorem changeByCopy_moves (hat : primary.At address data) {change : V → V}
    (h : (primary.changeByCopy address change disk).1 = .ok id) :
    id = primary.recordId primary.tail ∧
      ∃ manager, (primary.changeByCopy address change disk).2.1 =
        { (push ⟨data.key, change data.value⟩ primary).setSlot address none with manager } := by
  rcases changeByCopy_cases hat change disk with
    ⟨fault, manager, last, other, -, hop⟩ | ⟨manager, last, other, -, hop⟩ <;>
    rw [hop] at h ⊢ <;> cases h
  exact ⟨rfl, manager, rfl⟩

theorem delete_removes {key : K} {found : Bool} (hk : primary.address? key = some address)
    (hat : primary.At address data) (h : (primary.delete key disk).1 = .ok found) :
    ∃ manager, (primary.delete key disk).2.1 = { primary.setSlot address none with
      index := primary.index.filter fun entry => entry.1 ≠ key
      manager } := by
  rcases delete_cases hk hat disk with
    ⟨fault, manager, last, other, -, hop⟩ | ⟨manager, last, other, -, hop⟩ <;>
    rw [hop] at h ⊢ <;> cases h
  exact ⟨manager, rfl⟩

end

def Spans (primary : Primary K V) (first : Nat) (id : RecordId) : Prop :=
  ∃ address, first ≤ address ∧ address < primary.tail ∧ id = primary.recordId address

theorem spans_push {primary : Primary K V} {first : Nat} (hf : first ≤ primary.tail)
    (data : KeyValue K V) (id : RecordId) :
    (push data primary).Spans first id ↔
      id = primary.recordId primary.tail ∨ primary.Spans first id := by
  rw [Spans, tail_push]
  constructor
  · rintro ⟨address, hp, ht, he⟩
    rcases Nat.lt_succ_iff_lt_or_eq.mp ht with ht | rfl
    · exact Or.inr ⟨address, hp, ht, he⟩
    · exact Or.inl he
  · rintro (he | ⟨address, hp, ht, he⟩)
    · exact ⟨primary.tail, hf, Nat.lt_succ_self _, he⟩
    · exact ⟨address, hp, Nat.lt_succ_of_lt ht, he⟩

omit [DecidableEq K] in
theorem spans_setSlot (primary : Primary K V) (address : Nat) (new : Option (KeyValue K V))
    (first : Nat) (id : RecordId) :
    (primary.setSlot address new).Spans first id ↔ primary.Spans first id := by
  rw [Spans, tail_setSlot]
  exact Iff.rfl

omit [DecidableEq K] in
theorem not_spans_tail (primary : Primary K V) (id : RecordId) :
    ¬ primary.Spans primary.tail id := by
  rintro ⟨address, hp, ht, -⟩
  exact absurd ht (Nat.not_lt_of_le hp)

/-- The records are those of the map that the calls make, each at the address of its key, and
the ids answered so far are those of the addresses given out. -/
structure Kept (primary : Primary K V) (calls : List (Call K V)) : Prop where
  readOnly : 0 < primary.readOnly ∧ primary.readOnly ≤ primary.tail
  known : ∀ key, (primary.address? key).isSome ↔ (value? calls key).isSome
  records : ∀ address data, primary.At address data ↔
    primary.address? data.key = some address ∧ value? calls data.key = some data.value
  issued : ∀ id, id ∈ issued calls ↔ primary.Spans 1 id
  recent : ∀ id, id ∈ Primary.issued (sinceShift calls) ↔ primary.Spans primary.readOnly id

structure Call.Sets (call : Call K V) (calls : List (Call K V)) (key : K) (value : Option V) :
    Prop where
  plain : call.isShift = false
  value : ∀ other, value? (call :: calls) other = if other = key then value else value? calls other

structure Call.Idle (call : Call K V) (calls : List (Call K V)) : Prop where
  plain : call.isShift = false
  id : call.id? = none
  value : ∀ other, value? (call :: calls) other = value? calls other

namespace Kept

variable {primary : Primary K V} {calls : List (Call K V)} {call : Call K V} {address : Nat}
  {key : K} {old value : V}

theorem ofManager (manager : Manager (KeyValue K V)) : Kept (Primary.ofManager manager) [] where
  readOnly := ⟨Nat.one_pos, Nat.le_refl 1⟩
  known _ := Iff.rfl
  records address data := by
    refine iff_of_false (fun h => ?_) fun h => nomatch h.1
    have hb : 0 < address ∧ address < 1 := h.bounds
    omega
  issued id := iff_of_false List.not_mem_nil (not_spans_tail _ id)
  recent id := iff_of_false List.not_mem_nil (not_spans_tail _ id)

theorem manage (h : primary.Kept calls) (manager : Manager (KeyValue K V)) :
    Kept { primary with manager } calls :=
  ⟨h.readOnly, h.known, h.records, h.issued, h.recent⟩

theorem shiftReadOnly (h : primary.Kept calls) :
    Kept primary.shiftReadOnly (.shiftReadOnly :: calls) where
  readOnly := ⟨Nat.succ_pos _, Nat.le_refl _⟩
  known := h.known
  records := h.records
  issued := h.issued
  recent id := iff_of_false List.not_mem_nil (not_spans_tail primary id)

theorem idle (h : primary.Kept calls) (hc : call.Idle calls) : Kept primary (call :: calls) where
  readOnly := h.readOnly
  known key := by rw [hc.value, h.known]
  records address data := by rw [hc.value, h.records]
  issued id := by
    rw [mem_issued_cons, hc.id, h.issued]
    simp
  recent id := by
    rw [sinceShift_cons hc.plain, mem_issued_cons, hc.id, h.recent]
    simp

theorem found (h : primary.Kept calls) (hk : primary.address? key = some address) :
    ∃ value, primary.At address ⟨key, value⟩ ∧ value? calls key = some value := by
  obtain ⟨value, hv⟩ := Option.isSome_iff_exists.mp ((h.known key).mp (by rw [hk]; rfl))
  exact ⟨value, (h.records address ⟨key, value⟩).mpr ⟨hk, hv⟩, hv⟩

theorem value_none (h : primary.Kept calls) (hk : primary.address? key = none) :
    value? calls key = none := by
  rw [← Option.not_isSome_iff_eq_none, ← h.known, hk]
  simp

theorem only (h : primary.Kept calls) {place : Nat} {data : KeyValue K V}
    (hat : primary.At place data) : primary.address? data.key = some place :=
  ((h.records place data).mp hat).1

theorem place_iff (h : primary.Kept calls) (hk : primary.address? key = some address) {place : Nat}
    {data : KeyValue K V} (hat : primary.At place data) : place = address ↔ data.key = key := by
  constructor
  · rintro rfl
    obtain ⟨value, hfound, -⟩ := h.found hk
    rw [hat.unique hfound]
  · rintro rfl
    exact Option.some.inj ((h.only hat).symm.trans hk)

end Kept

structure Puts (primary after : Primary K V) (key : K) (entry : Option (Nat × V)) : Prop where
  address : ∀ other, after.address? other =
    if other = key then entry.map Prod.fst else primary.address? other
  records : ∀ place data, after.At place data ↔
    if data.key = key then entry = some (place, data.value) else primary.At place data

def Answers (primary after : Primary K V) (call : Call K V) (first : Nat) : Prop :=
  ∀ id, after.Spans first id ↔ call.id? = some id ∨ primary.Spans first id

section

variable {primary after : Primary K V} {calls : List (Call K V)} {call : Call K V} {address : Nat}
  {key : K} {value : V} {entry : Option (Nat × V)}

theorem Kept.put (h : primary.Kept calls) (hp : Puts primary after key entry)
    (hs : call.Sets calls key (entry.map Prod.snd)) (hr : after.readOnly = primary.readOnly)
    (ht : primary.tail ≤ after.tail) (hall : Answers primary after call 1)
    (hrecent : Answers primary after call primary.readOnly) : Kept after (call :: calls) where
  readOnly := by
    rw [hr]
    exact ⟨h.readOnly.1, Nat.le_trans h.readOnly.2 ht⟩
  known other := by
    rw [hp.address, hs.value]
    by_cases ho : other = key
    · rw [if_pos ho, if_pos ho, Option.isSome_map, Option.isSome_map]
    · rw [if_neg ho, if_neg ho, h.known]
  records place data := by
    rw [hp.records, hp.address, hs.value]
    by_cases hd : data.key = key
    · rw [if_pos hd, if_pos hd, if_pos hd]
      cases entry <;> simp [Prod.ext_iff]
    · rw [if_neg hd, if_neg hd, if_neg hd, h.records]
  issued id := by rw [mem_issued_cons, h.issued, hall]
  recent id := by rw [sinceShift_cons hs.plain, mem_issued_cons, h.recent, hr, hrecent]

theorem puts_push (h : primary.Kept calls) (hk : primary.address? key = none) :
    Puts primary (push ⟨key, value⟩ primary) key (some (primary.tail, value)) where
  address other := by rw [address?_push]; rfl
  records place data := by
    rw [at_push]
    have hout : primary.At place data → place ≠ primary.tail ∧ data.key ≠ key := fun hat =>
      ⟨Nat.ne_of_lt hat.bounds.2, fun hd => by rw [← hd, h.only hat] at hk; cases hk⟩
    obtain ⟨dkey, found⟩ := data
    by_cases hplace : place = primary.tail <;> by_cases hd : dkey = key <;> simp_all [eq_comm]

theorem puts_replace (h : primary.Kept calls) (hk : primary.address? key = some address) :
    Puts primary (primary.setSlot address (some ⟨key, value⟩)) key (some (address, value)) where
  address other := by
    by_cases ho : other = key
    · rw [if_pos ho, ho]
      exact hk
    · rw [if_neg ho]
      rfl
  records place data := by
    obtain ⟨old, hat, -⟩ := h.found hk
    rw [at_setSlot hat]
    have hout := fun hfound : primary.At place data => h.place_iff hk hfound
    obtain ⟨dkey, found⟩ := data
    by_cases hplace : place = address <;> by_cases hd : dkey = key <;> simp_all [eq_comm]

theorem puts_move (h : primary.Kept calls) (hk : primary.address? key = some address) :
    Puts primary ((push ⟨key, value⟩ primary).setSlot address none) key
      (some (primary.tail, value)) where
  address other := (address?_push primary ⟨key, value⟩ other).trans rfl
  records place data := by
    obtain ⟨old, hat, -⟩ := h.found hk
    rw [at_setSlot (hat.push _), at_push]
    have hne : primary.tail ≠ address := Nat.ne_of_gt hat.bounds.2
    have hout := fun hfound : primary.At place data => h.place_iff hk hfound
    have htail : primary.At place data → place ≠ primary.tail := fun hfound =>
      Nat.ne_of_lt hfound.bounds.2
    obtain ⟨dkey, found⟩ := data
    by_cases hplace : place = address <;> by_cases hd : dkey = key <;>
      by_cases ht : place = primary.tail <;> simp_all [eq_comm]

theorem puts_remove (h : primary.Kept calls) (hk : primary.address? key = some address) :
    Puts primary { primary.setSlot address none with
      index := primary.index.filter fun entry => entry.1 ≠ key } key none where
  address other := by
    have hfilter := Lookup.filter_eq primary.index (fun k => decide (k ≠ key)) other
    simp only [decide_eq_true_eq] at hfilter
    rw [address?]
    by_cases ho : other = key
    · rw [if_pos ho]
      rwa [if_neg (fun hc => hc ho)] at hfilter
    · rw [if_neg ho]
      rwa [if_pos ho] at hfilter
  records place data := by
    show (primary.setSlot address none).At place data ↔ _
    obtain ⟨old, hat, -⟩ := h.found hk
    rw [at_setSlot hat]
    have hout := fun hfound : primary.At place data => h.place_iff hk hfound
    by_cases hplace : place = address <;> by_cases hd : data.key = key <;> simp_all [eq_comm]

theorem answers_push {first : Nat} (hf : first ≤ primary.tail) (data : KeyValue K V)
    (hid : call.id? = some (primary.recordId primary.tail)) :
    Answers primary (push data primary) call first := by
  intro id
  rw [spans_push hf, hid, Option.some.injEq, eq_comm]

omit [DecidableEq K] in
theorem answers_again {first : Nat} (hid : ∀ id, call.id? = some id → primary.Spans first id) :
    Answers primary primary call first :=
  fun id => ⟨Or.inr, fun h => h.elim (hid id) fun hs => hs⟩

omit [DecidableEq K] in
theorem Answers.setSlot {first : Nat} (h : Answers primary after call first) (address : Nat)
    (new : Option (KeyValue K V)) : Answers primary (after.setSlot address new) call first :=
  fun id => (spans_setSlot after address new first id).trans (h id)

end

/-! ### Each call keeps the records -/

namespace Kept

variable {primary : Primary K V} {calls : List (Call K V)} {call : Call K V} {address : Nat}
  {key : K} {value : V} {disk : Disk} {id : RecordId}

theorem insertNew (h : primary.Kept calls) (hk : primary.address? key = none)
    (hs : call.Sets calls key (some value)) (hid : call.id? = some id)
    (hok : (primary.insertNew ⟨key, value⟩ disk).1 = .ok id) :
    Kept (primary.insertNew ⟨key, value⟩ disk).2.1 (call :: calls) ∧
      Grows primary (primary.insertNew ⟨key, value⟩ disk).2.1 := by
  obtain ⟨rfl, manager, hafter⟩ := insertNew_ok hok
  have hg := grows_push primary ⟨key, value⟩
  rw [hafter]
  exact ⟨(h.put (puts_push h hk) hs rfl hg.tail (answers_push (Nat.succ_pos _) _ hid)
    (answers_push h.readOnly.2 _ hid)).manage manager, hg.version, hg.tail, hg.gone⟩

theorem changeRecord (h : primary.Kept calls) (hk : primary.address? key = some address)
    {old : V} {change : V → V} (hat : primary.At address ⟨key, old⟩)
    (hs : call.Sets calls key (some (change old))) (hid : call.id? = some id)
    (hok : (primary.changeRecord address change disk).1 = .ok id) :
    Kept (primary.changeRecord address change disk).2.1 (call :: calls) ∧
      Grows primary (primary.changeRecord address change disk).2.1 := by
  rw [Primary.changeRecord] at hok ⊢
  by_cases hnew : primary.readOnly ≤ address
  · rw [if_pos hnew] at hok ⊢
    obtain ⟨rfl, manager, hafter⟩ := changeInPlace_replaces hat hok
    have hg := grows_setSlot hat (some ⟨key, change old⟩)
    have hspan : ∀ first, first ≤ address → ∀ other, call.id? = some other →
        primary.Spans first other := by
      intro first hf other ho
      exact ⟨address, hf, hat.bounds.2, Option.some.inj (ho.symm.trans hid)⟩
    rw [hafter]
    exact ⟨(h.put (puts_replace h hk) hs rfl hg.tail
      ((answers_again (hspan 1 hat.bounds.1)).setSlot _ _)
      ((answers_again (hspan _ hnew)).setSlot _ _)).manage manager, hg.version, hg.tail, hg.gone⟩
  · rw [if_neg hnew] at hok ⊢
    obtain ⟨rfl, manager, hafter⟩ := changeByCopy_moves hat hok
    have hg := (grows_push primary ⟨key, change old⟩).trans (grows_setSlot (hat.push _) none)
    rw [hafter]
    exact ⟨(h.put (puts_move h hk) hs rfl hg.tail
      ((answers_push (Nat.succ_pos _) _ hid).setSlot _ _)
      ((answers_push h.readOnly.2 _ hid).setSlot _ _)).manage manager, hg.version, hg.tail, hg.gone⟩

theorem upsert (h : primary.Kept calls) (hok : (primary.upsert key value disk).1 = .ok id) :
    Kept (primary.upsert key value disk).2.1 (.upsert key value id :: calls) ∧
      Grows primary (primary.upsert key value disk).2.1 := by
  have hs : Call.Sets (.upsert key value id) calls key (some value) := ⟨rfl, fun _ => rfl⟩
  rw [Primary.upsert] at hok ⊢
  cases hk : primary.address? key with
  | none =>
    rw [hk] at hok
    exact h.insertNew hk hs rfl hok
  | some address =>
    rw [hk] at hok
    obtain ⟨old, hat, -⟩ := h.found hk
    exact h.changeRecord hk hat hs rfl hok

theorem updateWith (h : primary.Kept calls) {change : V → V} {found : Option RecordId}
    (hok : (primary.updateWith key change disk).1 = .ok found) :
    Kept (primary.updateWith key change disk).2.1 (.updateWith key change found :: calls) ∧
      Grows primary (primary.updateWith key change disk).2.1 := by
  rw [Primary.updateWith] at hok ⊢
  cases hk : primary.address? key with
  | none =>
    rw [hk] at hok
    obtain rfl : none = found := Except.ok.inj hok
    refine ⟨h.idle ⟨rfl, rfl, fun other => ?_⟩, .refl primary⟩
    by_cases ho : other = key <;> simp [value?, ho, h.value_none hk]
  | some address =>
    rw [hk] at hok
    obtain ⟨old, hat, hv⟩ := h.found hk
    obtain ⟨id, hid, rfl⟩ : ∃ id, (primary.changeRecord address change disk).1 = .ok id ∧
        some id = found := by
      rcases hc : primary.changeRecord address change disk with ⟨fault | id, after, last⟩ <;>
        simp only [hc] at hok <;> cases hok
      exact ⟨id, rfl, rfl⟩
    refine h.changeRecord hk hat ⟨rfl, fun other => ?_⟩ rfl hid
    rw [value?, hv]
    rfl

theorem delete (h : primary.Kept calls) {found : Bool}
    (hok : (primary.delete key disk).1 = .ok found) :
    Kept (primary.delete key disk).2.1 (.delete key found :: calls) ∧
      Grows primary (primary.delete key disk).2.1 := by
  have hs : Call.Sets (.delete key found) calls key none := ⟨rfl, fun _ => rfl⟩
  cases hk : primary.address? key with
  | none =>
    have hsame : (primary.delete key disk).2.1 = primary := by rw [Primary.delete, hk]
    rw [hsame]
    refine ⟨h.idle ⟨rfl, rfl, fun other => ?_⟩, .refl primary⟩
    by_cases ho : other = key <;> simp [value?, ho, h.value_none hk]
  | some address =>
    obtain ⟨old, hat, -⟩ := h.found hk
    obtain ⟨manager, hafter⟩ := delete_removes hk hat hok
    have hg := grows_setSlot hat none
    have hnone : ∀ first, Answers primary primary (.delete key found : Call K V) first :=
      fun first => answers_again fun id hid => by cases hid
    rw [hafter]
    exact ⟨(h.put (puts_remove h hk) hs rfl hg.tail ((hnone 1).setSlot address none)
      ((hnone _).setSlot address none)).manage manager, hg.version, hg.tail, hg.gone⟩

end Kept

/-- Every call keeps the records those of the map, and takes no address back. -/
theorem History.kept {start primary : Primary K V} {past calls : List (Call K V)}
    (hp : start.Kept past) (h : History start calls primary) :
    primary.Kept (calls ++ past) ∧ Grows start primary := by
  induction h with
  | start => exact ⟨hp, .refl start⟩
  | manage h manager ih => exact ⟨ih.1.manage manager, ih.2.version, ih.2.tail, ih.2.gone⟩
  | upsert h hok ih => exact ⟨(ih.1.upsert hok).1, ih.2.trans (ih.1.upsert hok).2⟩
  | updateWith h hok ih => exact ⟨(ih.1.updateWith hok).1, ih.2.trans (ih.1.updateWith hok).2⟩
  | delete h hok ih => exact ⟨(ih.1.delete hok).1, ih.2.trans (ih.1.delete hok).2⟩
  | shiftReadOnly h ih => exact ⟨ih.1.shiftReadOnly, ih.2.version, ih.2.tail, ih.2.gone⟩

section

variable {primary after : Primary K V} {calls : List (Call K V)} {key : K} {value : V}
  {id : RecordId}

omit [DecidableEq K] in
theorem at_of_read {data : KeyValue K V} (h : primary.read id = .ok (some data)) :
    primary.At id.address.toNat data ∧ id = primary.recordId id.address.toNat := by
  rw [read] at h
  split at h
  · cases h
  · rename_i hin
    obtain ⟨hv, -⟩ := not_or.mp hin
    refine ⟨h, ?_⟩
    rw [recordId, UInt64.ofNat_toNat, ← Decidable.not_not.mp hv]

theorem get_of_missing (hk : primary.address? key = none) : primary.get key = .ok none := by
  rw [get, hk]

omit [DecidableEq K] in
/-- The next id is greater than all that were given out. -/
theorem lt_next {other : RecordId} (h : primary.Spans 1 other) (hf : primary.tail < UInt64.size) :
    other < primary.recordId primary.tail := by
  obtain ⟨address, -, ht, rfl⟩ := h
  refine (RecordId.lt_def _ _).mpr (Or.inl ?_)
  rw [UInt64.lt_iff_toNat_lt, recordId, recordId, UInt64.toNat_ofNat_of_lt' hf,
    UInt64.toNat_ofNat_of_lt' (Nat.lt_trans ht hf)]
  exact ht

/-- The id of a key's record stays if the record was written since the last shift; otherwise the
record gets one that is greater than all before. -/
def Continues (primary : Primary K V) (calls : List (Call K V)) (key : K) (id : RecordId) : Prop :=
  (∀ old value, primary.get key = .ok (some (old, value)) → old ∈ issued (sinceShift calls) →
    id = old) ∧
  ((∀ old value, primary.get key = .ok (some (old, value)) → old ∉ issued (sinceShift calls)) →
    ∀ other ∈ issued calls, other < id)

namespace Kept

theorem get_value (h : primary.Kept calls) (key : K) :
    ∃ found, primary.get key = .ok found ∧ found.map Prod.snd = value? calls key := by
  cases hk : primary.address? key with
  | none =>
    exact ⟨none, get_of_missing hk, (h.value_none hk).symm⟩
  | some address =>
    obtain ⟨value, hat, hv⟩ := h.found hk
    exact ⟨_, get_of_at hk hat, hv.symm⟩

theorem get_iff_read (h : primary.Kept calls) (hf : primary.tail < UInt64.size) :
    primary.get key = .ok (some (id, value)) ↔ primary.read id = .ok (some ⟨key, value⟩) := by
  constructor
  · intro hget
    cases hk : primary.address? key with
    | none =>
      rw [get_of_missing hk] at hget
      cases hget
    | some address =>
      obtain ⟨found, hat, -⟩ := h.found hk
      rw [get_of_at hk hat] at hget
      cases hget
      rw [read_recordId hat.bounds.2 hf]
      exact hat
  · intro hread
    obtain ⟨hat, hid⟩ := at_of_read hread
    rw [hid]
    exact get_of_at (h.only hat) hat

theorem continues_insertNew (h : primary.Kept calls) (hk : primary.address? key = none)
    (hf : primary.tail < UInt64.size) :
    Continues primary calls key (primary.recordId primary.tail) := by
  refine ⟨fun old value hget => ?_, fun _ other ho => lt_next ((h.issued other).mp ho) hf⟩
  rw [get_of_missing hk] at hget
  cases hget

theorem continues_changeRecord (h : primary.Kept calls) {address : Nat}
    (hk : primary.address? key = some address) (hf : primary.tail < UInt64.size) {change : V → V}
    {disk : Disk} (hok : (primary.changeRecord address change disk).1 = .ok id) :
    Continues primary calls key id := by
  obtain ⟨old, hat, -⟩ := h.found hk
  have hget := get_of_at hk hat
  have hrecent : primary.recordId address ∈ Primary.issued (sinceShift calls) ↔
      primary.readOnly ≤ address := by
    rw [h.recent]
    constructor
    · rintro ⟨place, hp, ht, he⟩
      rwa [recordId_inj (Nat.le_of_lt hf) hat.bounds.2 ht he]
    · exact fun hp => ⟨address, hp, hat.bounds.2, rfl⟩
  rw [Primary.changeRecord] at hok
  by_cases hnew : primary.readOnly ≤ address
  · rw [if_pos hnew] at hok
    obtain ⟨rfl, -⟩ := changeInPlace_replaces hat hok
    refine ⟨fun found value hfound _ => ?_, fun hnone => ?_⟩
    · rw [hget] at hfound
      cases hfound
      rfl
    · exact absurd (hrecent.mpr hnew) (hnone _ _ hget)
  · rw [if_neg hnew] at hok
    obtain ⟨rfl, -⟩ := changeByCopy_moves hat hok
    refine ⟨fun found value hfound hin => ?_, fun _ other ho => lt_next ((h.issued other).mp ho) hf⟩
    rw [hget] at hfound
    cases hfound
    exact absurd (hrecent.mp hin) hnew

theorem continues_upsert (h : primary.Kept calls) (hf : primary.tail < UInt64.size) {disk : Disk}
    (hok : (primary.upsert key value disk).1 = .ok id) : Continues primary calls key id := by
  rw [Primary.upsert] at hok
  cases hk : primary.address? key with
  | none =>
    rw [hk] at hok
    obtain ⟨rfl, -⟩ := insertNew_ok hok
    exact h.continues_insertNew hk hf
  | some address =>
    rw [hk] at hok
    exact h.continues_changeRecord hk hf hok

theorem continues_updateWith (h : primary.Kept calls) (hf : primary.tail < UInt64.size)
    {disk : Disk} {change : V → V} (hok : (primary.updateWith key change disk).1 = .ok (some id)) :
    Continues primary calls key id := by
  rw [Primary.updateWith] at hok
  cases hk : primary.address? key with
  | none =>
    rw [hk] at hok
    cases hok
  | some address =>
    rw [hk] at hok
    have hchange : (primary.changeRecord address change disk).1 = .ok id := by
      rcases hc : primary.changeRecord address change disk with ⟨fault | found, after, last⟩ <;>
        simp only [hc] at hok <;> cases hok
      rfl
    exact h.continues_changeRecord hk hf hchange

theorem issued_of_read (h : primary.Kept calls) {data : KeyValue K V}
    (hread : primary.read id = .ok (some data)) : id ∈ Primary.issued calls := by
  obtain ⟨hat, hid⟩ := at_of_read hread
  exact (h.issued id).mpr ⟨_, hat.bounds.1, hat.bounds.2, hid⟩

/-- An id whose record is gone leads to none ever after. -/
theorem read_gone (h : primary.Kept calls) (hi : id ∈ Primary.issued calls)
    (hread : ¬ ∃ data, primary.read id = .ok (some data)) (hg : Grows primary after)
    (hf : after.tail < UInt64.size) : after.read id = .ok none := by
  obtain ⟨address, hp, ht, rfl⟩ := (h.issued id).mp hi
  obtain ⟨found, hs⟩ := slot_of_lt_tail hp ht
  rw [read_recordId ht (Nat.lt_of_le_of_lt hg.tail hf), hs] at hread
  cases found with
  | some data => exact absurd ⟨data, rfl⟩ hread
  | none =>
    have hsame : primary.recordId address = after.recordId address := by
      rw [recordId, recordId, hg.version]
    rw [hsame, read_recordId (Nat.lt_of_lt_of_le ht hg.tail) hf, hg.gone address hs]

end Kept

end

/-- Whatever calls a primary store has come through, it holds just what the map holds that they
make, key and id of every record lead to each other, a change keeps the id of a record written
since the last shift and gives any other one an id greater than all before, and an id that leads
to no record any more never leads to one again. -/
theorem records_of_history {manager : Manager (KeyValue K V)} {calls : List (Call K V)}
    {primary : Primary K V} (h : History (ofManager manager) calls primary)
    (hf : primary.tail < UInt64.size) :
    (∀ key, ∃ found, primary.get key = .ok found ∧ found.map Prod.snd = value? calls key) ∧
    (∀ key value id, primary.get key = .ok (some (id, value)) ↔
      primary.read id = .ok (some ⟨key, value⟩)) ∧
    (∀ key value disk id, (primary.upsert key value disk).1 = .ok id →
      Continues primary calls key id) ∧
    (∀ key change disk id, (primary.updateWith key change disk).1 = .ok (some id) →
      Continues primary calls key id) ∧
    (∀ id data, primary.read id = .ok (some data) → id ∈ issued calls) ∧
    ∀ id ∈ issued calls, (¬ ∃ data, primary.read id = .ok (some data)) →
      ∀ later after, History primary later after → after.tail < UInt64.size →
        after.read id = .ok none := by
  have hk : primary.Kept calls := by
    have hkept := (h.kept (Kept.ofManager manager)).1
    rwa [List.append_nil] at hkept
  refine ⟨hk.get_value, fun key value id => hk.get_iff_read hf,
    fun key value disk id => hk.continues_upsert hf,
    fun key change disk id => hk.continues_updateWith hf, fun id data => hk.issued_of_read, ?_⟩
  intro id hi hread later after hlater hafter
  exact hk.read_gone hi hread (hlater.kept hk).2 hafter

def watched : Manager (KeyValue Nat Nat) × Disk :=
  (({ config := { dir := ["db"] }, identity := 0 } : Manager (KeyValue Nat Nat)).register .bool
    [("even", fun data => some (data.value % 2 == 0))] (Disk.createDirs {} ["db"]).2).2

def stored : Except Fault RecordId × Primary Nat Nat × Disk :=
  (ofManager watched.1).upsert 1 10 watched.2

def moved : Except Fault (Option RecordId) × Primary Nat Nat × Disk :=
  stored.2.1.shiftReadOnly.updateWith 1 (· + 1) stored.2.2

def deleted : Except Fault Bool × Primary Nat Nat × Disk := moved.2.1.delete 1 moved.2.2

def storedAgain : Except Fault RecordId × Primary Nat Nat × Disk :=
  deleted.2.1.upsert 1 5 deleted.2.2

def callsAgain : List (Call Nat Nat) :=
  [.upsert 1 5 ⟨3, 1⟩, .delete 1 true, .updateWith 1 (· + 1) (some ⟨2, 1⟩), .shiftReadOnly,
    .upsert 1 10 ⟨1, 1⟩]

theorem history_storedAgain : History (ofManager watched.1) callsAgain storedAgain.2.1 := by
  have hok : ∀ {ε α : Type} {result : Except ε α} {value : α}, result.toOption = some value →
      result = .ok value := by
    rintro ε α (fault | found) value h <;> cases h
    rfl
  have hstored : stored.1 = .ok ⟨1, 1⟩ := hok (by decide +kernel)
  have hmoved : moved.1 = .ok (some ⟨2, 1⟩) := hok (by decide +kernel)
  have hdeleted : deleted.1 = .ok true := hok (by decide +kernel)
  have hagain : storedAgain.1 = .ok ⟨3, 1⟩ := hok (by decide +kernel)
  have hfirst : History (ofManager watched.1) (callsAgain.drop 4) stored.2.1 := by
    unfold stored at hstored ⊢
    exact History.start.upsert hstored
  have hsecond : History (ofManager watched.1) (callsAgain.drop 2) moved.2.1 := by
    unfold moved at hmoved ⊢
    exact hfirst.shiftReadOnly.updateWith hmoved
  have hthird : History (ofManager watched.1) (callsAgain.drop 1) deleted.2.1 := by
    unfold deleted at hdeleted ⊢
    exact hsecond.delete hdeleted
  unfold storedAgain at hagain ⊢
  exact hthird.upsert hagain

/-- The ids of the record that was moved and of its copy, which was deleted, lead nowhere. -/
theorem records_of_storedAgain :
    History (ofManager watched.1) callsAgain storedAgain.2.1 ∧
      storedAgain.2.1.tail < UInt64.size ∧
      issued callsAgain = [⟨3, 1⟩, ⟨2, 1⟩, ⟨1, 1⟩] ∧
      (∃ found, storedAgain.2.1.get 1 = .ok found ∧ found.map Prod.snd = some 5) ∧
      ∀ id ∈ issued callsAgain, (¬ ∃ data, storedAgain.2.1.read id = .ok (some data)) →
        ∀ later after, History storedAgain.2.1 later after → after.tail < UInt64.size →
          after.read id = .ok none :=
  have hf : storedAgain.2.1.tail < UInt64.size := by decide +kernel
  have hrecords := records_of_history history_storedAgain hf
  ⟨history_storedAgain, hf, rfl, hrecords.1 1, hrecords.2.2.2.2.2⟩

end Primary

end PredicateIndex
