import PredicateIndex.Proofs.PrimaryIndex

/-!
# Running a primary store

A run takes operations on records and operations of the manager in any order.
Addresses only grow, and every state of the run agrees with its indexes.
-/

set_option autoImplicit false

namespace PredicateIndex

namespace Primary

inductive Op (K V : Type) where
  | upsert (key : K) (value : V)
  | updateWith (key : K) (change : V → V)
  | delete (key : K)
  | shiftReadOnly
  | flush
  | evict
  | takeCheckpoint (kind : CheckpointKind) (clock : UInt64)
  | completeCheckpoint
  | readChain (source : ChainSource) (key : Bytes)

variable {K V : Type} [DecidableEq K]

def step : Op K V → Primary K V × Disk → Primary K V × Disk
  | .upsert key value, (primary, disk) => (primary.upsert key value disk).2
  | .updateWith key change, (primary, disk) => (primary.updateWith key change disk).2
  | .delete key, (primary, disk) => (primary.delete key disk).2
  | .shiftReadOnly, (primary, disk) => (primary.shiftReadOnly, disk)
  | .flush, (primary, disk) =>
    let (_, manager, disk) := primary.manager.flush disk
    ({ primary with manager }, disk)
  | .evict, (primary, disk) =>
    let (_, manager, disk) := primary.manager.evict disk
    ({ primary with manager }, disk)
  | .takeCheckpoint kind clock, (primary, disk) =>
    ({ primary with manager := (primary.manager.takeCheckpoint kind clock).2 }, disk)
  | .completeCheckpoint, (primary, disk) =>
    let (_, manager, disk) := primary.manager.completeCheckpoint disk
    ({ primary with manager }, disk)
  | .readChain source key, (primary, disk) =>
    ({ primary with manager := (primary.manager.readChain source key false disk).2 }, disk)

def run : List (Op K V) → Primary K V × Disk → Primary K V × Disk
  | [], state => state
  | op :: ops, state => run ops (step op state)

theorem tail_changeRecord (primary : Primary K V) (address : Nat) (change : V → V) (disk : Disk) :
    primary.tail ≤ (primary.changeRecord address change disk).2.1.tail := by
  cases hr : primary.record address with
  | error fault =>
    rw [changeRecord, changeInPlace, changeByCopy, hr]
    split <;> exact Nat.le_refl _
  | ok data =>
    have hat := At.of_record hr
    rw [changeRecord]
    split
    · obtain ⟨result, manager, last, other, -, hop⟩ := changeInPlace_eq hat change disk
      rw [hop]
      exact Nat.le_of_eq (tail_setSlot primary address _).symm
    · rcases changeByCopy_cases hat change disk with
        ⟨fault, manager, last, other, -, hop⟩ | ⟨manager, last, other, -, hop⟩ <;> rw [hop]
      · exact Nat.le_refl _
      · rw [tail_setSlot, tail_push]
        exact Nat.le_succ _

theorem tail_step (op : Op K V) (primary : Primary K V) (disk : Disk) :
    primary.tail ≤ (step op (primary, disk)).1.tail := by
  cases op with
  | upsert key value =>
    rw [step, upsert]
    split
    · exact tail_changeRecord _ _ _ _
    · rcases insertNew_cases primary ⟨key, value⟩ disk with
        ⟨fault, manager, other, -, hop⟩ | ⟨manager, other, -, hop⟩ <;> rw [hop]
      · exact Nat.le_refl _
      · rw [tail_push]
        exact Nat.le_succ _
  | updateWith key change =>
    rw [step, updateWith]
    split
    · exact Nat.le_refl _
    · exact tail_changeRecord _ _ _ _
  | delete key =>
    rw [step]
    cases hk : primary.address? key with
    | none =>
      have hsame : (primary.delete key disk).2.1 = primary := by rw [delete, hk]
      exact Nat.le_of_eq (congrArg tail hsame.symm)
    | some address =>
      cases hr : primary.record address with
      | error fault =>
        simp only [delete, hk, hr]
        exact Nat.le_refl _
      | ok data =>
        rcases delete_cases hk (At.of_record hr) disk with
          ⟨fault, manager, last, other, -, hop⟩ | ⟨manager, last, other, -, hop⟩ <;> rw [hop]
        · exact Nat.le_refl _
        · exact Nat.le_of_eq (tail_setSlot _ _ _).symm
  | _ => exact Nat.le_refl _

theorem tail_run (ops : List (Op K V)) (primary : Primary K V) (disk : Disk) :
    primary.tail ≤ (run ops (primary, disk)).1.tail := by
  induction ops generalizing primary disk with
  | nil => exact Nat.le_refl _
  | cons op ops ih => exact Nat.le_trans (tail_step op primary disk) (ih _ _)

namespace Indexed

variable {primary : Primary K V} {disk : Disk} {base : Path}
  {origin : Manager (KeyValue K V)}

theorem changeRecord (h : primary.Indexed disk base origin) {key : K} {address : Nat}
    (hk : primary.address? key = some address) (change : V → V)
    (hf : primary.tail < UInt64.size) :
    (primary.changeRecord address change disk).1.isOk ∧
      (primary.changeRecord address change disk).2.1.Indexed
        (primary.changeRecord address change disk).2.2 base origin := by
  obtain ⟨data, hat, rfl⟩ := h.keys key address hk
  rw [Primary.changeRecord]
  split
  · obtain ⟨hok, hi⟩ := h.changeInPlace hat change (Nat.le_of_lt hf)
    exact ⟨by rw [hok]; rfl, hi⟩
  · obtain ⟨hok, hi⟩ := h.changeByCopy hat change hf
    exact ⟨by rw [hok]; rfl, hi⟩

/-- Every operation keeps the indexes in agreement with the records. -/
theorem step (h : primary.Indexed disk base origin) (op : Op K V)
    (hf : primary.tail < UInt64.size) :
    (Primary.step op (primary, disk)).1.Indexed (Primary.step op (primary, disk)).2 base origin := by
  cases op with
  | upsert key value =>
    rw [Primary.step, Primary.upsert]
    cases hk : primary.address? key with
    | none => exact (h.insertNew ⟨key, value⟩ hf).2
    | some address => exact (h.changeRecord hk _ hf).2
  | updateWith key change =>
    rw [Primary.step, Primary.updateWith]
    cases hk : primary.address? key with
    | none => exact h
    | some address => exact (h.changeRecord hk change hf).2
  | delete key => exact h.delete key (Nat.le_of_lt hf)
  | shiftReadOnly => exact ⟨h.same, h.keys, h.chains⟩
  | flush => exact h.ofManager fun index hi => hi.flush
  | evict => exact h.ofManager fun index hi => hi.evict
  | takeCheckpoint kind clock => exact h.ofManager fun index hi => hi.takeCheckpoint kind clock
  | completeCheckpoint => exact h.ofManager fun index hi => hi.completeCheckpoint
  | readChain source key => exact h.ofManager fun index hi => hi.readChain source key false

theorem run (h : primary.Indexed disk base origin) (ops : List (Op K V))
    (hf : (Primary.run ops (primary, disk)).1.tail < UInt64.size) :
    (Primary.run ops (primary, disk)).1.Indexed (Primary.run ops (primary, disk)).2 base
      origin := by
  induction ops generalizing primary disk with
  | nil => exact h
  | cons op ops ih =>
    have ht := tail_run (op :: ops) primary disk
    exact ih (h.step op (by omega)) hf

end Indexed

end Primary

end PredicateIndex
