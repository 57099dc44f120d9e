import PredicateIndex.Manager.Queries
import PredicateIndex.Proofs.StreamEnds

/-!
# What reading a chain depends on

A walk looks at the log and the heads of a store and at the disk. The session
it runs in only counts what it does, so reading one chain does not change what
reading another one gives. A walk that nobody cancels gives ascending ids or a
fault.
-/

set_option autoImplicit false

namespace PredicateIndex

open RecordId (Ascending)

namespace Store

variable {store other : Store} {disk after : Disk}

structure ReadsAlike (store : Store) (disk : Disk) (other : Store) (after : Disk) : Prop where
  log : other.log = store.log
  heads : other.heads = store.heads
  file : ∀ offset count,
    after.readAt store.log.path offset count = disk.readAt store.log.path offset count

namespace ReadsAlike

variable (h : store.ReadsAlike disk other after)

include h in
theorem fetch (session resumed : Session) (address : Nat) :
    (other.fetch resumed address after).1 = (store.fetch session address disk).1 := by
  rw [Store.fetch, Store.fetch, read, read, h.log]
  by_cases ha : address = 0
  · simp [ha]
  · simp only [if_neg ha, bind, Except.bind, pure, Except.pure]
    rcases store.log.resident address with fault | _ | bytes
    · rfl
    · have hread : (store.log.pendingRead address).complete after =
          (store.log.pendingRead address).complete disk := by
        simp only [PendingRead.complete, Log.pendingRead, h.file]
      dsimp only
      rw [hread]
      split <;> rfl
    · dsimp only
      cases LogRecord.decode bytes <;> rfl

include h in
theorem walk (cancelled : Bool) (steps : Nat) (walk : ChainWalk) (session resumed : Session)
    (dead : DeadRecords) :
    (other.walk cancelled after steps walk resumed dead).1 =
      (store.walk cancelled disk steps walk session dead).1 := by
  induction steps generalizing walk session resumed dead with
  | zero =>
    rw [Store.walk, Store.walk]
    repeat' split
    all_goals rfl
  | succ steps ih =>
    rw [Store.walk, Store.walk]
    split
    · rfl
    · split
      · rfl
      · have hf := h.fetch session resumed walk.next.toNat
        rcases hfo : other.fetch resumed walk.next.toNat after with ⟨outcome, counted⟩
        rcases hfs : store.fetch session walk.next.toNat disk with ⟨result, noted⟩
        rw [hfo, hfs] at hf
        simp only at hf
        subst hf
        rcases outcome with fault | _ | record
        · rfl
        · rfl
        · dsimp only
          split
          · rfl
          · exact ih _ _ _ _

include h in
/-- Reading a chain looks only at the log, its file and the heads. -/
theorem readChain (ordinal : UInt8) (key : Bytes) (cancelled : Bool) (dead : DeadRecords) :
    (other.readChain ordinal key cancelled after dead).1 =
      (store.readChain ordinal key cancelled disk dead).1 := by
  have hborrowed : store.acquire.2.ReadsAlike disk other.acquire.2 after := ⟨h.log, h.heads, h.file⟩
  have hwalk := hborrowed.walk cancelled (store.log.tail + 1)
    { ordinal, key, next := store.heads.head (chainKey ordinal key) }
    store.acquire.1 other.acquire.1 dead
  rw [Store.readChain, Store.readChain]
  show (other.acquire.2.walk cancelled after (other.log.tail + 1)
    { ordinal, key, next := other.heads.head (chainKey ordinal key) } other.acquire.1 dead).1 = _
  rw [h.log, h.heads, hwalk]
  rfl

end ReadsAlike

theorem ascending_visit {walk next : ChainWalk} {address : Nat} {record : LogRecord}
    {dead marked : DeadRecords} (ha : Ascending walk.live)
    (h : walk.visit address record dead = .ok (next, marked)) : Ascending next.live := by
  rw [ChainWalk.visit] at h
  split at h
  · cases h
  · dsimp only at h
    split at h
    · obtain ⟨rfl, -⟩ := Prod.mk.inj (Except.ok.inj h)
      exact ha
    · split at h
      · obtain ⟨rfl, -⟩ := Prod.mk.inj (Except.ok.inj h)
        exact ha
      · obtain ⟨rfl, -⟩ := Prod.mk.inj (Except.ok.inj h)
        exact RecordId.ascending_insert record.id ha

theorem walk_ok {steps : Nat} {walk : ChainWalk} {session : Session} {dead : DeadRecords}
    (ha : Ascending walk.live) {result : Option (List RecordId)}
    (h : (store.walk false disk steps walk session dead).1 = .ok result) :
    ∃ ids, result = some ids ∧ Ascending ids := by
  induction steps generalizing walk session dead with
  | zero =>
    rw [Store.walk] at h
    split at h
    · exact ⟨walk.live, (Except.ok.inj h).symm, ha⟩
    · cases h
  | succ steps ih =>
    rw [Store.walk] at h
    split at h
    · exact ⟨walk.live, (Except.ok.inj h).symm, ha⟩
    · rw [if_neg (by decide)] at h
      split at h
      · cases h
      · exact ⟨walk.live, (Except.ok.inj h).symm, ha⟩
      · split at h
        · cases h
        · rename_i hv
          exact ih (ascending_visit ha hv) h

theorem readChain_ok {ordinal : UInt8} {key : Bytes} {dead : DeadRecords}
    {result : Option (List RecordId)}
    (h : (store.readChain ordinal key false disk dead).1 = .ok result) :
    ∃ ids, result = some ids ∧ Ascending ids := by
  have hempty : Ascending ({ ordinal, key, next := store.heads.head (chainKey ordinal key) } :
      ChainWalk).live := List.Pairwise.nil
  exact @walk_ok store.acquire.2 disk (store.log.tail + 1) _ _ _ hempty _ h

end Store

namespace Manager

variable {D : Type} {manager : Manager D} {disk : Disk}

theorem source_eq {type : KeyType} (manager : Manager D) (handle : Handle type)
    (keys : List type.Value) :
    manager.source (handle, keys) =
      if handle.owner ≠ manager.identity then .error (.foreignPredicate handle.name)
      else match manager.groups.find? fun group => group.id = handle.group with
        | none => .error (.foreignPredicate handle.name)
        | some group =>
          if group.name? handle.ordinal = some handle.name then
            .ok ⟨handle.group, handle.name, handle.ordinal, keys.map type.encode⟩
          else .error (.foreignPredicate handle.name) := by
  rw [source, verify]
  by_cases ho : handle.owner ≠ manager.identity
  · rw [if_pos ho, if_pos ho]
    rfl
  · rw [if_neg ho, if_neg ho]
    cases hf : manager.groups.find? fun group => group.id = handle.group with
    | none => rfl
    | some group =>
      have hid : group.id = handle.group := by simpa using List.find?_some hf
      dsimp only
      by_cases hn : group.name? handle.ordinal = some handle.name
      · rw [if_pos hn, if_pos hn, ← hid]
        rfl
      · rw [if_neg hn, if_neg hn]
        rfl

theorem readChain_ok {source : ChainSource} {key : Bytes} {result : Option (List RecordId)}
    (h : (manager.readChain source key false disk).1 = .ok result) :
    ∃ ids, result = some ids ∧ Ascending ids := by
  rw [readChain] at h
  split at h
  · cases h
  · exact Store.readChain_ok h

theorem find?_setGroup (manager : Manager D) (group : Group D) (id : Nat) :
    (manager.setGroup group).groups.find? (fun other => other.id = id) =
      (manager.groups.find? fun other => other.id = id).map
        fun other => if other.id = group.id then group else other := by
  rw [setGroup, List.find?_map]
  congr 2
  funext other
  simp only [Function.comp]
  split
  · rename_i he
    simp [he]
  · rfl

theorem readChain_again (manager : Manager D) (first source : ChainSource) (read key : Bytes)
    (halted cancelled : Bool) (disk : Disk) :
    ((manager.readChain first read halted disk).2.readChain source key cancelled disk).1 =
      (manager.readChain source key cancelled disk).1 := by
  rw [readChain.eq_def manager first]
  cases hfirst : manager.groups.find? fun group => group.id = first.group with
  | none => rfl
  | some group =>
    obtain ⟨sessions, hchanged⟩ : ∃ sessions,
        (group.readChain first.ordinal read halted disk []).2.1 =
          { group with store := { group.store with sessions } } := ⟨_, rfl⟩
    simp only [hchanged]
    rw [readChain, readChain, find?_setGroup]
    cases hsource : manager.groups.find? fun group => group.id = source.group with
    | none => rfl
    | some found =>
      have hid : found.id = source.group := by simpa using List.find?_some hsource
      simp only [Option.map_some]
      split
      · rename_i he
        have hgroup : group.id = first.group := by simpa using List.find?_some hfirst
        have hsame : found = group := by
          rw [← hid, he, hgroup, hfirst] at hsource
          exact (Option.some.inj hsource).symm
        rw [hsame]
        have halike : group.store.ReadsAlike disk { group.store with sessions } disk :=
          ⟨rfl, rfl, fun _ _ => rfl⟩
        exact halike.readChain _ _ _ _
      · rfl

end Manager

end PredicateIndex
