import Mathlib.Data.List.Nodup
import Mathlib.Data.List.Perm.Basic
import PredicateIndex.Proofs.ManagerReads

/-!
# Chains that come back

A walk follows whatever addresses the log holds. It ends on a chain that never
comes back to an address, for then it meets no address twice and there are only
so many below the tail. From an address that leads back to itself it goes round
for ever: no check of a record asks for a smaller address behind it.
-/

set_option autoImplicit false

namespace PredicateIndex

namespace Store

variable {store : Store} {disk : Disk} {ordinal : UInt8} {key : Bytes}

/-- How a walk that nobody cancels or counts ends, with the addresses it looks at in their order. -/
inductive Walks (store : Store) (disk : Disk) : ChainWalk → Session → DeadRecords → List UInt64 →
    Except Fault (Option (List RecordId)) × Session × DeadRecords → Prop
  | ended {walk : ChainWalk} {session : Session} {dead : DeadRecords}
      (hn : walk.next = noAddress) :
      Walks store disk walk session dead [] (.ok (some walk.live), session, dead)
  | unread {walk : ChainWalk} {session after : Session} {dead : DeadRecords} {fault : Fault}
      (hn : walk.next ≠ noAddress)
      (hf : store.fetch session walk.next.toNat disk = (.error fault, after)) :
      Walks store disk walk session dead [walk.next] (.error fault, after, dead)
  | absent {walk : ChainWalk} {session after : Session} {dead : DeadRecords}
      (hn : walk.next ≠ noAddress)
      (hf : store.fetch session walk.next.toNat disk = (.ok none, after)) :
      Walks store disk walk session dead [walk.next] (.ok (some walk.live), after, dead)
  | refused {walk : ChainWalk} {session after : Session} {dead : DeadRecords} {record : LogRecord}
      {fault : Fault} (hn : walk.next ≠ noAddress)
      (hf : store.fetch session walk.next.toNat disk = (.ok (some record), after))
      (hv : walk.visit walk.next.toNat record dead = .error fault) :
      Walks store disk walk session dead [walk.next] (.error fault, after, dead)
  | visited {walk next : ChainWalk} {session after : Session} {dead marked : DeadRecords}
      {record : LogRecord} {addresses : List UInt64}
      {outcome : Except Fault (Option (List RecordId)) × Session × DeadRecords}
      (hn : walk.next ≠ noAddress)
      (hf : store.fetch session walk.next.toNat disk = (.ok (some record), after))
      (hv : walk.visit walk.next.toNat record dead = .ok (next, marked))
      (hw : Walks store disk next after marked addresses outcome) :
      Walks store disk walk session dead (walk.next :: addresses) outcome

def before? (store : Store) (disk : Disk) (ordinal : UInt8) (key : Bytes) (address : UInt64) :
    Option UInt64 :=
  ((store.fetch ⟨0, 0, 0⟩ address.toNat disk).1.toOption.join.bind
    ({ ordinal, key, next := address } : ChainWalk).slot?).map Slot.previous

def met (store : Store) (disk : Disk) (ordinal : UInt8) (key : Bytes) :
    Nat → UInt64 → Option UInt64
  | 0, address => some address
  | count + 1, address =>
    (store.before? disk ordinal key address).bind (store.met disk ordinal key count)

def Recurs (store : Store) (disk : Disk) (ordinal : UInt8) (key : Bytes) (address : UInt64) : Prop :=
  ∃ count, store.met disk ordinal key (count + 1) address = some address

theorem before?_eq {session after : Session} {address : UInt64}
    {result : Except Fault (Option LogRecord)}
    (h : store.fetch session address.toNat disk = (result, after)) :
    store.before? disk ordinal key address = (result.toOption.join.bind
      ({ ordinal, key, next := address } : ChainWalk).slot?).map Slot.previous := by
  have halike : store.ReadsAlike disk store disk := ⟨rfl, rfl, fun _ _ => rfl⟩
  rw [before?, ← halike.fetch ⟨0, 0, 0⟩ session address.toNat, h]

theorem before?_visit {walk next : ChainWalk} {session after : Session} {dead marked : DeadRecords}
    {record : LogRecord} (hf : store.fetch session walk.next.toNat disk = (.ok (some record), after))
    (hv : walk.visit walk.next.toNat record dead = .ok (next, marked)) :
    store.before? disk walk.ordinal walk.key walk.next = some next.next ∧
      next.ordinal = walk.ordinal ∧ next.key = walk.key := by
  rw [before?_eq hf]
  show (walk.slot? record).map Slot.previous = _ ∧ _
  rw [ChainWalk.visit] at hv
  cases hs : walk.slot? record with
  | none =>
    rw [hs] at hv
    cases hv
  | some slot =>
    rw [hs] at hv
    dsimp only at hv
    repeat' split at hv
    all_goals
      obtain ⟨rfl, -⟩ := Prod.mk.inj (Except.ok.inj hv)
      exact ⟨rfl, rfl, rfl⟩

theorem before?_refused {walk : ChainWalk} {session after : Session} {dead : DeadRecords}
    {record : LogRecord} {fault : Fault}
    (hf : store.fetch session walk.next.toNat disk = (.ok (some record), after))
    (hv : walk.visit walk.next.toNat record dead = .error fault) :
    store.before? disk walk.ordinal walk.key walk.next = none := by
  rw [before?_eq hf]
  show (walk.slot? record).map Slot.previous = _
  rw [ChainWalk.visit] at hv
  cases hs : walk.slot? record with
  | none => rfl
  | some slot =>
    rw [hs] at hv
    dsimp only at hv
    repeat' split at hv
    all_goals cases hv

theorem before?_bounds {address previous : UInt64}
    (h : store.before? disk ordinal key address = some previous) :
    address ≠ noAddress ∧ store.log.start ≤ address.toNat ∧ address.toNat < store.log.tail := by
  have hne : address ≠ noAddress := by
    rintro rfl
    have hf : store.fetch ⟨0, 0, 0⟩ noAddress.toNat disk = (.ok none, ⟨0, 0, 0⟩) := rfl
    rw [before?_eq hf] at h
    cases h
  refine ⟨hne, ?_⟩
  by_cases hrange : address.toNat < store.log.start ∨ store.log.tail ≤ address.toNat
  · have hzero : address.toNat ≠ 0 := fun hz => hne (UInt64.toNat_inj.mp hz)
    have hf : store.fetch ⟨0, 0, 0⟩ address.toNat disk =
        (.error (.addressOutOfRange address.toNat), ⟨0, 0, 0⟩) := by
      simp only [fetch, read, if_neg hzero, Log.resident, if_pos hrange, bind, Except.bind]
    rw [before?_eq hf] at h
    cases h
  · omega

theorem before?_noAddress : store.before? disk ordinal key noAddress = none := by
  cases h : store.before? disk ordinal key noAddress with
  | none => rfl
  | some previous => exact ((before?_bounds h).1 rfl).elim

section Met

variable {address other : UInt64}

theorem met_add (first count : Nat) :
    store.met disk ordinal key (first + count) address =
      (store.met disk ordinal key first address).bind (store.met disk ordinal key count) := by
  induction first generalizing address with
  | zero => rw [Nat.zero_add, met, Option.bind_some]
  | succ first ih =>
    rw [Nat.succ_add, met, met]
    cases store.before? disk ordinal key address with
    | none => rfl
    | some previous => exact ih

theorem met_none {first last : Nat} (h : store.met disk ordinal key first address = none)
    (hle : first ≤ last) : store.met disk ordinal key last address = none := by
  obtain ⟨count, rfl⟩ := Nat.exists_eq_add_of_le hle
  rw [met_add, h, Option.bind_none]

theorem Recurs.met_ne_none {first : Nat} (hm : store.met disk ordinal key first address = some other)
    (h : store.Recurs disk ordinal key other) (count : Nat) :
    store.met disk ordinal key count address ≠ none := by
  obtain ⟨period, hp⟩ := h
  have hround : ∀ rounds, store.met disk ordinal key (first + rounds * (period + 1)) address =
      some other := by
    intro rounds
    induction rounds with
    | zero => rw [Nat.zero_mul, Nat.add_zero, hm]
    | succ rounds ih => rw [Nat.succ_mul, ← Nat.add_assoc, met_add, ih, Option.bind_some, hp]
  intro hnone
  have hle : count ≤ first + count * (period + 1) := by
    rw [Nat.mul_succ]
    omega
  have hend := met_none hnone hle
  rw [hround] at hend
  cases hend

theorem recurs_of_twice {first second : Nat} (hlt : first < second)
    (hm : store.met disk ordinal key first address = some other)
    (hs : store.met disk ordinal key second address = some other) :
    store.Recurs disk ordinal key other := by
  obtain ⟨count, rfl⟩ := Nat.exists_eq_add_of_lt hlt
  rw [Nat.add_assoc, met_add, hm, Option.bind_some] at hs
  exact ⟨count, hs⟩

theorem length_le_of_nodup {addresses : List UInt64} (hn : addresses.Nodup)
    (hb : ∀ address ∈ addresses,
      store.log.start ≤ address.toNat ∧ address.toNat < store.log.tail) :
    addresses.length ≤ store.log.tail - store.log.start := by
  have hnodup : (addresses.map UInt64.toNat).Nodup := hn.map fun _ _ => UInt64.toNat_inj.mp
  have hsubset : addresses.map UInt64.toNat ⊆
      List.range' store.log.start (store.log.tail - store.log.start) := by
    intro n hmem
    obtain ⟨address, ha, rfl⟩ := List.mem_map.mp hmem
    obtain ⟨hstart, htail⟩ := hb address ha
    rw [List.mem_range'_1]
    omega
  have hle := (List.subperm_of_subset hnodup hsubset).length_le
  rwa [List.length_map, List.length_range'] at hle

/-- Who goes on for ever meets an address twice. -/
theorem exists_recurs (h : ∀ count, store.met disk ordinal key count address ≠ none) :
    ∃ count found, store.met disk ordinal key count address = some found ∧
      store.Recurs disk ordinal key found := by
  obtain ⟨found, hfound⟩ := Classical.skolem.mp fun count => Option.ne_none_iff_exists'.mp (h count)
  by_cases hrecurs : ∃ count, store.Recurs disk ordinal key (found count)
  · obtain ⟨count, hr⟩ := hrecurs
    exact ⟨count, found count, hfound count, hr⟩
  · have hinjective : Function.Injective found := by
      intro first second hsame
      have hs := hfound second
      rw [← hsame] at hs
      rcases Nat.lt_trichotomy first second with hlt | heq | hlt
      · exact (hrecurs ⟨first, recurs_of_twice hlt (hfound first) hs⟩).elim
      · exact heq
      · exact (hrecurs ⟨first, recurs_of_twice hlt hs (hfound first)⟩).elim
    have hbounds : ∀ there ∈ (List.range (store.log.tail + 1)).map found,
        store.log.start ≤ there.toNat ∧ there.toNat < store.log.tail := by
      intro there ht
      obtain ⟨count, -, rfl⟩ := List.mem_map.mp ht
      have hnext := hfound (count + 1)
      rw [met_add, hfound, Option.bind_some, met] at hnext
      obtain ⟨previous, hprevious, -⟩ := Option.bind_eq_some_iff.mp hnext
      exact (before?_bounds hprevious).2
    have hle := length_le_of_nodup (List.nodup_range.map hinjective) hbounds
    rw [List.length_map, List.length_range] at hle
    omega

/-- A chain ends just if no address that is met on it leads back to itself. -/
theorem ends_iff : (∃ count, store.met disk ordinal key count address = none) ↔
    ∀ count found, store.met disk ordinal key count address = some found →
      ¬ store.Recurs disk ordinal key found := by
  constructor
  · rintro ⟨last, hlast⟩ count found hm hr
    exact hr.met_ne_none hm last hlast
  · intro h
    by_cases hend : ∃ count, store.met disk ordinal key count address = none
    · exact hend
    · obtain ⟨count, found, hm, hr⟩ := exists_recurs fun count hc => hend ⟨count, hc⟩
      exact (h count found hm hr).elim

end Met

theorem walks_or_endless (steps : Nat) (walk : ChainWalk) (session : Session) (dead : DeadRecords) :
    (∃ addresses outcome, store.Walks disk walk session dead addresses outcome ∧
      addresses.length ≤ steps) ∨
    ∃ address, address ≠ noAddress ∧
      store.met disk walk.ordinal walk.key steps walk.next = some address ∧
      (store.walk false disk steps walk session dead).1 =
        .error (.endlessChain address.toNat) := by
  induction steps generalizing walk session dead with
  | zero =>
    by_cases hn : walk.next = noAddress
    · exact Or.inl ⟨[], _, .ended hn, Nat.le_refl 0⟩
    · exact Or.inr ⟨walk.next, hn, rfl, by simp [Store.walk, hn]⟩
  | succ steps ih =>
    by_cases hn : walk.next = noAddress
    · exact Or.inl ⟨[], _, .ended hn, Nat.zero_le _⟩
    · rcases hf : store.fetch session walk.next.toNat disk with ⟨result, after⟩
      rcases result with fault | _ | record
      · exact Or.inl ⟨_, _, .unread hn hf, Nat.succ_le_succ (Nat.zero_le _)⟩
      · exact Or.inl ⟨_, _, .absent hn hf, Nat.succ_le_succ (Nat.zero_le _)⟩
      · rcases hv : walk.visit walk.next.toNat record dead with fault | ⟨next, marked⟩
        · exact Or.inl ⟨_, _, .refused hn hf hv, Nat.succ_le_succ (Nat.zero_le _)⟩
        · obtain ⟨hbefore, hordinal, hkey⟩ := before?_visit hf hv
          rcases ih next after marked with ⟨addresses, outcome, hw, hle⟩ | ⟨address, ha, hm, he⟩
          · exact Or.inl ⟨_, outcome, .visited hn hf hv hw, Nat.succ_le_succ hle⟩
          · refine Or.inr ⟨address, ha, ?_, ?_⟩
            · rw [met, hbefore, Option.bind_some, ← hordinal, ← hkey, hm]
            · simp only [Store.walk, if_neg hn, hf, hv, he, Bool.false_eq_true, if_false]

namespace Walks

variable {walk : ChainWalk} {session : Session} {dead : DeadRecords} {addresses : List UInt64}
  {outcome : Except Fault (Option (List RecordId)) × Session × DeadRecords}

/-- A walk that ends is the same with any bound that it keeps. -/
theorem walk_eq (h : store.Walks disk walk session dead addresses outcome) {steps : Nat}
    (hle : addresses.length ≤ steps) : store.walk false disk steps walk session dead = outcome := by
  induction h generalizing steps with
  | ended hn => cases steps <;> rw [Store.walk, if_pos hn]
  | unread hn hf =>
    obtain ⟨steps, rfl⟩ := Nat.exists_eq_add_of_le' hle
    simp only [List.length_singleton, Store.walk, if_neg hn, hf, Bool.false_eq_true, if_false]
  | absent hn hf =>
    obtain ⟨steps, rfl⟩ := Nat.exists_eq_add_of_le' hle
    simp only [List.length_singleton, Store.walk, if_neg hn, hf, Bool.false_eq_true, if_false]
  | refused hn hf hv =>
    obtain ⟨steps, rfl⟩ := Nat.exists_eq_add_of_le' hle
    simp only [List.length_singleton, Store.walk, if_neg hn, hf, hv, Bool.false_eq_true, if_false]
  | visited hn hf hv _ ih =>
    obtain ⟨steps, rfl⟩ := Nat.exists_eq_add_of_le' (Nat.le_of_add_left_le hle)
    rw [List.length_cons] at hle
    simp only [Store.walk, if_neg hn, hf, hv, Bool.false_eq_true, if_false]
    exact ih (by omega)

theorem met_last {address : UInt64} (h : store.before? disk ordinal key address = none) :
    (∀ i found, [address][i]? = some found →
      store.met disk ordinal key i address = some found) ∧
    store.met disk ordinal key ([address].length + 1) address = none := by
  refine ⟨fun i found hi => ?_, ?_⟩
  · obtain ⟨rfl, rfl⟩ : i = 0 ∧ address = found := by
      cases i with
      | zero => exact ⟨rfl, Option.some.inj hi⟩
      | succ i => cases hi
    rfl
  · rw [List.length_singleton, met, h, Option.bind_none]

theorem met_eq (h : store.Walks disk walk session dead addresses outcome) :
    (∀ i address, addresses[i]? = some address →
      store.met disk walk.ordinal walk.key i walk.next = some address) ∧
    store.met disk walk.ordinal walk.key (addresses.length + 1) walk.next = none := by
  induction h with
  | ended hn =>
    refine ⟨fun i address hi => (by cases hi), ?_⟩
    rw [hn, List.length_nil, met, before?_noAddress, Option.bind_none]
  | @unread walk _ _ _ _ hn hf => exact met_last (by rw [before?_eq hf]; rfl)
  | @absent walk _ _ _ hn hf => exact met_last (by rw [before?_eq hf]; rfl)
  | @refused walk _ _ _ _ _ hn hf hv => exact met_last (before?_refused hf hv)
  | @visited walk next _ _ _ _ _ addresses _ hn hf hv _ ih =>
    obtain ⟨hbefore, hordinal, hkey⟩ := before?_visit hf hv
    rw [hordinal, hkey] at ih
    refine ⟨fun i address hi => ?_, ?_⟩
    · cases i with
      | zero => exact hi
      | succ i =>
        rw [met, hbefore, Option.bind_some]
        exact ih.1 i address hi
    · rw [List.length_cons, met, hbefore, Option.bind_some]
      exact ih.2

theorem nodup (h : store.Walks disk walk session dead addresses outcome) : addresses.Nodup := by
  obtain ⟨hmet, hend⟩ := h.met_eq
  rw [List.Nodup, List.pairwise_iff_getElem]
  intro first second hfirst hsecond hlt hsame
  have hf := hmet first _ (List.getElem?_eq_getElem hfirst)
  have hs := hmet second _ (List.getElem?_eq_getElem hsecond)
  rw [← hsame] at hs
  exact (recurs_of_twice hlt hf hs).met_ne_none hf _ hend

theorem bounds (h : store.Walks disk walk session dead addresses outcome) {address : UInt64}
    (ha : address ∈ addresses.dropLast) :
    store.log.start ≤ address.toNat ∧ address.toNat < store.log.tail := by
  obtain ⟨hmet, -⟩ := h.met_eq
  obtain ⟨i, hi, rfl⟩ := List.getElem_of_mem ha
  rw [List.length_dropLast] at hi
  have hhere := hmet i _ (List.getElem?_eq_getElem (by omega))
  have hnext := hmet (i + 1) _ (List.getElem?_eq_getElem (by omega))
  rw [met_add, hhere, Option.bind_some, met] at hnext
  obtain ⟨previous, hprevious, -⟩ := Option.bind_eq_some_iff.mp hnext
  rw [List.getElem_dropLast]
  exact (before?_bounds hprevious).2

theorem length_le (h : store.Walks disk walk session dead addresses outcome) :
    addresses.length ≤ store.log.tail - store.log.start + 1 := by
  have hle := length_le_of_nodup (h.nodup.sublist (List.dropLast_sublist addresses))
    fun address ha => h.bounds ha
  rw [List.length_dropLast] at hle
  omega

end Walks

theorem not_recurs_of_descending {address : UInt64}
    (h : ∀ count found previous, store.met disk ordinal key count address = some found →
      store.before? disk ordinal key found = some previous → previous < found)
    {first : Nat} {found : UInt64} (hm : store.met disk ordinal key first address = some found) :
    ¬ store.Recurs disk ordinal key found := by
  have hless : ∀ count first found last, store.met disk ordinal key first address = some found →
      store.met disk ordinal key (count + 1) found = some last → last < found := by
    intro count
    induction count with
    | zero =>
      intro first found last hf hl
      rw [met] at hl
      obtain ⟨previous, hp, hlast⟩ := Option.bind_eq_some_iff.mp hl
      obtain rfl := Option.some.inj hlast
      exact h first found previous hf hp
    | succ count ih =>
      intro first found last hf hl
      rw [met] at hl
      obtain ⟨previous, hp, hlast⟩ := Option.bind_eq_some_iff.mp hl
      have hnext : store.met disk ordinal key (first + 1) address = some previous := by
        rw [met_add, hf, Option.bind_some, met, hp]
        rfl
      exact UInt64.lt_trans (ih (first + 1) previous last hnext hlast) (h first found previous hf hp)
  rintro ⟨period, hperiod⟩
  exact UInt64.lt_irrefl found (hless period first found found hm hperiod)

def chainStart (store : Store) (ordinal : UInt8) (key : Bytes) : ChainWalk :=
  { ordinal, key, next := store.heads.head (chainKey ordinal key) }

def ReadsChain (store : Store) (disk : Disk) (ordinal : UInt8) (key : Bytes) (dead : DeadRecords)
    (addresses : List UInt64) (outcome : Except Fault (Option (List RecordId)) × Session × DeadRecords) :
    Prop :=
  store.acquire.2.Walks disk (store.chainStart ordinal key) store.acquire.1 dead addresses outcome

theorem met_acquire (count : Nat) (address : UInt64) :
    store.acquire.2.met disk ordinal key count address =
      store.met disk ordinal key count address := by
  have hlent : store.ReadsAlike disk store.acquire.2 disk := ⟨rfl, rfl, fun _ _ => rfl⟩
  have hbefore : ∀ address, store.acquire.2.before? disk ordinal key address =
      store.before? disk ordinal key address := by
    intro address
    rw [before?, hlent.fetch ⟨0, 0, 0⟩ ⟨0, 0, 0⟩ address.toNat]
    rfl
  induction count generalizing address with
  | zero => rfl
  | succ count ih =>
    rw [met, met, hbefore]
    exact congrArg (Option.bind _) (funext ih)

theorem recurs_acquire (address : UInt64) :
    store.acquire.2.Recurs disk ordinal key address ↔ store.Recurs disk ordinal key address :=
  exists_congr fun count => by rw [met_acquire]

theorem readsChain_of_calm (dead : DeadRecords)
    (h : ∀ count address,
      store.met disk ordinal key count (store.heads.head (chainKey ordinal key)) = some address →
      ¬ store.Recurs disk ordinal key address) :
    ∃ addresses outcome, store.ReadsChain disk ordinal key dead addresses outcome := by
  obtain ⟨steps, hsteps⟩ := ends_iff.mpr h
  rcases walks_or_endless steps (store.chainStart ordinal key) store.acquire.1 dead with
    ⟨addresses, outcome, hw, -⟩ | ⟨address, -, hm, -⟩
  · exact ⟨addresses, outcome, hw⟩
  · have hnone := (met_acquire steps _).trans hsteps
    rw [chainStart, hnone] at hm
    cases hm

/-- Whatever the log and the heads hold, reading a chain ends just if no address that is met on it
leads back to itself. If it ends, no address is looked at twice and all but the last are in the log;
if not, every bound on the steps is reached. Addresses that descend from record to record are
enough for an end; being cancelled is, too. -/
theorem chain_ends_iff (store : Store) (disk : Disk) (ordinal : UInt8) (key : Bytes)
    (dead : DeadRecords) :
    ((∃ addresses outcome, store.ReadsChain disk ordinal key dead addresses outcome) ↔
      ∀ count address,
        store.met disk ordinal key count (store.heads.head (chainKey ordinal key)) = some address →
        ¬ store.Recurs disk ordinal key address) ∧
    (∀ addresses outcome, store.ReadsChain disk ordinal key dead addresses outcome →
      addresses.Nodup ∧ (∀ address ∈ addresses.dropLast,
        store.log.start ≤ address.toNat ∧ address.toNat < store.log.tail) ∧
      addresses.length ≤ store.log.tail - store.log.start + 1 ∧
      store.readChain ordinal key false disk dead =
        (outcome.1, store.acquire.2.release outcome.2.1, outcome.2.2)) ∧
    ((¬ ∃ addresses outcome, store.ReadsChain disk ordinal key dead addresses outcome) →
      (∀ steps, ∃ address, (store.acquire.2.walk false disk steps (store.chainStart ordinal key)
        store.acquire.1 dead).1 = .error (.endlessChain address)) ∧
      ∃ address, (store.readChain ordinal key false disk dead).1 =
        .error (.endlessChain address)) ∧
    ((∀ count address previous,
        store.met disk ordinal key count (store.heads.head (chainKey ordinal key)) = some address →
        store.before? disk ordinal key address = some previous → previous < address) →
      ∃ addresses outcome, store.ReadsChain disk ordinal key dead addresses outcome) ∧
    (store.readChain ordinal key true disk dead).1 =
      .ok (if store.heads.head (chainKey ordinal key) = noAddress then some [] else none) := by
  have hendless : (¬ ∃ addresses outcome,
      store.ReadsChain disk ordinal key dead addresses outcome) → ∀ steps, ∃ address,
      (store.acquire.2.walk false disk steps (store.chainStart ordinal key)
        store.acquire.1 dead).1 = .error (.endlessChain address) := by
    intro hnone steps
    rcases walks_or_endless steps (store.chainStart ordinal key) store.acquire.1 dead with
      ⟨addresses, outcome, hw, -⟩ | ⟨address, -, -, he⟩
    · exact (hnone ⟨addresses, outcome, hw⟩).elim
    · exact ⟨_, he⟩
  refine ⟨⟨?_, readsChain_of_calm dead⟩, fun addresses outcome hw => ?_,
    fun hnone => ⟨hendless hnone, ?_⟩,
    fun h => readsChain_of_calm dead fun count address hm => not_recurs_of_descending h hm, ?_⟩
  · rintro ⟨addresses, outcome, hw⟩ count address hm hr
    rw [← met_acquire] at hm
    exact ((recurs_acquire address).mpr hr).met_ne_none hm _ hw.met_eq.2
  · have hbound : addresses.length ≤ store.log.tail - store.log.start + 1 := hw.length_le
    have hlength : addresses.length ≤ store.log.tail + 1 := by omega
    have hwalk := hw.walk_eq hlength
    refine ⟨hw.nodup, fun address ha => hw.bounds ha, hbound, ?_⟩
    rw [← hwalk]
    rfl
  · exact hendless hnone (store.log.tail + 1)
  · show (store.acquire.2.walk true disk (store.log.tail + 1) (store.chainStart ordinal key)
      store.acquire.1 dead).1 = _
    by_cases hn : store.heads.head (chainKey ordinal key) = noAddress
    · have hstart : (store.chainStart ordinal key).next = noAddress := hn
      rw [Store.walk, if_pos hstart, if_pos hn]
      rfl
    · have hstart : (store.chainStart ordinal key).next ≠ noAddress := hn
      rw [Store.walk, if_neg hstart, if_neg hn, if_pos rfl]

def linkedTo (previous : UInt64) : Disk :=
  let record : LogRecord := ⟨⟨1, 1⟩, true, [⟨0, some [1, 1], previous, false, false⟩]⟩
  { entries := [([Log.fileName], .file 0)], files := [Log.header ++ record.encode] }

def evicted : Store :=
  { dir := [], lock := ⟨0, []⟩, log := ⟨0, [Log.fileName], 64, 104, 104, 104, []⟩
    heads := [([0, 1, 1], 64)], sessions := .ofCapacity .standard, awaitingRecovery := false
    logMemorySize := 1024 }

theorem before?_linkedTo : evicted.before? (linkedTo 0) 0 [1, 1] 64 = some noAddress ∧
    evicted.before? (linkedTo 64) 0 [1, 1] 64 = some 64 := by
  decide +kernel

theorem recurs_linkedTo : evicted.Recurs (linkedTo 64) 0 [1, 1] 64 :=
  ⟨0, by rw [met, before?_linkedTo.2]; rfl⟩

/-- The record with nothing before it ends the chain; the one that names itself does not. -/
theorem chain_ends_iff_linked :
    (∃ addresses outcome, evicted.ReadsChain (linkedTo 0) 0 [1, 1] [] addresses outcome) ∧
    ∃ address, (evicted.readChain 0 [1, 1] false (linkedTo 64) []).1 =
      .error (.endlessChain address) := by
  have hhead : evicted.heads.head (chainKey 0 [1, 1]) = 64 := by decide
  obtain ⟨-, -, -, hdescending, -⟩ := chain_ends_iff evicted (linkedTo 0) 0 [1, 1] []
  obtain ⟨hends, -, hendless, -⟩ := chain_ends_iff evicted (linkedTo 64) 0 [1, 1] []
  rw [hhead] at hdescending hends
  have hone : evicted.met (linkedTo 0) 0 [1, 1] 1 64 = some noAddress := by
    rw [met, before?_linkedTo.1]
    rfl
  have htwo : evicted.met (linkedTo 0) 0 [1, 1] 2 64 = none := by
    rw [met, before?_linkedTo.1, Option.bind_some, met, before?_noAddress, Option.bind_none]
  refine ⟨hdescending fun count address previous hm hp => ?_, (hendless fun h => ?_).2⟩
  · rcases count with _ | _ | count
    · obtain rfl : 64 = address := Option.some.inj hm
      obtain rfl : noAddress = previous := Option.some.inj (before?_linkedTo.1.symm.trans hp)
      decide
    · obtain rfl : noAddress = address := Option.some.inj (hone.symm.trans hm)
      rw [before?_noAddress] at hp
      cases hp
    · rw [met_none htwo (Nat.le_add_left 2 count)] at hm
      cases hm
  · have hhere : evicted.met (linkedTo 64) 0 [1, 1] 0 64 = some 64 := by rw [met]
    exact hends.mp h 0 64 hhere recurs_linkedTo

/-- The walk is at the record that names itself after any number of steps, so it never ends. -/
theorem own_address_never_ends :
    evicted.heads.head (chainKey 0 [1, 1]) = 64 ∧
    (∀ count, evicted.met (linkedTo 64) 0 [1, 1] count 64 = some 64) ∧
    ¬ ∃ addresses outcome, evicted.ReadsChain (linkedTo 64) 0 [1, 1] [] addresses outcome := by
  refine ⟨by decide, fun count => ?_, ?_⟩
  · induction count with
    | zero => rfl
    | succ count ih => rw [met, before?_linkedTo.2, Option.bind_some, ih]
  · rintro ⟨addresses, outcome, hw⟩
    have hhead : (evicted.chainStart 0 [1, 1]).next = 64 := by decide
    have hend := hw.met_eq.2
    have hhere : evicted.met (linkedTo 64) 0 [1, 1] 0 64 = some 64 := by rw [met]
    rw [met_acquire, hhead] at hend
    exact recurs_linkedTo.met_ne_none hhere _ hend

end Store

end PredicateIndex
