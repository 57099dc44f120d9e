import PredicateIndex.Proofs.StoreRun

/-!
# Answers after the same records

What a store answers depends on its records only. Two stores that keep the same
records give every further upsert the same address and every read of a chain
the same ids, wherever the records are and whatever else happens in between.
-/

set_option autoImplicit false

namespace PredicateIndex

namespace Store

inductive Answer where
  | written (address : Except Fault Nat)
  | read (ids : Except Fault (Option (List RecordId)))

def answer? : Op → Store × Disk → Option Answer
  | .upsert session key id tombstone, (store, disk) =>
    some (.written ((store.upsert session key id tombstone disk).map (·.1)))
  | .readChain ordinal key, (store, disk) =>
    some (.read (store.readChain ordinal key false disk []).1)
  | _, _ => none

def answers : List Op → Store × Disk → List Answer
  | [], _ => []
  | op :: ops, state => (answer? op state).toList ++ answers ops (step op state)

def Reaches (history : List LogRecord) (address : UInt64) : Prop :=
  address = noAddress ∨ ∃ record, (address.toNat, record) ∈ Log.addressed Log.origin history

def Addressable (history : List LogRecord) : Prop :=
  Log.origin + (Log.image history).length < UInt64.size

theorem Reaches.append {front : List LogRecord} {address : UInt64} (h : Reaches front address)
    (back : List LogRecord) : Reaches (front ++ back) address := by
  apply h.imp_right
  rintro ⟨record, hm⟩
  refine ⟨record, ?_⟩
  rw [Log.addressed_append]
  exact List.mem_append_left _ hm

theorem reaches_head {history : List LogRecord} (ha : Addressable history) (chain : Bytes) :
    Reaches history ((headsOf history).head chain) := by
  rw [ChainHeads.head, lookup_headsOf]
  cases hl : (onChain chain (Log.addressed Log.origin history)).getLast? with
  | none => exact Or.inl rfl
  | some entry =>
    obtain ⟨address, record⟩ := entry
    have hm : (address, record) ∈ Log.addressed Log.origin history :=
      (List.mem_filter.mp (List.mem_of_getLast? hl)).1
    have hb := Log.addressed_bounds hm
    have hg := record.encodedLength_ge
    have hnat : (UInt64.ofNat address).toNat = address := by
      apply UInt64.toNat_ofNat_of_lt'
      rw [Addressable] at ha
      omega
    refine Or.inr ⟨record, ?_⟩
    show ((UInt64.ofNat address).toNat, record) ∈ _
    rw [hnat]
    exact hm

theorem reaches_previous {history : List LogRecord} (ha : Addressable history)
    (hl : Linked history) {record : LogRecord} (hr : record ∈ history) {slot : Slot}
    (hs : slot ∈ record.key) (hk : slot.key.isSome) : Reaches history slot.previous := by
  obtain ⟨front, back, rfl⟩ := List.append_of_mem hr
  obtain ⟨key, hkey⟩ := Option.isSome_iff_exists.mp hk
  have hchain : slot.chain? = some (chainKey slot.ordinal key) := by rw [Slot.chain?, hkey]; rfl
  have hfront : Addressable front := by
    rw [Addressable, Log.image_append, List.length_append] at ha
    rw [Addressable]
    omega
  rw [previous_of_link (hl front record back rfl) hs hchain]
  exact (reaches_head hfront _).append _

theorem visit_next {walk next : ChainWalk} {address : Nat} {record : LogRecord}
    {dead marked : DeadRecords} (h : walk.visit address record dead = .ok (next, marked)) :
    ∃ slot ∈ record.key, slot.key = some walk.key ∧ next.next = slot.previous := by
  rw [ChainWalk.visit] at h
  cases hs : walk.slot? record with
  | none =>
    rw [hs] at h
    cases h
  | some slot =>
    rw [hs] at h
    have hslot : slot ∈ record.key ∧ slot.key = some walk.key := by
      rw [ChainWalk.slot?] at hs
      split at hs
      · rename_i found hfound
        split at hs
        · rename_i hkey
          obtain rfl := Option.some.inj hs
          exact ⟨List.mem_of_getElem? hfound, hkey⟩
        · cases hs
      · cases hs
    refine ⟨slot, hslot.1, hslot.2, ?_⟩
    dsimp only at h
    split at h
    · obtain ⟨rfl, -⟩ := Prod.mk.inj (Except.ok.inj h)
      rfl
    · split at h <;>
      · obtain ⟨rfl, -⟩ := Prod.mk.inj (Except.ok.inj h)
        rfl

variable {store other : Store} {disk opened : Disk} {place : Path} {history : List LogRecord}

/-- Two stores with the same records walk a chain alike. -/
theorem walk_same (h : store.Keeps disk place history) (ho : other.Keeps opened place history)
    (hf : store.log.Fits) (hof : other.log.Fits) (ha : Addressable history) (cancelled : Bool)
    (steps : Nat) (walk : ChainWalk) (hw : Reaches history walk.next) (session resumed : Session)
    (dead : DeadRecords) :
    (store.walk cancelled disk steps walk session dead).1 =
      (other.walk cancelled opened steps walk resumed dead).1 := by
  induction steps generalizing walk session resumed dead with
  | zero =>
    rw [Store.walk, Store.walk]
    split
    · rfl
    · split <;> rfl
  | succ steps ih =>
    rw [Store.walk, Store.walk]
    by_cases hn : walk.next = noAddress
    · rw [if_pos hn, if_pos hn]
    · rw [if_neg hn, if_neg hn]
      cases cancelled with
      | true => rfl
      | false =>
        obtain ⟨record, hm⟩ := hw.resolve_left hn
        have hfetch := h.fetch hf hm session
        have hsame := ho.fetch hof hm resumed
        cases hs : store.fetch session walk.next.toNat disk with
        | mk result after =>
          cases hr : other.fetch resumed walk.next.toNat opened with
          | mk found later =>
            rw [hs] at hfetch
            rw [hr] at hsame
            obtain rfl : result = .ok (some record) := hfetch
            obtain rfl : found = .ok (some record) := hsame
            simp only [Bool.false_eq_true, if_false]
            cases hv : walk.visit walk.next.toNat record dead with
            | error fault => rfl
            | ok visited =>
              obtain ⟨next, marked⟩ := visited
              apply ih
              have hrecord : record ∈ history := by
                rw [← Log.map_addressed Log.origin history]
                exact List.mem_map_of_mem hm
              obtain ⟨slot, hslot, hkey, hnext⟩ := visit_next hv
              rw [hnext]
              exact reaches_previous ha h.linked hrecord hslot (by rw [hkey]; rfl)

theorem readChain_same (h : store.Keeps disk place history) (ho : other.Keeps opened place history)
    (hf : store.log.Fits) (hof : other.log.Fits) (ordinal : UInt8) (key : Bytes)
    (cancelled : Bool) (dead : DeadRecords) :
    (store.readChain ordinal key cancelled disk dead).1 =
      (other.readChain ordinal key cancelled opened dead).1 := by
  have ha : Addressable history := by
    rw [Addressable, ← h.tail_eq]
    exact hf.tail
  have htail : store.log.tail = other.log.tail := by rw [h.tail_eq, ho.tail_eq]
  have hheads : store.heads = other.heads := by rw [h.heads, ho.heads]
  obtain ⟨session, sessions, hs⟩ : ∃ session sessions, store.acquire =
      (session, { store with sessions }) := ⟨_, _, rfl⟩
  obtain ⟨resumed, others, hr⟩ : ∃ session sessions, other.acquire =
      (session, { other with sessions }) := ⟨_, _, rfl⟩
  have hk : Keeps { store with sessions } disk place history := h.congr rfl rfl rfl
  have hok : Keeps { other with sessions := others } opened place history := ho.congr rfl rfl rfl
  have hhead : Reaches history (store.heads.head (chainKey ordinal key)) := by
    rw [h.heads]
    exact reaches_head ha _
  rw [readChain, readChain, hs, hr]
  apply (walk_same hk hok hf hof ha cancelled (store.log.tail + 1)
    { ordinal, key, next := store.heads.head (chainKey ordinal key) } hhead session resumed dead).trans
  rw [htail, hheads]

structure Alike (left right : Store × Disk) (place : Path) (history : List LogRecord) : Prop where
  keepsLeft : left.1.Keeps left.2 place history
  keepsRight : right.1.Keeps right.2 place history
  readyLeft : left.1.awaitingRecovery = false
  readyRight : right.1.awaitingRecovery = false

variable {left right : Store × Disk}

namespace Alike

theorem adds_eq (h : Alike left right place history) (op : Op) :
    left.1.adds op = right.1.adds op := by
  have hheads : left.1.heads = right.1.heads := by rw [h.keepsLeft.heads, h.keepsRight.heads]
  cases op with
  | upsert session key id tombstone =>
    rw [adds, adds, h.readyLeft, h.readyRight, written, written, hheads]
  | _ => rfl

theorem step (h : Alike left right place history) {op : Op} (hf : op.Fits) :
    Alike (Store.step op left) (Store.step op right) place (history ++ left.1.adds op) where
  keepsLeft := h.keepsLeft.step hf
  keepsRight := by
    rw [h.adds_eq]
    exact h.keepsRight.step hf
  readyLeft := (step_same op left.1 left.2).awaitingRecovery.trans h.readyLeft
  readyRight := (step_same op right.1 right.2).awaitingRecovery.trans h.readyRight

theorem answer_eq (h : Alike left right place history) (hl : left.1.log.tail ≤ Disk.offsetLimit)
    (op : Op) : answer? op left = answer? op right := by
  have htail : left.1.log.tail = right.1.log.tail := by rw [h.keepsLeft.tail_eq,
      h.keepsRight.tail_eq]
  have hlimit : Disk.offsetLimit < UInt64.size := by decide
  cases op with
  | upsert session key id tombstone =>
    rw [answer?, answer?, upsert, upsert, checkRecovered, checkRecovered, h.readyLeft,
      h.readyRight, htail]
    rfl
  | readChain ordinal key =>
    have hf : left.1.log.Fits :=
      ⟨Nat.le_trans h.keepsLeft.holds.flushed_le hl, Nat.lt_of_le_of_lt hl hlimit⟩
    have hr : right.1.log.Fits :=
      ⟨Nat.le_trans h.keepsRight.holds.flushed_le (htail ▸ hl),
        Nat.lt_of_le_of_lt (htail ▸ hl) hlimit⟩
    rw [answer?, answer?, readChain_same h.keepsLeft h.keepsRight hf hr]
  | _ => rfl

/-- As long as its files can be addressed, a run has the same answers from both states. -/
theorem answers_eq (h : Alike left right place history) {ops : List Op}
    (hf : ∀ op ∈ ops, op.Fits) (hl : (run ops left).1.log.tail ≤ Disk.offsetLimit) :
    answers ops left = answers ops right := by
  induction ops generalizing left right history with
  | nil => rfl
  | cons op ops ih =>
    have hrun := h.keepsLeft.run hf
    have hbefore : left.1.log.tail ≤ (run (op :: ops) left).1.log.tail := by
      rw [h.keepsLeft.tail_eq, hrun.tail_eq, Log.image_append, List.length_append]
      omega
    rw [answers, answers, h.answer_eq (Nat.le_trans hbefore hl),
      ih (h.step (hf op List.mem_cons_self)) (fun other ho => hf other (List.mem_cons_of_mem op ho)) hl]

end Alike

end Store

end PredicateIndex
