import PredicateIndex.Proofs.RecordOrder
import PredicateIndex.Proofs.StoreState

/-!
# Reading a chain

Following the previous addresses from a head visits the records of the chain,
newest first, whether they are in memory or on disk, and ends. A walk therefore
gives the ids whose newest record on the chain is no tombstone.
-/

set_option autoImplicit false

namespace PredicateIndex

namespace CompositeKey

def Ordered (key : CompositeKey) : Prop :=
  ∀ i slot, key[i]? = some slot → slot.ordinal = UInt8.ofNat i

theorem ordered_map {key : CompositeKey} {f : Slot → Slot} (h : key.Ordered)
    (hf : ∀ slot, (f slot).ordinal = slot.ordinal) : Ordered (key.map f) := by
  intro i slot hs
  rw [List.getElem?_map, Option.map_eq_some_iff] at hs
  obtain ⟨original, ho, rfl⟩ := hs
  rw [hf]
  exact h i original ho

theorem slot?_of_getElem? {key : CompositeKey} {i : Nat} {slot : Slot} (hi : i < 256)
    (h : key[i]? = some slot) : key.slot? (UInt8.ofNat i) = some slot := by
  rw [slot?, UInt8.toNat_ofNat_of_lt' hi]
  exact h

theorem mem_chains_iff {key : CompositeKey} (h : key.Ordered) (hl : key.length ≤ 255)
    (ordinal : UInt8) (name : Bytes) :
    chainKey ordinal name ∈ key.chains ↔
      ∃ slot, key.slot? ordinal = some slot ∧ slot.key = some name := by
  constructor
  · intro hm
    obtain ⟨slot, hs, hc⟩ := mem_chains.mp hm
    obtain ⟨i, hi, hg⟩ := List.getElem_of_mem hs
    have hslot : key[i]? = some slot := by rw [List.getElem?_eq_getElem hi, hg]
    rw [Slot.chain?, Option.map_eq_some_iff] at hc
    obtain ⟨found, hk, he⟩ := hc
    obtain ⟨ho, rfl⟩ := List.cons.inj he
    refine ⟨slot, ?_, hk⟩
    rw [← ho, h i slot hslot]
    exact slot?_of_getElem? (by omega) hslot
  · rintro ⟨slot, hs, hk⟩
    have ho : slot.ordinal = ordinal := by
      have hp := h _ _ hs
      rwa [UInt8.ofNat_toNat] at hp
    refine mem_chains.mpr ⟨slot, List.mem_of_getElem? hs, ?_⟩
    rw [Slot.chain?, hk, Option.map_some, ho]

end CompositeKey

instance : LawfulBEq Bytes := inferInstanceAs (LawfulBEq (List UInt8))

namespace Store

def onChain (chain : Bytes) (entries : List (Nat × LogRecord)) : List (Nat × LogRecord) :=
  entries.filter fun entry => chain ∈ entry.2.key.chains

def liveIn (id : RecordId) : List LogRecord → Bool
  | [] => false
  | record :: rest => if record.id = id then !record.tombstone else liveIn id rest

/-- Following the slots of a chain from an address reads the entries, in this order, and ends. -/
inductive Traversal (store : Store) (disk : Disk) (ordinal : UInt8) (key : Bytes) :
    UInt64 → List (Nat × LogRecord) → Prop
  | done : Traversal store disk ordinal key noAddress []
  | step {address : UInt64} {record : LogRecord} {slot : Slot} {rest : List (Nat × LogRecord)}
      (hn : address ≠ noAddress)
      (hf : ∀ session, (store.fetch session address.toNat disk).1 = .ok (some record))
      (hs : record.key.slot? ordinal = some slot) (hk : slot.key = some key)
      (hr : Traversal store disk ordinal key slot.previous rest) :
      Traversal store disk ordinal key address ((address.toNat, record) :: rest)

theorem onChain_append (chain : Bytes) (front back : List (Nat × LogRecord)) :
    onChain chain (front ++ back) = onChain chain front ++ onChain chain back :=
  List.filter_append front back

theorem onChain_singleton (chain : Bytes) (entry : Nat × LogRecord) :
    onChain chain [entry] = if chain ∈ entry.2.key.chains then [entry] else [] := by
  by_cases h : chain ∈ entry.2.key.chains <;> simp [onChain, h]

/-- The head of a chain is the address of the last record on it. -/
theorem lookup_headsOf (history : List LogRecord) (chain : Bytes) :
    (headsOf history).lookup chain =
      (onChain chain (Log.addressed Log.origin history)).getLast?.map
        fun entry => UInt64.ofNat entry.1 := by
  rcases List.eq_nil_or_concat history with rfl | ⟨front, record, rfl⟩
  · rfl
  · have ih := lookup_headsOf front chain
    rw [List.concat_eq_append, headsOf_snoc, lookup_relink, Log.addressed_append, onChain_append,
      Log.addressed, Log.addressed, onChain_singleton]
    by_cases h : chain ∈ record.key.chains
    · simp [h]
    · simp [h, ih]
termination_by history.length

theorem visit_slot {walk : ChainWalk} {record : LogRecord} {slot : Slot}
    (hs : record.key.slot? walk.ordinal = some slot) (hk : slot.key = some walk.key) :
    walk.slot? record = some slot := by
  rw [ChainWalk.slot?, hs]
  exact if_pos hk

/-- A walk along a traversal adds the ids that are live on it to those found before. -/
theorem walk_traversal {store : Store} {disk : Disk} {ordinal : UInt8} {key : Bytes}
    {address : UInt64} {path : List (Nat × LogRecord)}
    (h : Traversal store disk ordinal key address path) {steps : Nat} (hl : path.length ≤ steps)
    (tombstoned live : List RecordId) (ha : RecordId.Ascending live) (session : Session)
    (dead : DeadRecords) :
    ∃ ids, (store.walk false disk steps ⟨ordinal, key, address, tombstoned, live⟩ session dead).1 =
        .ok (some ids) ∧ RecordId.Ascending ids ∧
      ∀ id, id ∈ ids ↔ id ∈ live ∨ (id ∉ tombstoned ∧ liveIn id (path.map (·.2)) = true) := by
  induction h generalizing steps tombstoned live session dead with
  | done =>
    refine ⟨live, ?_, ha, fun id => by simp [liveIn]⟩
    rw [walk.eq_def]
    exact congrArg Prod.fst (if_pos rfl)
  | @step address record slot rest hn hf hs hk hr ih =>
    cases steps with
    | zero => simp at hl
    | succ steps =>
      have hl : rest.length ≤ steps := Nat.le_of_succ_le_succ hl
      have hfetch := hf session
      rw [walk]
      cases hfs : store.fetch session address.toNat disk with
      | mk result other =>
        rw [hfs] at hfetch
        obtain rfl : result = .ok (some record) := hfetch
        have hv : ChainWalk.slot? ⟨ordinal, key, address, tombstoned, live⟩ record = some slot :=
          visit_slot hs hk
        simp only [hn, Bool.false_eq_true, if_false, ChainWalk.visit, hv]
        by_cases ht : record.tombstone = true
        · obtain ⟨ids, hw, hi, hm⟩ := ih hl (record.id :: tombstoned) live ha other
            (dead.mark (chainKey ordinal key) record.id)
          refine ⟨ids, ?_, hi, fun id => ?_⟩
          · simp only [ht, if_true]
            exact hw
          · rw [hm id, List.map_cons, liveIn]
            by_cases hid : record.id = id
            · simp [hid, ht]
            · simp [hid, Ne.symm hid]
        · by_cases hd : record.id ∈ tombstoned
          · obtain ⟨ids, hw, hi, hm⟩ := ih hl tombstoned live ha other dead
            refine ⟨ids, ?_, hi, fun id => ?_⟩
            · simp only [ht, hd, Bool.false_eq_true, if_false, if_true]
              exact hw
            · rw [hm id, List.map_cons, liveIn]
              by_cases hid : record.id = id
              · subst hid
                simp [hd]
              · simp [hid]
          · obtain ⟨ids, hw, hi, hm⟩ := ih hl tombstoned (RecordId.insert record.id live)
              (RecordId.ascending_insert record.id ha) other dead
            refine ⟨ids, ?_, hi, fun id => ?_⟩
            · simp only [ht, hd, Bool.false_eq_true, if_false]
              exact hw
            · rw [hm id, List.map_cons, liveIn, RecordId.mem_insert]
              by_cases hid : record.id = id
              · subst hid
                simp [hd, ht]
              · simp [hid, Ne.symm hid]

theorem previous_of_link {heads : ChainHeads} {key : CompositeKey} (h : link heads key = key)
    {slot : Slot} (hs : slot ∈ key) {chain : Bytes} (hc : slot.chain? = some chain) :
    slot.previous = heads.head chain := by
  obtain ⟨i, hi, hg⟩ := List.getElem_of_mem hs
  have hslot : key[i]? = some slot := by rw [List.getElem?_eq_getElem hi, hg]
  have hl := congrArg (·[i]?) h
  simp only [link, List.getElem?_map, hslot, Option.map_some, hc, Option.some.injEq] at hl
  exact (congrArg Slot.previous hl).symm

theorem Logs.complete_pending {store : Store} {disk : Disk} {place : Path}
    {history : List LogRecord} (h : store.Logs disk place history) {address : Nat}
    {record : LogRecord} (hm : (address, record) ∈ Log.addressed Log.origin history)
    (hs : record.Storable) (hflushed : address + record.encodedLength ≤ store.log.flushed)
    (hlimit : address + 4 < Disk.offsetLimit) :
    (store.log.pendingRead address).complete disk = .ok record := by
  have hb := Log.addressed_bounds hm
  have hstart := h.start
  have hn : Path.Plain Log.fileName := by decide
  have hread : disk.readAt store.log.path address 4 = .ok (disk.content store.log.file) := by
    rw [h.path, Disk.readAt, h.homed.locate_child hn h.entry]
    show (if Disk.offsetLimit ≤ address + 4 then _ else _) = _
    rw [if_neg (by omega)]
    rfl
  obtain ⟨rest, hbytes⟩ := Log.drop_image hm
  have hlen : record.encode.length ≤ store.log.flushed - store.log.start -
      (address - store.log.start) := by
    rw [LogRecord.length_encode]
    omega
  have hcontent := h.holds.drop_content (show store.log.start ≤ address by omega) (by omega)
  rw [List.drop_take, hstart, hbytes, List.take_append, ← hstart, List.take_of_length_le hlen,
    List.append_assoc] at hcontent
  exact Log.complete_record hs hread hcontent

namespace Keeps

variable {store : Store} {disk : Disk} {place : Path} {history : List LogRecord}

theorem end_le_head (h : store.Keeps disk place history) {front back : List LogRecord}
    {record : LogRecord} (hs : history = front ++ record :: back)
    (hh : Log.origin + (Log.image front).length < store.log.head) :
    Log.origin + (Log.image front).length + record.encodedLength ≤ store.log.head := by
  obtain ⟨old, recent, ho, hd⟩ := h.aligned
  rw [hs] at ho
  rcases List.append_eq_append_iff.mp ho with ⟨more, rfl, hm⟩ | ⟨more, rfl, -⟩
  · cases more with
    | nil =>
      rw [List.append_nil] at hd
      omega
    | cons first more =>
      obtain ⟨rfl, -⟩ := List.cons.inj hm
      rw [Log.image_append, Log.image_cons, List.length_append, List.length_append,
        LogRecord.length_encode] at hd
      omega
  · rw [Log.image_append, List.length_append] at hh
    omega

theorem read (h : store.Keeps disk place history) {address : Nat} {record : LogRecord}
    (hm : (address, record) ∈ Log.addressed Log.origin history) :
    (∀ session, store.read session address = .ok (.found record, session)) ∨
      address + record.encodedLength ≤ store.log.flushed ∧
        ∀ session, store.read session address =
          .ok (.pending (store.log.pendingRead address), session.recordPending) := by
  obtain ⟨front, back, hs, ha⟩ := Log.mem_addressed.mp hm
  have hb := Log.addressed_bounds hm
  have hg := record.encodedLength_ge
  have hstart := h.start
  have htail := h.tail_eq
  have hrecord := h.storable record (Log.mem_of_addressed hm)
  have horigin : (0 : Nat) < Log.origin := by decide
  obtain ⟨rest, hbytes⟩ := Log.drop_image hm
  by_cases hh : store.log.head ≤ address
  · left
    intro session
    have hr := h.holds.resident_of_le hh (by omega)
    rw [hstart, hbytes] at hr
    rw [Store.read, if_neg (by omega), hr]
    simp only [bind, Except.bind, hrecord.decode, pure, Except.pure]
  · right
    have hend := h.end_le_head hs (by omega)
    have hflushed := h.holds.head_le
    refine ⟨by omega, ?_⟩
    intro session
    have hr : store.log.resident address = .ok none :=
      h.holds.resident_of_lt (by omega) (by omega)
    rw [Store.read, if_neg (by omega), hr]
    rfl

theorem fetch (h : store.Keeps disk place history) (hf : store.log.Fits) {address : Nat}
    {record : LogRecord} (hm : (address, record) ∈ Log.addressed Log.origin history)
    (session : Session) : (store.fetch session address disk).1 = .ok (some record) := by
  rcases h.read hm with hfound | ⟨hflushed, hpending⟩
  · rw [Store.fetch, hfound]
  · have hfit := hf.flushed
    have hg := record.encodedLength_ge
    have hrecord := h.storable record (Log.mem_of_addressed hm)
    have hc := h.toLogs.complete_pending hm hrecord hflushed (by omega)
    rw [Store.fetch, hpending]
    simp only [hc]

theorem traversal_front (h : store.Keeps disk place history) (hf : store.log.Fits)
    (ho : ∀ record ∈ history, record.key.Ordered) (ordinal : UInt8) (key : Bytes)
    (front back : List LogRecord) (hs : history = front ++ back) :
    Traversal store disk ordinal key ((headsOf front).head (chainKey ordinal key))
      (onChain (chainKey ordinal key) (Log.addressed Log.origin front)).reverse := by
  rcases List.eq_nil_or_concat front with hfront | ⟨first, record, hfront⟩
  · rw [hfront]
    exact .done
  · have hsplit : history = first ++ record :: back := by simp [hs, hfront]
    have ih := h.traversal_front hf ho ordinal key first (record :: back) hsplit
    have hmem : record ∈ history := by simp [hsplit]
    have hin : (Log.origin + (Log.image first).length, record) ∈
        Log.addressed Log.origin history := Log.mem_addressed.mpr ⟨first, back, hsplit, rfl⟩
    have hbound := Log.addressed_bounds hin
    have hfit := hf.tail
    have htail := h.tail_eq
    have hnat : (UInt64.ofNat (Log.origin + (Log.image first).length)).toNat =
        Log.origin + (Log.image first).length := by
      have hg := record.encodedLength_ge
      exact UInt64.toNat_ofNat_of_lt' (by omega)
    rw [hfront, List.concat_eq_append, headsOf_snoc, Log.addressed_append, onChain_append,
      ChainHeads.head, lookup_relink,
      Log.addressed, Log.addressed, onChain_singleton]
    by_cases hc : chainKey ordinal key ∈ record.key.chains
    · have hlen := (h.storable record hmem).1.1
      obtain ⟨slot, hslot, hk⟩ :=
        (CompositeKey.mem_chains_iff (ho record hmem) hlen ordinal key).mp hc
      have hchain : slot.chain? = some (chainKey ordinal key) := by
        have hp := ho record hmem _ _ hslot
        rw [UInt8.ofNat_toNat] at hp
        rw [Slot.chain?, hk, Option.map_some, hp]
      have hprev := previous_of_link (h.linked first record back hsplit)
        (List.mem_of_getElem? hslot) hchain
      simp only [hc, if_true, Option.getD_some, List.reverse_append, List.reverse_singleton,
        List.singleton_append]
      rw [← hprev] at ih
      have hne : UInt64.ofNat (Log.origin + (Log.image first).length) ≠ noAddress := by
        intro hz
        have hz := congrArg UInt64.toNat hz
        rw [hnat] at hz
        have horigin : Log.origin = 64 := rfl
        have hno : noAddress.toNat = 0 := rfl
        omega
      have hread : ∀ session, (store.fetch session
          (UInt64.ofNat (Log.origin + (Log.image first).length)).toNat disk).1 =
            .ok (some record) := by
        intro session
        rw [hnat]
        exact h.fetch hf hin session
      have hstep := Traversal.step hne hread hslot hk ih
      rwa [hnat] at hstep
    · simp only [hc, if_false, List.append_nil]
      exact ih
termination_by front.length
decreasing_by
  rw [hfront]
  simp

/-- From its head a chain leads to all records of the store that are on it, newest first. -/
theorem traversal (h : store.Keeps disk place history) (hf : store.log.Fits)
    (ho : ∀ record ∈ history, record.key.Ordered) (ordinal : UInt8) (key : Bytes) :
    Traversal store disk ordinal key (store.heads.head (chainKey ordinal key))
      (onChain (chainKey ordinal key) (Log.addressed Log.origin history)).reverse := by
  rw [h.heads]
  exact h.traversal_front hf ho ordinal key history [] (List.append_nil history).symm

/-- Reading a chain gives its live ids, whatever ids other walks have met as dead. -/
theorem readChain (h : store.Keeps disk place history) (hf : store.log.Fits)
    (ho : ∀ record ∈ history, record.key.Ordered) (ordinal : UInt8) (key : Bytes)
    (dead : DeadRecords) :
    ∃ ids, (store.readChain ordinal key false disk dead).1 = .ok (some ids) ∧
      RecordId.Ascending ids ∧ ∀ id, id ∈ ids ↔ liveIn id
        ((onChain (chainKey ordinal key) (Log.addressed Log.origin history)).reverse.map (·.2)) =
          true := by
  obtain ⟨session, other, hsession⟩ : ∃ session other, store.acquire = (session, other) := ⟨_, _, rfl⟩
  have hlog : other.log = store.log := by
    rw [acquire] at hsession
    exact congrArg (Store.log ·.2) hsession.symm
  have hheads : other.heads = store.heads := by
    rw [acquire] at hsession
    exact congrArg (Store.heads ·.2) hsession.symm
  have hdir : other.dir = store.dir := by
    rw [acquire] at hsession
    exact congrArg (Store.dir ·.2) hsession.symm
  have hk := h.congr hdir hlog hheads
  have ht := hk.traversal (hlog ▸ hf) ho ordinal key
  have hl : (onChain (chainKey ordinal key) (Log.addressed Log.origin history)).reverse.length ≤
      other.log.tail + 1 := by
    have hfilter := List.length_filter_le (fun entry => decide (chainKey ordinal key ∈ entry.2.key.chains))
      (Log.addressed Log.origin history)
    have hmap := congrArg List.length (Log.map_addressed Log.origin history)
    have himage := Log.length_le_image history
    have htail := hk.tail_eq
    rw [List.length_map] at hmap
    rw [List.length_reverse, onChain]
    omega
  obtain ⟨ids, hw, hi, hm⟩ := walk_traversal ht hl [] [] List.Pairwise.nil session dead
  refine ⟨ids, ?_, hi, fun id => by simpa using hm id⟩
  rw [Store.readChain, hsession]
  exact hw

end Keeps

end Store

end PredicateIndex
