import PredicateIndex.Proofs.SessionPools
import PredicateIndex.Store.Chain

/-!
# The accounts of the sessions

A session counts the records that are written through it. While it is out, its
commit point may lag behind; when it comes back, its commit point catches up,
whether the pool keeps the session or drops it. A session that is made later
resumes from the commit point of its id. So while no session is out, the commit
points are the accounts of all records, each under the id it was written through.
-/

set_option autoImplicit false

namespace PredicateIndex

structure LedgerEntry where
  writer : UInt64
  record : LogRecord

namespace LedgerEntry

def writtenBy (id : UInt64) (entries : List LedgerEntry) : Nat :=
  entries.countP fun entry => entry.writer = id

theorem writtenBy_le (id : UInt64) (entries : List LedgerEntry) :
    writtenBy id entries ≤ entries.length :=
  List.countP_le_length

theorem writtenBy_append_self (entries : List LedgerEntry) (id : UInt64) (record : LogRecord) :
    writtenBy id (entries ++ [⟨id, record⟩]) = writtenBy id entries + 1 := by
  simp [writtenBy]

theorem writtenBy_append_other (entries : List LedgerEntry) {id other : UInt64} (hne : other ≠ id)
    (record : LogRecord) :
    writtenBy other (entries ++ [⟨id, record⟩]) = writtenBy other entries := by
  simp [writtenBy, hne.symm]

theorem writtenBy_filter (entries : List LedgerEntry) (id other : UInt64) :
    writtenBy other (entries.filter fun entry => entry.writer ≠ id) =
      if other = id then 0 else writtenBy other entries := by
  rw [writtenBy, List.countP_filter]
  split
  · rename_i he
    simp [he]
  · rename_i hne
    refine List.countP_congr fun entry _ => ?_
    by_cases hw : entry.writer = other <;> simp [hw, hne]

end LedgerEntry

open LedgerEntry

namespace CommitPoints

def total : CommitPoints → Nat
  | [] => 0
  | point :: rest => point.2.toNat + total rest

theorem total_eq_length {points : CommitPoints} {entries : List LedgerEntry} (ha : points.Ascending)
    (h : ∀ id, ((points.lookup id).getD 0).toNat = writtenBy id entries) :
    points.total = entries.length := by
  induction points generalizing entries with
  | nil =>
    cases entries with
    | nil => rfl
    | cons entry rest =>
      have hnone := h entry.writer
      simp [writtenBy] at hnone
  | cons point rest ih =>
    obtain ⟨hfirst, hrest⟩ := List.pairwise_cons.mp ha
    have hpoint := h point.1
    rw [Lookup.cons_eq, if_pos rfl] at hpoint
    have hothers : total rest = (entries.filter fun entry => entry.writer ≠ point.1).length := by
      refine ih hrest fun id => ?_
      rw [writtenBy_filter]
      by_cases hid : id = point.1
      · have hnone : rest.lookup id = none := by
          refine Option.eq_none_iff_forall_ne_some.mpr fun serial hs => ?_
          exact UInt64.ne_of_lt (hfirst _ (Lookup.mem_of_eq_some hs)) hid.symm
        rw [hnone, if_pos hid]
        rfl
      · have hsame := h id
        rw [Lookup.cons_eq, if_neg hid] at hsame
        rw [hsame, if_neg hid]
    have hserial : point.2.toNat = writtenBy point.1 entries := hpoint
    rw [total, hserial, hothers, ← List.countP_eq_length_filter, writtenBy,
      entries.length_eq_countP_add_countP fun entry => entry.writer = point.1]
    congr 1
    exact List.countP_congr fun entry _ => by simp

end CommitPoints

namespace SessionPool

structure Accounts (points : CommitPoints) (entries : List LedgerEntry) : Prop where
  ascending : points.Ascending
  serial : ∀ id, (points.lookup id).getD 0 = UInt64.ofNat (writtenBy id entries)

structure Balanced (pool : SessionPool) (held : List Session) (entries : List LedgerEntry) :
    Prop where
  apart : ((held ++ pool.idle).map Session.id).Nodup
  issued : ∀ session ∈ held ++ pool.idle, session.id < pool.nextId
  counted : ∀ session ∈ held ++ pool.idle,
    session.serial = UInt64.ofNat (writtenBy session.id entries)
  /-- The commit point of an id may only lag behind while a session of this id is out. -/
  settled : ∀ id, (∀ session ∈ held, session.id ≠ id) →
    (pool.serial? id).getD 0 = UInt64.ofNat (writtenBy id entries)
  ascending : pool.commitPoints.Ascending

variable {pool : SessionPool} {held : List Session} {entries : List LedgerEntry}

/-- While no session is out the commit points are the accounts of all records. -/
theorem Balanced.accounts (h : pool.Balanced [] entries) : Accounts pool.commitPoints entries :=
  ⟨h.ascending, fun id => h.settled id (by simp)⟩

namespace Accounts

variable {points : CommitPoints}

theorem toNat_serial (h : Accounts points entries) (hl : entries.length < UInt64.size)
    (id : UInt64) : ((points.lookup id).getD 0).toNat = writtenBy id entries := by
  rw [h.serial id]
  exact UInt64.toNat_ofNat_of_lt' (Nat.lt_of_le_of_lt (writtenBy_le id entries) hl)

theorem total (h : Accounts points entries) (hl : entries.length < UInt64.size) :
    points.total = entries.length :=
  CommitPoints.total_eq_length h.ascending (h.toNat_serial hl)

theorem restore (h : Accounts points entries) (pool : SessionPool) :
    (SessionPool.restore points pool).Balanced [] entries := by
  have hpoints : (SessionPool.restore points pool).commitPoints = points :=
    CommitPoints.ofList_ascending h.ascending
  refine ⟨List.nodup_nil, by simp [SessionPool.restore], by simp [SessionPool.restore],
    fun id _ => ?_, by rw [hpoints]; exact h.ascending⟩
  rw [serial?, hpoints]
  exact h.serial id

end Accounts

section

variable {α : Type} {entries : List α} {place : Nat} {entry other : α}

theorem mem_set_of_ne (hp : entries[place]? = some entry) (ho : other ∈ entries)
    (hne : other ≠ entry) (after : α) : other ∈ entries.set place after := by
  obtain ⟨spot, hs⟩ := List.getElem?_of_mem ho
  refine List.mem_of_getElem? (i := spot) ?_
  rw [List.getElem?_set_ne, hs]
  rintro rfl
  exact hne (Option.some.inj (hs.symm.trans hp))

theorem mem_eraseIdx_of_ne (hp : entries[place]? = some entry) (ho : other ∈ entries)
    (hne : other ≠ entry) : other ∈ entries.eraseIdx place := by
  obtain ⟨hplace, hentry⟩ := List.getElem?_eq_some_iff.mp hp
  have hm := (List.getElem_cons_eraseIdx_perm hplace).symm.subset ho
  exact (List.mem_cons.mp hm).resolve_left (hentry ▸ hne)

end

theorem balanced_ofCapacity (capacity : Capacity) : (ofCapacity capacity).Balanced [] [] :=
  ⟨List.nodup_nil, by simp [ofCapacity], by simp [ofCapacity], fun _ _ => rfl, List.Pairwise.nil⟩

namespace Balanced

theorem acquire (h : pool.Balanced held entries)
    (hn : pool.idle = [] → pool.nextId.toNat + 1 < UInt64.size) :
    pool.acquire.2.Balanced (pool.acquire.1 :: held) entries := by
  cases hi : pool.idle with
  | cons session rest =>
    have hperm : (session :: held ++ rest).Perm (held ++ pool.idle) := by
      rw [hi]
      exact List.perm_middle.symm
    simp only [SessionPool.acquire, hi]
    refine ⟨(hperm.map _).nodup_iff.mpr h.apart, fun other ho => h.issued other (hperm.subset ho),
      fun other ho => h.counted other (hperm.subset ho), fun id hid => ?_, h.ascending⟩
    exact h.settled id fun other ho => hid other (List.mem_cons_of_mem session ho)
  | nil =>
    have hlt := lt_next (hn hi)
    have hfresh : ∀ session ∈ held ++ pool.idle, session.id ≠ pool.nextId :=
      fun session hs => UInt64.ne_of_lt (h.issued session hs)
    simp only [SessionPool.acquire, hi]
    have hidle : held ++ [] = held ++ pool.idle := by rw [hi]
    refine ⟨?_, ?_, ?_, fun id hid => ?_, h.ascending⟩
    · rw [List.cons_append, hidle, List.map_cons, List.nodup_cons]
      refine ⟨fun hm => ?_, h.apart⟩
      obtain ⟨session, hs, hid⟩ := List.mem_map.mp hm
      exact hfresh session hs hid
    · rw [List.cons_append, hidle]
      exact List.forall_mem_cons.mpr
        ⟨hlt, fun session hs => UInt64.lt_trans (h.issued session hs) hlt⟩
    · rw [List.cons_append, hidle]
      refine List.forall_mem_cons.mpr ⟨?_, h.counted⟩
      exact h.settled pool.nextId fun session hs => hfresh session (List.mem_append_left _ hs)
    · exact h.settled id fun other ho => hid other (List.mem_cons_of_mem _ ho)

theorem release (h : pool.Balanced held entries) {place : Nat} {session : Session}
    (hp : held[place]? = some session) :
    (pool.release session).Balanced (held.eraseIdx place) entries := by
  have hsub : List.Subperm (held.eraseIdx place ++ (pool.release session).idle)
      (held ++ pool.idle) := subperm_giveBack hp _
  have hmem : session ∈ held := List.mem_of_getElem? hp
  refine ⟨?_, fun other ho => h.issued other (hsub.subset ho),
    fun other ho => h.counted other (hsub.subset ho), fun id hid => ?_,
    CommitPoints.ascending_record h.ascending _ _⟩
  · obtain ⟨kept, hkept, hs⟩ := hsub
    exact (hkept.map _).nodup_iff.mp (h.apart.sublist (hs.map _))
  · rw [serial?_release]
    by_cases he : id = session.id
    · rw [if_pos he, he]
      exact h.counted session (List.mem_append_left _ hmem)
    · rw [if_neg he]
      refine h.settled id fun other ho hsame => ?_
      have hne : other ≠ session := by
        rintro rfl
        exact he hsame.symm
      exact hid other (mem_eraseIdx_of_ne hp ho hne) hsame

theorem work (h : pool.Balanced held entries) {place : Nat} {session after : Session}
    {more : List LedgerEntry} (hp : held[place]? = some session) (hid : after.id = session.id)
    (hcount : after.serial = UInt64.ofNat (writtenBy session.id more))
    (hothers : ∀ id, id ≠ session.id → writtenBy id more = writtenBy id entries) :
    pool.Balanced (held.set place after) more := by
  have hplace := (List.getElem?_eq_some_iff.mp hp).1
  have hmem : session ∈ held := List.mem_of_getElem? hp
  have hids : (held.set place after).map Session.id = held.map Session.id := map_set_eq hp hid
  have hapart : ((held.set place after ++ pool.idle).map Session.id).Nodup := by
    rw [List.map_append, hids, ← List.map_append]
    exact h.apart
  have hlive : ∀ other ∈ held.set place after ++ pool.idle,
      other = after ∨ other ∈ held ++ pool.idle ∧ other.id ≠ session.id := by
    intro other ho
    by_cases he : other = after
    · exact Or.inl he
    · refine Or.inr ⟨?_, fun hsame => he ?_⟩
      · rcases List.mem_append.mp ho with ho | ho
        · exact List.mem_append_left _ ((List.mem_or_eq_of_mem_set ho).resolve_right he)
        · exact List.mem_append_right _ ho
      · have hafter : after ∈ held.set place after ++ pool.idle :=
          List.mem_append_left _ (List.mem_set hplace after)
        exact List.inj_on_of_nodup_map hapart ho hafter (hsame.trans hid.symm)
  refine ⟨hapart, fun other ho => ?_, fun other ho => ?_, fun id hout => ?_, h.ascending⟩
  · rcases hlive other ho with rfl | ⟨ho, -⟩
    · rw [hid]
      exact h.issued session (List.mem_append_left _ hmem)
    · exact h.issued other ho
  · rcases hlive other ho with rfl | ⟨ho, hne⟩
    · rw [hid]
      exact hcount
    · rw [hothers other.id hne]
      exact h.counted other ho
  · have hne : id ≠ session.id :=
      fun he => hout after (List.mem_set hplace after) (hid.trans he.symm)
    rw [hothers id hne]
    refine h.settled id fun other ho hsame => ?_
    have hother : other ∈ held.set place after := by
      refine mem_set_of_ne hp ho ?_ after
      rintro rfl
      exact hne hsame.symm
    exact hout other hother hsame

theorem upsert (h : pool.Balanced held entries) {place : Nat} {session : Session}
    (hp : held[place]? = some session) (record : LogRecord) :
    pool.Balanced (held.set place session.completeWrite)
      (entries ++ [⟨session.id, record⟩]) := by
  have hmem : session ∈ held ++ pool.idle := List.mem_append_left _ (List.mem_of_getElem? hp)
  refine h.work hp rfl ?_ fun id hne => writtenBy_append_other entries hne record
  show session.serial + 1 = _
  rw [h.counted session hmem, writtenBy_append_self, UInt64.ofNat_add]
  rfl

theorem read (h : pool.Balanced held entries) {place : Nat} {session after : Session}
    (hp : held[place]? = some session) (hid : after.id = session.id)
    (hserial : after.serial = session.serial) : pool.Balanced (held.set place after) entries := by
  have hmem : session ∈ held ++ pool.idle := List.mem_append_left _ (List.mem_of_getElem? hp)
  exact h.work hp hid (hserial.trans (h.counted session hmem)) fun _ _ => rfl

end Balanced

end SessionPool

namespace Store

theorem read_session {store : Store} {session after : Session} {address : Nat}
    {status : ReadStatus} (h : store.read session address = .ok (status, after)) :
    after.id = session.id ∧ after.serial = session.serial := by
  rw [read] at h
  split at h
  · cases h
    exact ⟨rfl, rfl⟩
  · cases hr : store.log.resident address with
    | error fault =>
      rw [hr] at h
      cases h
    | ok bytes =>
      rw [hr] at h
      cases bytes with
      | none =>
        cases h
        exact ⟨rfl, rfl⟩
      | some bytes =>
        cases hd : LogRecord.decode bytes with
        | error fault =>
          simp only [hd, bind, Except.bind] at h
          cases h
        | ok record =>
          simp only [hd, bind, Except.bind] at h
          cases h
          exact ⟨rfl, rfl⟩

theorem fetch_session (store : Store) (session : Session) (address : Nat) (disk : Disk) :
    (store.fetch session address disk).2.id = session.id ∧
      (store.fetch session address disk).2.serial = session.serial := by
  rw [fetch]
  rcases hr : store.read session address with fault | ⟨status, after⟩
  · exact ⟨rfl, rfl⟩
  · have hsame := read_session hr
    cases status with
    | found record => exact hsame
    | notFound => exact hsame
    | pending read =>
      dsimp only
      split <;> exact hsame

theorem walk_session (store : Store) (cancelled : Bool) (disk : Disk) (steps : Nat)
    (walk : ChainWalk) (session : Session) (dead : DeadRecords) :
    (store.walk cancelled disk steps walk session dead).2.1.id = session.id ∧
      (store.walk cancelled disk steps walk session dead).2.1.serial = session.serial := by
  induction steps generalizing walk session dead with
  | zero =>
    rw [Store.walk]
    repeat' split
    all_goals exact ⟨rfl, rfl⟩
  | succ steps ih =>
    have hfetch := store.fetch_session session walk.next.toNat disk
    rw [Store.walk]
    split
    · exact ⟨rfl, rfl⟩
    · split
      · exact ⟨rfl, rfl⟩
      · split <;> rename_i hf <;> rw [hf] at hfetch
        · exact hfetch
        · exact hfetch
        · split
          · exact hfetch
          · obtain ⟨hid, hserial⟩ := ih _ _ _
            exact ⟨hid.trans hfetch.1, hserial.trans hfetch.2⟩

theorem balanced_readChain {store : Store} {held : List Session} {entries : List LedgerEntry}
    (h : store.sessions.Balanced held entries)
    (hn : store.sessions.idle = [] → store.sessions.nextId.toNat + 1 < UInt64.size)
    (ordinal : UInt8) (key : Bytes) (cancelled : Bool) (disk : Disk) (dead : DeadRecords) :
    (store.readChain ordinal key cancelled disk dead).2.1.sessions.Balanced held entries := by
  have hacquired := h.acquire hn
  have hfirst : (store.acquire.1 :: held)[0]? = some store.acquire.1 := rfl
  let start : ChainWalk := { ordinal, key, next := store.heads.head (chainKey ordinal key) }
  let walked := store.acquire.2.walk cancelled disk (store.log.tail + 1) start store.acquire.1 dead
  obtain ⟨hid, hserial⟩ := walk_session store.acquire.2 cancelled disk (store.log.tail + 1) start
    store.acquire.1 dead
  have hwalked : (walked.2.1 :: held)[0]? = some walked.2.1 := rfl
  exact (hacquired.read hfirst hid hserial).release hwalked

end Store

end PredicateIndex
