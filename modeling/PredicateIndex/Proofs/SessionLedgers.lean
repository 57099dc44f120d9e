import PredicateIndex.Proofs.ChainSemantics
import PredicateIndex.Proofs.SessionAccounts
import PredicateIndex.Proofs.StoreStages

/-!
# The ledger of a store

A ledger is a store together with the sessions that are out, and with notes: the
records in the log with the sessions that they were written through, now and when
each checkpoint was captured. Sessions are borrowed, used and given back in any
order, checkpoints are taken, and the store is closed, opened again and recovered
any number of times. Whenever no session is out, the commit points are the
accounts of the records in the log.
-/

set_option autoImplicit false

namespace PredicateIndex

open LedgerEntry

def Store.Op.lends : Store.Op → Bool
  | acquire | release _ | readChain _ _ => true
  | _ => false

theorem Store.sessions_step {op : Store.Op} (h : op.lends = false) (store : Store) (disk : Disk) :
    (Store.step op (store, disk)).1.sessions = store.sessions := by
  have hd := does_step op store disk
  generalize step op (store, disk) = after at hd ⊢
  cases hd with
  | written =>
    rw [evictIfFull]
    split <;> rfl
  | complete =>
    obtain ⟨log, captured, last, -, hsame⟩ := complete_same store disk
    rw [hsame]
  | acquire | release | readChain => cases h
  | _ => rfl

structure Ledger where
  course : Course
  /-- The sessions that are out. -/
  held : List Session := []
  entries : List LedgerEntry := []
  /-- What was in the log when a checkpoint was captured, newest first. -/
  noted : List (Token × List LedgerEntry) := []

namespace Ledger

inductive Deed where
  | acquire
  | release (place : Nat)
  | upsert (place : Nat) (key : CompositeKey) (id : RecordId) (tombstone : Bool)
  | read (place address : Nat)
  | readChain (ordinal : UInt8) (key : Bytes)
  | flush
  | evict
  | take (kind : CheckpointKind) (token : Token)
  | abort (token : Token)
  | complete
  /-- The store is closed and opened again; sessions that were out are gone. -/
  | restart (config : Config)
  | recover (index log : Option Token)

def ofStore (store : Store) (disk : Disk) : Ledger := { course := { store, disk } }

def records (ledger : Ledger) : List LogRecord := ledger.entries.map LedgerEntry.record

def work (op : Store.Op) (ledger : Ledger) : Ledger :=
  { ledger with course := ledger.course.step op }

def onHeld (place : Nat) (use : Session → Ledger → Ledger) (ledger : Ledger) : Ledger :=
  match ledger.held[place]? with
  | some session => use session ledger
  | none => ledger

def acquire (ledger : Ledger) : Ledger :=
  { ledger with
    course := ledger.course.step .acquire
    held := ledger.course.store.acquire.1 :: ledger.held }

def release (place : Nat) (session : Session) (ledger : Ledger) : Ledger :=
  { ledger with
    course := ledger.course.step (.release session)
    held := ledger.held.eraseIdx place }

def upsert (place : Nat) (key : CompositeKey) (id : RecordId) (tombstone : Bool)
    (session : Session) (ledger : Ledger) : Ledger :=
  match ledger.course.store.upsert session key id tombstone ledger.course.disk with
  | .ok (_, after, _, _) =>
    { ledger with
      course := ledger.course.step (.upsert session key id tombstone)
      held := ledger.held.set place after
      entries := ledger.entries ++ [⟨session.id, ledger.course.store.written key id tombstone⟩] }
  | .error _ => ledger

def read (place address : Nat) (session : Session) (ledger : Ledger) : Ledger :=
  match ledger.course.store.read session address with
  | .ok (_, after) => { ledger with held := ledger.held.set place after }
  | .error _ => ledger

def take (kind : CheckpointKind) (token : Token) (ledger : Ledger) : Ledger :=
  match ledger.course.store.take kind token with
  | .ok (true, _) =>
    { ledger with
      course := ledger.course.step (.take kind token)
      noted := (token, ledger.entries) :: ledger.noted }
  | _ => ledger

def restart (config : Config) (ledger : Ledger) : Ledger :=
  let course := ledger.course
  match Store.open? course.store.dir config (course.store.close course.disk) with
  | (.ok store, disk) =>
    { course := { store, disk, completed := course.completed }, noted := ledger.noted }
  | (.error _, disk) => { ledger with course := { course with disk } }

def recover (index log : Option Token) (ledger : Ledger) : Ledger :=
  match ledger.course.store.recover index log ledger.course.disk with
  | (.ok token, store, disk) =>
    { ledger with
      course := { ledger.course with store, disk }
      entries := (ledger.noted.lookup token).getD [] }
  | (.error _, store, disk) => { ledger with course := { ledger.course with store, disk } }

def step : Deed → Ledger → Ledger
  | .acquire => acquire
  | .release place => onHeld place (release place)
  | .upsert place key id tombstone => onHeld place (upsert place key id tombstone)
  | .read place address => onHeld place (read place address)
  | .readChain ordinal key => work (.readChain ordinal key)
  | .flush => work .flush
  | .evict => work .evict
  | .take kind token => take kind token
  | .abort token => work (.abort token)
  | .complete => work .complete
  | .restart config => restart config
  | .recover index log => recover index log

def run : List Deed → Ledger → Ledger
  | [], ledger => ledger
  | deed :: deeds, ledger => run deeds (step deed ledger)

def captures (kind : CheckpointKind) (token : Token) (ledger : Ledger) : Bool :=
  match ledger.course.store.take kind token with
  | .ok (true, _) => true
  | _ => false

def refuses (index log : Option Token) (ledger : Ledger) : Bool :=
  !ledger.course.store.log.isEmpty ||
    match ledger.course.store.recoverySource index log ledger.course.disk with
    | .ok _ => false
    | .error _ => true

def HasId (ledger : Ledger) : Prop :=
  ledger.course.store.sessions.idle = [] →
    ledger.course.store.sessions.nextId.toNat + 1 < UInt64.size

/-- Tokens ascend, and no session is out while the commit points are captured. -/
def MayCapture (kind : CheckpointKind) (token : Token) (ledger : Ledger) : Prop :=
  (∀ moment ∈ ledger.course.moments, moment.token.value < token.value) ∧
    (kind.hasLog = true → ledger.held = [])

def Chooses (index log : Option Token) (ledger : Ledger) : Prop :=
  ∀ moment ∈ ledger.course.completed.find? (·.kind.hasLog), moment.kind = .full ∧
    (∀ token ∈ index, token = moment.token) ∧ ∀ token ∈ log, token = moment.token

/-- A recovery that goes ahead is awaited, of the newest full checkpoint, and the lengths of the
checkpoint parts fit their words. -/
def MayRecover (index log : Option Token) (ledger : Ledger) : Prop :=
  ledger.course.store.awaitingRecovery = true ∧ (∀ moment ∈ ledger.course.completed, moment.Fits) ∧
    ledger.Chooses index log

def Admits : Deed → Ledger → Prop
  | .acquire, ledger | .readChain _ _, ledger => ledger.HasId
  | .take kind token, ledger => ledger.captures kind token = true → ledger.MayCapture kind token
  | .recover index log, ledger =>
    ledger.held = [] ∧ (ledger.refuses index log = false → ledger.MayRecover index log)
  | _, _ => True

def AdmitsAll : List Deed → Ledger → Prop
  | [], _ => True
  | deed :: deeds, ledger => Admits deed ledger ∧ AdmitsAll deeds (step deed ledger)

instance (ledger : Ledger) : Decidable ledger.HasId := inferInstanceAs (Decidable (_ → _))

instance (kind : CheckpointKind) (token : Token) (ledger : Ledger) :
    Decidable (ledger.MayCapture kind token) := inferInstanceAs (Decidable (_ ∧ _))

instance (index log : Option Token) (ledger : Ledger) : Decidable (ledger.Chooses index log) :=
  inferInstanceAs (Decidable (∀ moment ∈ ledger.course.completed.find? (·.kind.hasLog),
    moment.kind = .full ∧ (∀ token ∈ index, token = moment.token) ∧
      ∀ token ∈ log, token = moment.token))

instance (index log : Option Token) (ledger : Ledger) : Decidable (ledger.MayRecover index log) :=
  inferInstanceAs (Decidable (_ ∧ _ ∧ _))

instance decidableAdmits : (deed : Deed) → (ledger : Ledger) → Decidable (Admits deed ledger)
  | .acquire, ledger | .readChain _ _, ledger => inferInstanceAs (Decidable ledger.HasId)
  | .take kind token, ledger => inferInstanceAs
    (Decidable (ledger.captures kind token = true → ledger.MayCapture kind token))
  | .recover index log, ledger => inferInstanceAs (Decidable
    (ledger.held = [] ∧ (ledger.refuses index log = false → ledger.MayRecover index log)))
  | .release _, _ | .upsert _ _ _ _, _ | .read _ _, _ | .flush, _ | .evict, _ | .abort _, _
  | .complete, _ | .restart _, _ => isTrue trivial

instance decidableAdmitsAll :
    (deeds : List Deed) → (ledger : Ledger) → Decidable (AdmitsAll deeds ledger)
  | [], _ => isTrue trivial
  | deed :: deeds, ledger =>
    have := decidableAdmitsAll deeds (step deed ledger)
    inferInstanceAs (Decidable (Admits deed ledger ∧ AdmitsAll deeds (step deed ledger)))

structure Notes (place : Path) (moment : Moment) (entries : List LedgerEntry) : Prop where
  logs : moment.store.Logs moment.disk place (entries.map LedgerEntry.record)
  accounts : SessionPool.Accounts moment.store.sessions.commitPoints entries

structure Sound (ledger : Ledger) (place : Path) : Prop where
  stage : ledger.course.Stage place ledger.records
  balanced : ledger.course.store.sessions.Balanced ledger.held ledger.entries
  noted : ∀ moment ∈ ledger.course.moments, moment.kind.hasLog = true →
    Notes place moment ((ledger.noted.lookup moment.token).getD [])

variable {ledger : Ledger} {place : Path}

theorem sessions_course (op : Store.Op) (course : Course) :
    (course.step op).store.sessions =
      (Store.step op (course.store, course.disk)).1.sessions :=
  congrArg (·.1.sessions) (Course.step_state op course)

theorem Sound.quiet (h : ledger.Sound place) {op : Store.Op} (ht : op.token? = none)
    (hr : op.record? = none) {held : List Session}
    (hb : (Store.step op (ledger.course.store, ledger.course.disk)).1.sessions.Balanced held
      ledger.entries) :
    Sound { ledger with course := ledger.course.step op, held } place := by
  have hstage : (ledger.course.step op).Stage place
      (ledger.records ++ ledger.course.store.adds op) := h.stage.step (by simp [ht])
  rw [Store.adds_eq_nil ledger.course.store hr, List.append_nil] at hstage
  refine ⟨hstage, sessions_course op ledger.course ▸ hb, fun moment hm hk => ?_⟩
  rcases Course.mem_moments_step hm with hm | ⟨kind, token, rfl, -⟩
  · exact h.noted moment hm hk
  · cases ht

theorem Sound.work (h : ledger.Sound place) {op : Store.Op} (hl : op.lends = false)
    (ht : op.token? = none) (hr : op.record? = none) : (ledger.work op).Sound place := by
  refine h.quiet ht hr ?_
  rw [Store.sessions_step hl]
  exact h.balanced

theorem Sound.readChain (h : ledger.Sound place) (hi : ledger.HasId) (ordinal : UInt8)
    (key : Bytes) : (ledger.work (.readChain ordinal key)).Sound place :=
  h.quiet rfl rfl (Store.balanced_readChain h.balanced hi ordinal key false _ [])

theorem Sound.acquire (h : ledger.Sound place) (hi : ledger.HasId) : ledger.acquire.Sound place :=
  h.quiet rfl rfl (h.balanced.acquire hi)

theorem Sound.release (h : ledger.Sound place) {spot : Nat} {session : Session}
    (hs : ledger.held[spot]? = some session) : (ledger.release spot session).Sound place :=
  h.quiet rfl rfl (h.balanced.release hs)

theorem Sound.upsert (h : ledger.Sound place) {spot : Nat} {session : Session}
    (hs : ledger.held[spot]? = some session) (key : CompositeKey) (id : RecordId)
    (tombstone : Bool) : (ledger.upsert spot key id tombstone session).Sound place := by
  cases hr : ledger.course.store.awaitingRecovery with
  | true =>
    have hfails : ledger.upsert spot key id tombstone session = ledger := by
      rw [Ledger.upsert, Store.upsert_awaiting hr]
    rwa [hfails]
  | false =>
    have hwrites : ledger.upsert spot key id tombstone session =
        { ledger with
          course := ledger.course.step (.upsert session key id tombstone)
          held := ledger.held.set spot session.completeWrite
          entries := ledger.entries ++
            [⟨session.id, ledger.course.store.written key id tombstone⟩] } := by
      rw [Ledger.upsert, Store.upsert, Store.checkRecovered, hr]
      rfl
    rw [hwrites]
    have hstage : (ledger.course.step (.upsert session key id tombstone)).Stage place
        (ledger.records ++ ledger.course.store.adds (.upsert session key id tombstone)) :=
      h.stage.step fun _ ht => by cases ht
    refine ⟨?_, ?_, fun moment hm hk => ?_⟩
    · rw [Store.adds, if_neg (by simp [hr])] at hstage
      rw [records, List.map_append]
      exact hstage
    · rw [sessions_course, Store.sessions_step rfl]
      exact h.balanced.upsert hs _
    · rcases Course.mem_moments_step hm with hm | ⟨_, _, hop, -⟩
      · exact h.noted moment hm hk
      · cases hop

theorem Sound.read (h : ledger.Sound place) {spot : Nat} {session : Session}
    (hs : ledger.held[spot]? = some session) (address : Nat) :
    (ledger.read spot address session).Sound place := by
  rw [Ledger.read]
  rcases hr : ledger.course.store.read session address with fault | ⟨status, after⟩
  · exact h
  · obtain ⟨hid, hserial⟩ := Store.read_session hr
    exact ⟨h.stage, h.balanced.read hs hid hserial, h.noted⟩

theorem Sound.take (h : ledger.Sound place) {kind : CheckpointKind} {token : Token}
    (ha : ledger.captures kind token = true → ledger.MayCapture kind token) :
    (ledger.take kind token).Sound place := by
  rw [captures] at ha
  rw [Ledger.take]
  split
  · rename_i after htake
    rw [htake] at ha
    obtain ⟨hascends, hnone⟩ := ha rfl
    have hstage : (ledger.course.step (.take kind token)).Stage place
        (ledger.records ++ ledger.course.store.adds (.take kind token)) := by
      refine h.stage.step fun other ho => ?_
      obtain rfl := Option.some.inj ho
      exact hascends
    rw [Store.adds_eq_nil ledger.course.store rfl, List.append_nil] at hstage
    refine ⟨hstage, ?_, fun moment hm hk => ?_⟩
    · rw [sessions_course, Store.sessions_step rfl]
      exact h.balanced
    · rw [Lookup.cons_eq]
      rcases Course.mem_moments_step hm with hold | ⟨_, _, hop, rfl⟩
      · have hne : moment.token ≠ token := by
          rintro rfl
          exact UInt64.lt_irrefl _ (hascends moment hold)
        rw [if_neg hne]
        exact h.noted moment hold hk
      · cases hop
        rw [if_pos rfl]
        have hbalanced := h.balanced
        rw [hnone hk] at hbalanced
        exact ⟨h.stage.logs, hbalanced.accounts⟩
  · exact h

theorem Sound.restart (h : ledger.Sound place) (config : Config) :
    (ledger.restart config).Sound place := by
  obtain ⟨store, opened, hopen, hsessions, hstage⟩ := Course.Stage.opened h.stage.left config
  rw [Ledger.restart]
  simp only [hopen]
  refine ⟨hstage, hsessions ▸ SessionPool.balanced_ofCapacity _, fun moment hm hk => ?_⟩
  exact h.noted moment (List.mem_append_right _ hm) hk

theorem recover_of_refuses {index log : Option Token} (h : ledger.refuses index log = true) :
    ∃ fault, ledger.course.store.recover index log ledger.course.disk =
      (.error fault, ledger.course.store, ledger.course.disk) := by
  rw [refuses, Bool.or_eq_true] at h
  rcases h with hempty | hsource
  · exact ⟨.storeNotEmpty, by rw [Store.recover, if_pos hempty]⟩
  · rw [Store.recover]
    split
    · exact ⟨.storeNotEmpty, rfl⟩
    · split at hsource
      · cases hsource
      · rename_i fault hs
        exact ⟨fault, by rw [hs]⟩

/-- A recovery that is refused changes nothing, and one that goes ahead gives back the accounts of
the records that it gives back. -/
theorem Sound.recover (h : ledger.Sound place) {index log : Option Token} (hheld : ledger.held = [])
    (ha : ledger.refuses index log = false → ledger.MayRecover index log) :
    (ledger.recover index log).Sound place := by
  cases hr : ledger.refuses index log with
  | true =>
    obtain ⟨fault, hrecover⟩ := recover_of_refuses hr
    rw [Ledger.recover, hrecover]
    exact h
  | false =>
    obtain ⟨hawaits, hfits, hchosen⟩ := ha hr
    obtain ⟨moment, hn, hall⟩ := h.stage.recover hawaits hfits hchosen
    have hm := List.mem_of_find?_eq_some hn
    have hlogged := List.find?_some hn
    obtain ⟨hlogs, haccounts⟩ := h.noted moment (List.mem_append_right _ hm) hlogged
    obtain ⟨recovered, other, hrecover, hsessions, hstage⟩ := hall _ hlogs
    rw [Ledger.recover, hrecover]
    refine ⟨hstage, ?_, h.noted⟩
    rw [hheld]
    exact hsessions ▸ haccounts.restore _

theorem Sound.onHeld (h : ledger.Sound place) {spot : Nat} {use : Session → Ledger → Ledger}
    (hu : ∀ session, ledger.held[spot]? = some session → (use session ledger).Sound place) :
    (ledger.onHeld spot use).Sound place := by
  rw [Ledger.onHeld]
  split
  · exact hu _ ‹_›
  · exact h

theorem Sound.step (h : ledger.Sound place) {deed : Deed} (ha : Admits deed ledger) :
    (step deed ledger).Sound place := by
  cases deed with
  | acquire => exact h.acquire ha
  | release spot => exact h.onHeld fun session hs => h.release hs
  | upsert spot key id tombstone => exact h.onHeld fun session hs => h.upsert hs key id tombstone
  | read spot address => exact h.onHeld fun session hs => h.read hs address
  | readChain ordinal key => exact h.readChain ha ordinal key
  | take kind token => exact h.take ha
  | restart config => exact h.restart config
  | recover index log => exact h.recover ha.1 ha.2
  | flush | evict | abort | complete => exact h.work rfl rfl rfl

theorem Sound.run {deeds : List Deed} (h : ledger.Sound place) (ha : AdmitsAll deeds ledger) :
    (run deeds ledger).Sound place := by
  induction deeds generalizing ledger with
  | nil => exact h
  | cons deed deeds ih => exact ih (h.step ha.1) ha.2

def Deed.Fits : Deed → Prop
  | upsert _ key _ _ => key.Fits
  | _ => True

instance (deed : Deed) : Decidable deed.Fits :=
  match deed with
  | .upsert _ key _ _ => inferInstanceAs (Decidable key.Fits)
  | .acquire | .release _ | .read _ _ | .readChain _ _ | .flush | .evict | .take _ _ | .abort _
  | .complete | .restart _ | .recover _ _ => isTrue trivial

def Storable (ledger : Ledger) : Prop :=
  (∀ entry ∈ ledger.entries, entry.record.Storable) ∧
    ∀ note ∈ ledger.noted, ∀ entry ∈ note.2, entry.record.Storable

theorem Storable.step (h : ledger.Storable) {deed : Deed} (hf : deed.Fits) :
    (Ledger.step deed ledger).Storable := by
  cases deed with
  | upsert spot key id tombstone =>
    rw [Ledger.step, onHeld]
    split
    · rw [Ledger.upsert]
      split
      · refine ⟨List.forall_mem_append.mpr ⟨h.1, ?_⟩, h.2⟩
        rw [List.forall_mem_singleton]
        exact LogRecord.storable_stored (Store.fits_link _ hf)
      · exact h
    · exact h
  | release spot =>
    rw [Ledger.step, onHeld]
    split <;> exact h
  | read spot address =>
    rw [Ledger.step, onHeld]
    split
    · rw [Ledger.read]
      split <;> exact h
    · exact h
  | take kind token =>
    rw [Ledger.step, Ledger.take]
    split
    · exact ⟨h.1, List.forall_mem_cons.mpr ⟨h.1, h.2⟩⟩
    · exact h
  | restart config =>
    rw [Ledger.step, Ledger.restart]
    split
    · exact ⟨by simp, h.2⟩
    · exact h
  | recover index log =>
    rw [Ledger.step, Ledger.recover]
    split
    · rename_i token store disk hr
      refine ⟨fun entry he => ?_, h.2⟩
      cases hl : ledger.noted.lookup token with
      | none => simp [hl] at he
      | some entries =>
        rw [hl] at he
        exact h.2 _ (Lookup.mem_of_eq_some hl) entry he
    · exact h
  | acquire | readChain | flush | evict | abort | complete => exact h

theorem Storable.run {deeds : List Deed} (h : ledger.Storable) (hf : ∀ deed ∈ deeds, deed.Fits) :
    (Ledger.run deeds ledger).Storable := by
  induction deeds generalizing ledger with
  | nil => exact h
  | cons deed deeds ih =>
    have hstep := h.step (hf deed List.mem_cons_self)
    exact ih hstep fun other ho => hf other (List.mem_cons_of_mem deed ho)

/-- Addresses that fit a word leave no more records than a word can count. -/
theorem Sound.length_lt (h : ledger.Sound place)
    (hl : ledger.course.store.log.tail ≤ UInt64.size) : ledger.entries.length < UInt64.size := by
  have htail := h.stage.logs.tail_eq
  have hrecords := Log.length_le_image ledger.records
  have hsame : ledger.records.length = ledger.entries.length := List.length_map _
  have horigin : 0 < Log.origin := by decide
  omega

/-- A store is opened in an empty directory with a pool of any capacity, and then sessions are
borrowed, used and given back in any order, checkpoints are taken and the store is closed and opened
any number of times, with the newest full checkpoint recovered, where no session is out when commit
points are captured or restored. Then the log has just the records of the ledger, and whenever no
session is out, the serial numbers of the commit points add up to their number, and each id has a
serial number that is the number of those written through it. -/
theorem accounts_of_run {disk : Disk} {dir : Path} (hempty : disk.EmptyDir dir place)
    (config : Config) :
    ∃ store opened, Store.open? dir config disk = (.ok store, opened) ∧
      ∀ deeds, AdmitsAll deeds (ofStore store opened) →
        let ledger := run deeds (ofStore store opened)
        ledger.course.store.Logs ledger.course.disk place ledger.records ∧
        ((∀ deed ∈ deeds, deed.Fits) → ∃ read,
          ledger.course.store.records ledger.course.disk = .ok read ∧
            read.map Prod.snd = ledger.records) ∧
        (ledger.course.store.log.tail ≤ UInt64.size → ledger.held = [] →
          let pool := ledger.course.store.sessions
          pool.commitPoints.total = ledger.records.length ∧
          (∀ id, ((pool.serial? id).getD 0).toNat = writtenBy id ledger.entries) ∧
          ∀ session ∈ pool.idle, session.serial.toNat = writtenBy session.id ledger.entries) := by
  obtain ⟨store, opened, hopen, hsessions, hstage⟩ := Course.Stage.opened hempty.left config
  have hstart : (ofStore store opened).Sound place := by
    refine ⟨hstage, ?_, by simp [ofStore, Course.moments]⟩
    exact hsessions ▸ SessionPool.balanced_ofCapacity _
  refine ⟨store, opened, hopen, fun deeds ha => ?_⟩
  have hsound := hstart.run ha
  refine ⟨hsound.stage.logs, fun hf => ?_, fun hl hheld => ?_⟩
  · have hnew : (ofStore store opened).Storable := ⟨by simp [ofStore], by simp [ofStore]⟩
    have hstorable := (hnew.run hf).1
    refine ⟨_, hsound.stage.logs.records fun record hm => ?_, Log.map_addressed _ _⟩
    obtain ⟨entry, he, rfl⟩ := List.mem_map.mp hm
    exact hstorable entry he
  · have hlength := hsound.length_lt hl
    have hbalanced := hsound.balanced
    rw [hheld] at hbalanced
    have haccounts := hbalanced.accounts
    refine ⟨?_, haccounts.toNat_serial hlength, fun session hs => ?_⟩
    · rw [records, List.length_map]
      exact haccounts.total hlength
    · rw [hbalanced.counted session hs]
      exact UInt64.toNat_ofNat_of_lt' (Nat.lt_of_le_of_lt (writtenBy_le _ _) hlength)

def noneKept : Config := { sessionPoolSize := ⟨0, by decide⟩ }

def twoLives : List Deed :=
  let key : CompositeKey := [{ ordinal := 0, key := some [97] }]
  [.acquire, .upsert 0 key ⟨1, 1⟩ false, .release 0, .take .full ⟨1⟩, .complete,
    .restart noneKept, .recover none none, .acquire, .upsert 0 key ⟨2, 1⟩ false,
    .release 0]

def twoLivesAccounts : Bool :=
  match Store.open? ["db"] noneKept (Disk.withDir "db") with
  | (.ok store, opened) =>
    let ledger := run twoLives (ofStore store opened)
    decide (AdmitsAll twoLives (ofStore store opened) ∧
      (ledger.held = [] ∧ ledger.course.store.log.tail ≤ UInt64.size) ∧
      ledger.entries.map LedgerEntry.writer = [1, 1] ∧
      ledger.course.store.sessions.commitPoints = [(1, 2)])
  | (.error _, _) => false

theorem accounts_of_two_lives : ∃ (store : Store) (opened : Disk),
    Store.open? ["db"] noneKept (Disk.withDir "db") = (.ok store, opened) ∧
      AdmitsAll twoLives (ofStore store opened) ∧ (∀ deed ∈ twoLives, deed.Fits) ∧
      ∃ ledger read, ledger = run twoLives (ofStore store opened) ∧ ledger.held = [] ∧
        ledger.course.store.records ledger.course.disk = .ok read ∧
        read.map Prod.snd = ledger.records ∧
        ledger.entries.map LedgerEntry.writer = [1, 1] ∧
        ledger.course.store.sessions.commitPoints = [(1, 2)] ∧
        ledger.course.store.sessions.commitPoints.total = ledger.records.length := by
  have hfacts : twoLivesAccounts = true := by decide +kernel
  unfold twoLivesAccounts at hfacts
  have hempty : (Disk.withDir "db").EmptyDir ["db"] ["db"] := Disk.emptyDir_withDir (by decide)
  have hfits : ∀ deed ∈ twoLives, deed.Fits := by decide
  obtain ⟨store, opened, hopen, hrun⟩ := accounts_of_run hempty noneKept
  simp only [hopen] at hfacts
  obtain ⟨hadmits, ⟨hheld, htail⟩, hwriters, hpoints⟩ := of_decide_eq_true hfacts
  obtain ⟨-, hread, htotal⟩ := hrun twoLives hadmits
  obtain ⟨read, hrecords, hsame⟩ := hread hfits
  exact ⟨store, opened, hopen, hadmits, hfits, _, read, rfl, hheld, hrecords, hsame, hwriters,
    hpoints, (htotal htail hheld).1⟩

end Ledger

end PredicateIndex
