import Mathlib.Data.List.Nodup
import Mathlib.Data.List.Perm.Basic
import PredicateIndex.Proofs.Lookup
import PredicateIndex.Proofs.CommitPoints

/-!
# Session pools

Restoring a pool begins a new era: the idle sessions are forgotten and the ids
start at 1 again, but the sessions that are out stay out. Within an era the ids
of the sessions differ and the commit points only rise. A session that is out
while its pool is restored breaks both: sooner or later another session gets
its id, and coming back it takes the place of what was restored for that id.
-/

set_option autoImplicit false

namespace PredicateIndex

namespace CommitPoints

theorem lookup_record (points : CommitPoints) (id serial other : UInt64) :
    (record id serial points).lookup other =
      if other = id then some serial else points.lookup other := by
  induction points with
  | nil => simp [record, Lookup.cons_eq]
  | cons point rest ih =>
    rw [record]
    by_cases he : id = point.1
    · rw [if_pos he, Lookup.cons_eq, Lookup.cons_eq, he]
      by_cases ho : other = point.1 <;> simp [ho]
    · rw [if_neg he]
      by_cases hl : id < point.1
      · rw [if_pos hl, Lookup.cons_eq]
      · rw [if_neg hl, Lookup.cons_eq, Lookup.cons_eq, ih]
        by_cases hp : other = point.1
        · simp [hp, Ne.symm he]
        · simp [hp]

def Keeps (id : UInt64) (before after : CommitPoints) : Prop :=
  ∀ serial ∈ before.lookup id, ∃ later ∈ after.lookup id, serial ≤ later

-- the serial number that is found is compared: deciding `∃ later` may try all words instead
instance (id : UInt64) (before after : CommitPoints) : Decidable (Keeps id before after) :=
  decidable_of_iff (((before.lookup id).all fun serial =>
      (after.lookup id).any fun later => decide (serial ≤ later)) = true)
    (by simp [Keeps, Option.all_eq_true, Option.any_eq_true])

theorem Keeps.refl (id : UInt64) (points : CommitPoints) : Keeps id points points :=
  fun serial hs => ⟨serial, hs, UInt64.le_refl serial⟩

end CommitPoints

theorem toNat_next {n : UInt64} (h : n.toNat + 1 < UInt64.size) : (n + 1).toNat = n.toNat + 1 := by
  rw [UInt64.toNat_add]
  exact Nat.mod_eq_of_lt h

theorem lt_next {n : UInt64} (h : n.toNat + 1 < UInt64.size) : n < n + 1 := by
  rw [UInt64.lt_iff_toNat_lt, toNat_next h]
  exact Nat.lt_succ_self _

theorem map_set_eq {α β : Type} {entries : List α} {place : Nat} {entry after : α} {key : α → β}
    (hp : entries[place]? = some entry) (hk : key after = key entry) :
    (entries.set place after).map key = entries.map key := by
  obtain ⟨hplace, hentry⟩ := List.getElem?_eq_some_iff.mp hp
  have hmapped : place < (entries.map key).length := by rwa [List.length_map]
  have hsame : (entries.map key)[place] = key entry := by rw [List.getElem_map, hentry]
  rw [List.map_set, hk, ← hsame, List.set_getElem_self]

theorem subperm_giveBack {α : Type} {held idle : List α} {place : Nat} {entry : α}
    (hp : held[place]? = some entry) (room : Prop) [Decidable room] :
    List.Subperm (held.eraseIdx place ++ if room then entry :: idle else idle)
      (held ++ idle) := by
  obtain ⟨hplace, hentry⟩ := List.getElem?_eq_some_iff.mp hp
  have hperm : (entry :: (held.eraseIdx place ++ idle)).Perm (held ++ idle) := by
    rw [← hentry]
    exact (List.getElem_cons_eraseIdx_perm hplace).append_right idle
  refine List.Subperm.trans ?_ hperm.subperm
  split
  · exact List.perm_middle.subperm
  · exact (List.sublist_cons_self _ _).subperm

theorem Session.serial_completeWrite {session : Session}
    (h : session.serial.toNat + 1 < UInt64.size) :
    session.completeWrite.serial.toNat = session.serial.toNat + 1 := toNat_next h

theorem SessionPool.serial?_release (pool : SessionPool) (session : Session) (id : UInt64) :
    (pool.release session).serial? id =
      if id = session.id then some session.serial else pool.serial? id :=
  CommitPoints.lookup_record _ _ _ _

structure Loan where
  session : Session
  era : Nat
  deriving DecidableEq, Repr

def Loan.name (loan : Loan) : Nat × UInt64 := (loan.era, loan.session.id)

structure Lending where
  pool : SessionPool
  held : List Loan := []
  idle : List Loan := []
  /-- How often the pool has been restored. -/
  era : Nat := 0
  /-- The ids of the sessions of earlier eras that came back in this one. -/
  strayed : List UInt64 := []
  deriving DecidableEq, Repr

namespace Lending

inductive Op where
  | acquire
  | write (place : Nat)
  | readPending (place : Nat)
  | release (place : Nat)
  | restore (points : List (UInt64 × UInt64))
  deriving DecidableEq, Repr

def Op.isRestore : Op → Bool
  | .restore _ => true
  | _ => false

def ofCapacity (capacity : SessionPool.Capacity) : Lending := { pool := .ofCapacity capacity }

def live (lending : Lending) : List Loan := lending.held ++ lending.idle

def ids (lending : Lending) : List UInt64 := lending.live.map fun loan => loan.session.id

def acquire (lending : Lending) : Lending :=
  let (session, pool) := lending.pool.acquire
  match lending.idle with
  | loan :: rest => { lending with pool, held := ⟨session, loan.era⟩ :: lending.held, idle := rest }
  | [] => { lending with pool, held := ⟨session, lending.era⟩ :: lending.held }

def work (place : Nat) (change : Session → Session) (lending : Lending) : Lending :=
  match lending.held[place]? with
  | some loan =>
    { lending with held := lending.held.set place { loan with session := change loan.session } }
  | none => lending

def release (place : Nat) (lending : Lending) : Lending :=
  match lending.held[place]? with
  | some loan =>
    { lending with
      pool := lending.pool.release loan.session
      held := lending.held.eraseIdx place
      idle := if lending.idle.length < lending.pool.capacity then loan :: lending.idle
        else lending.idle
      strayed := if loan.era = lending.era then lending.strayed
        else loan.session.id :: lending.strayed }
  | none => lending

def restore (points : List (UInt64 × UInt64)) (lending : Lending) : Lending :=
  { lending with
    pool := lending.pool.restore points
    idle := []
    era := lending.era + 1
    strayed := [] }

def step : Op → Lending → Lending
  | .acquire => acquire
  | .write place => work place Session.completeWrite
  | .readPending place => work place Session.recordPending
  | .release place => release place
  | .restore points => restore points

def run (ops : List Op) (lending : Lending) : Lending :=
  ops.foldl (fun lending op => step op lending) lending

def Counts : Op → Lending → Prop
  | .acquire, lending => lending.idle = [] → lending.pool.nextId.toNat + 1 < UInt64.size
  | .write place, lending =>
    ∀ loan ∈ lending.held[place]?, loan.session.serial.toNat + 1 < UInt64.size
  | _, _ => True

instance (op : Op) (lending : Lending) : Decidable (Counts op lending) :=
  match op with
  | .acquire =>
    inferInstanceAs (Decidable (lending.idle = [] → lending.pool.nextId.toNat + 1 < UInt64.size))
  | .write place =>
    inferInstanceAs (Decidable
      (∀ loan ∈ lending.held[place]?, loan.session.serial.toNat + 1 < UInt64.size))
  | .readPending _ | .release _ | .restore _ => isTrue trivial

def Fits : List Op → Lending → Prop
  | [], _ => True
  | op :: ops, lending => Counts op lending ∧ Fits ops (step op lending)

instance decidableFits : (ops : List Op) → (lending : Lending) → Decidable (Fits ops lending)
  | [], _ => isTrue trivial
  | op :: ops, lending =>
    have := decidableFits ops (step op lending)
    inferInstanceAs (Decidable (Counts op lending ∧ Fits ops (step op lending)))

def Settled : List Op → Lending → Prop
  | [], _ => True
  | op :: ops, lending => (op.isRestore = true → lending.held = []) ∧ Settled ops (step op lending)

instance decidableSettled : (ops : List Op) → (lending : Lending) → Decidable (Settled ops lending)
  | [], _ => isTrue trivial
  | op :: ops, lending =>
    have := decidableSettled ops (step op lending)
    inferInstanceAs (Decidable
      ((op.isRestore = true → lending.held = []) ∧ Settled ops (step op lending)))

variable {lending : Lending} {capacity : Nat}

structure Kept (capacity : Nat) (lending : Lending) : Prop where
  size : lending.pool.capacity = capacity
  waiting : lending.pool.idle = lending.idle.map Loan.session
  bounded : lending.idle.length ≤ capacity
  apart : (lending.live.map Loan.name).Nodup
  past : ∀ loan ∈ lending.live, loan.era ≤ lending.era
  counted : ∀ loan ∈ lending.live, 0 < loan.session.id ∧ loan.session.id.toNat + 1 < UInt64.size
  next : 0 < lending.pool.nextId
  issued : ∀ loan ∈ lending.live, loan.era = lending.era → loan.session.id < lending.pool.nextId
  ahead : ∀ loan ∈ lending.live, loan.era = lending.era → loan.session.id ∉ lending.strayed →
    ∀ serial ∈ lending.pool.serial? loan.session.id, serial ≤ loan.session.serial

theorem kept_ofCapacity (capacity : SessionPool.Capacity) : Kept capacity (ofCapacity capacity) where
  size := rfl
  waiting := rfl
  bounded := Nat.zero_le _
  apart := List.nodup_nil
  past := by simp [live, ofCapacity]
  counted := by simp [live, ofCapacity]
  next := by
    show (0 : UInt64) < 1
    decide
  issued := by simp [live, ofCapacity]
  ahead := by simp [live, ofCapacity]

theorem acquire_cases (h : Kept capacity lending) :
    (∃ loan rest, lending.idle = loan :: rest ∧
      lending.acquire =
        { lending with
          pool := { lending.pool with idle := rest.map Loan.session }
          held := loan :: lending.held
          idle := rest }) ∨
    lending.idle = [] ∧
      lending.acquire =
        { lending with
          pool := { lending.pool with nextId := lending.pool.nextId + 1 }
          held := ⟨⟨lending.pool.nextId, (lending.pool.serial? lending.pool.nextId).getD 0, 0⟩,
            lending.era⟩ :: lending.held } := by
  have hwaiting := h.waiting
  cases hi : lending.idle with
  | nil =>
    rw [hi] at hwaiting
    exact Or.inr ⟨rfl, by simp only [acquire, SessionPool.acquire, hi, hwaiting, List.map_nil]⟩
  | cons loan rest =>
    rw [hi] at hwaiting
    refine Or.inl ⟨loan, rest, rfl, ?_⟩
    simp only [acquire, SessionPool.acquire, hi, hwaiting, List.map_cons]

theorem work_cases (place : Nat) (change : Session → Session) (lending : Lending) :
    (∃ loan, lending.held[place]? = some loan ∧
      lending.work place change =
        { lending with
          held := lending.held.set place { loan with session := change loan.session } }) ∨
    lending.work place change = lending := by
  cases hp : lending.held[place]? with
  | none => exact Or.inr (by rw [work, hp])
  | some loan => exact Or.inl ⟨loan, rfl, by rw [work, hp]⟩

theorem release_cases (place : Nat) (lending : Lending) :
    (∃ loan, lending.held[place]? = some loan ∧
      lending.release place =
        { lending with
          pool := lending.pool.release loan.session
          held := lending.held.eraseIdx place
          idle := if lending.idle.length < lending.pool.capacity then loan :: lending.idle
            else lending.idle
          strayed := if loan.era = lending.era then lending.strayed
            else loan.session.id :: lending.strayed }) ∨
    lending.release place = lending := by
  cases hp : lending.held[place]? with
  | none => exact Or.inr (by rw [release, hp])
  | some loan => exact Or.inl ⟨loan, rfl, by rw [release, hp]⟩

theorem mem_live_of_held {place : Nat} {loan : Loan} (h : lending.held[place]? = some loan) :
    loan ∈ lending.live :=
  List.mem_append_left _ (List.mem_of_getElem? h)

theorem mem_live_work {place : Nat} {change : Session → Session} {loan other : Loan}
    (hp : lending.held[place]? = some loan) (ho : other ∈ (lending.work place change).live) :
    other ∈ lending.live ∨ other = { loan with session := change loan.session } := by
  rw [work, hp] at ho
  rcases List.mem_append.mp ho with ho | ho
  · exact (List.mem_or_eq_of_mem_set ho).imp_left (List.mem_append_left _)
  · exact Or.inl (List.mem_append_right _ ho)

theorem Kept.acquire (h : Kept capacity lending) (hf : Counts .acquire lending) :
    Kept capacity lending.acquire := by
  rcases acquire_cases h with ⟨loan, rest, hi, heq⟩ | ⟨hi, heq⟩
  · have hlive : lending.acquire.live.Perm lending.live := by
      rw [heq, live, live, hi]
      exact List.perm_middle.symm
    rw [heq] at hlive ⊢
    refine ⟨h.size, rfl, ?_, (hlive.map _).nodup_iff.mpr h.apart, ?_, ?_, h.next, ?_, ?_⟩
    · have hbounded := h.bounded
      rw [hi, List.length_cons] at hbounded
      exact Nat.le_of_succ_le hbounded
    · exact fun other ho => h.past other (hlive.mem_iff.mp ho)
    · exact fun other ho => h.counted other (hlive.mem_iff.mp ho)
    · exact fun other ho => h.issued other (hlive.mem_iff.mp ho)
    · exact fun other ho => h.ahead other (hlive.mem_iff.mp ho)
  · have hlt := lt_next (hf hi)
    rw [heq]
    refine ⟨h.size, h.waiting, h.bounded, List.nodup_cons.mpr ⟨fun hm => ?_, h.apart⟩,
      List.forall_mem_cons.mpr ⟨Nat.le_refl _, h.past⟩,
      List.forall_mem_cons.mpr ⟨⟨h.next, hf hi⟩, h.counted⟩, UInt64.lt_trans h.next hlt,
      List.forall_mem_cons.mpr ⟨fun _ => hlt, fun other ho he => ?_⟩,
      List.forall_mem_cons.mpr ⟨fun _ _ serial hs => ?_, h.ahead⟩⟩
    · obtain ⟨other, ho, hname⟩ := List.mem_map.mp hm
      obtain ⟨hera, hid⟩ := Prod.mk.inj hname
      exact absurd hid (UInt64.ne_of_lt (h.issued other ho hera))
    · exact UInt64.lt_trans (h.issued other ho he) hlt
    · have hresumes : (lending.pool.serial? lending.pool.nextId).getD 0 = serial := by
        rw [show lending.pool.serial? lending.pool.nextId = some serial from hs]
        rfl
      exact hresumes ▸ UInt64.le_refl _

theorem Kept.work (h : Kept capacity lending) {place : Nat} {change : Session → Session}
    (hid : ∀ session, (change session).id = session.id)
    (hc : ∀ loan ∈ lending.held[place]?, loan.session.serial ≤ (change loan.session).serial) :
    Kept capacity (lending.work place change) := by
  rcases work_cases place change lending with ⟨loan, hp, heq⟩ | heq
  · have hname : ({ loan with session := change loan.session } : Loan).name = loan.name := by
      rw [Loan.name, hid]
      rfl
    have hnames : (lending.work place change).live.map Loan.name = lending.live.map Loan.name := by
      rw [heq, live, live, List.map_append, List.map_append, map_set_eq hp hname]
    have hloan := mem_live_of_held hp
    have hlive : ∀ p : Loan → Prop, (∀ other ∈ lending.live, p other) →
        p { loan with session := change loan.session } →
        ∀ other ∈ (lending.work place change).live, p other := by
      intro p hall hchanged other ho
      rcases mem_live_work hp ho with ho | rfl
      · exact hall other ho
      · exact hchanged
    rw [heq] at hlive hnames ⊢
    refine ⟨h.size, h.waiting, h.bounded, hnames ▸ h.apart, hlive _ h.past (h.past loan hloan),
      hlive _ h.counted ?_, h.next, hlive _ h.issued fun he => ?_,
      hlive _ h.ahead fun he hs serial hrecorded => ?_⟩
    · rw [hid]
      exact h.counted loan hloan
    · rw [hid]
      exact h.issued loan hloan he
    · rw [hid] at hs hrecorded
      exact UInt64.le_trans (h.ahead loan hloan he hs serial hrecorded) (hc loan hp)
  · rw [heq]
    exact h

theorem Kept.eq_of_name (h : Kept capacity lending) {a b : Loan} (ha : a ∈ lending.live)
    (hb : b ∈ lending.live) (he : a.era = b.era) (hi : a.session.id = b.session.id) : a = b :=
  List.inj_on_of_nodup_map h.apart ha hb (Prod.ext he hi)

theorem live_release {place : Nat} {loan : Loan} (hp : lending.held[place]? = some loan) :
    List.Subperm (lending.release place).live lending.live := by
  rw [release, hp]
  exact subperm_giveBack hp _

theorem Kept.release (h : Kept capacity lending) (place : Nat) :
    Kept capacity (lending.release place) := by
  rcases release_cases place lending with ⟨loan, hp, heq⟩ | heq
  · have hlive := live_release hp
    have hloan := mem_live_of_held hp
    have hapart : ((lending.release place).live.map Loan.name).Nodup := by
      obtain ⟨kept, hperm, hsub⟩ := hlive
      exact (hperm.map Loan.name).nodup_iff.mp (h.apart.sublist (hsub.map Loan.name))
    have hroom : lending.pool.idle.length = lending.idle.length := by
      rw [h.waiting, List.length_map]
    have hmem := hlive.subset
    rw [heq] at hapart hmem ⊢
    refine ⟨h.size, ?_, ?_, hapart, fun other ho => h.past other (hmem ho),
      fun other ho => h.counted other (hmem ho), h.next,
      fun other ho => h.issued other (hmem ho), fun other ho he hs serial hrecorded => ?_⟩
    · show (if lending.pool.idle.length < lending.pool.capacity then _ else _) = _
      rw [hroom]
      split
      · rw [List.map_cons, h.waiting]
      · exact h.waiting
    · have hbounded := h.bounded
      have hsize := h.size
      show (if lending.idle.length < lending.pool.capacity then _ else _ : List Loan).length ≤ _
      split
      · rw [List.length_cons]
        omega
      · exact hbounded
    · have hlookup : (lending.pool.commitPoints.record loan.session.id loan.session.serial).lookup
          other.session.id = some serial := hrecorded
      rw [CommitPoints.lookup_record] at hlookup
      by_cases hera : loan.era = lending.era
      · rw [if_pos hera] at hs
        by_cases hid : other.session.id = loan.session.id
        · -- one era, one id: it is the session that came back that is met again
          rw [if_pos hid] at hlookup
          obtain rfl := h.eq_of_name (hmem ho) hloan (he.trans hera.symm) hid
          exact Option.some.inj hlookup ▸ UInt64.le_refl _
        · rw [if_neg hid] at hlookup
          exact h.ahead other (hmem ho) he hs serial hlookup
      · rw [if_neg hera] at hs
        have hid : other.session.id ≠ loan.session.id := List.ne_of_not_mem_cons hs
        rw [if_neg hid] at hlookup
        exact h.ahead other (hmem ho) he (List.not_mem_of_not_mem_cons hs) serial hlookup
  · rw [heq]
    exact h

theorem Kept.restore (h : Kept capacity lending) (points : List (UInt64 × UInt64)) :
    Kept capacity (lending.restore points) := by
  have hlive : ∀ loan ∈ (lending.restore points).live, loan ∈ lending.live := by
    intro loan hl
    rw [Lending.restore, live, List.append_nil] at hl
    exact List.mem_append_left _ hl
  have hold : ∀ loan ∈ (lending.restore points).live, loan.era ≠ (lending.restore points).era := by
    intro loan hl
    exact Nat.ne_of_lt (Nat.lt_succ_of_le (h.past loan (hlive loan hl)))
  refine ⟨h.size, rfl, Nat.zero_le _, ?_,
    fun loan hl => Nat.le_succ_of_le (h.past loan (hlive loan hl)),
    fun loan hl => h.counted loan (hlive loan hl), ?_, fun loan hl he => (hold loan hl he).elim,
    fun loan hl he => (hold loan hl he).elim⟩
  · rw [Lending.restore, live, List.append_nil]
    exact h.apart.sublist ((List.sublist_append_left _ _).map _)
  · show (0 : UInt64) < 1
    decide

theorem Kept.step (h : Kept capacity lending) {op : Op} (hf : Counts op lending) :
    Kept capacity (step op lending) := by
  cases op with
  | acquire => exact h.acquire hf
  | write place =>
    refine h.work (fun _ => rfl) fun loan hl => ?_
    rw [UInt64.le_iff_toNat_le, Session.serial_completeWrite (hf loan hl)]
    exact Nat.le_succ _
  | readPending place => exact h.work (fun _ => rfl) fun loan _ => UInt64.le_refl _
  | release place => exact h.release place
  | restore points => exact h.restore points

theorem Kept.run {ops : List Op} (h : Kept capacity lending) (hf : Fits ops lending) :
    Kept capacity (run ops lending) := by
  induction ops generalizing lending with
  | nil => exact h
  | cons op ops ih => exact ih (h.step hf.1) hf.2

theorem commitPoints_acquire (lending : Lending) :
    lending.acquire.pool.commitPoints = lending.pool.commitPoints := by
  simp only [acquire, SessionPool.acquire]
  split <;> split <;> rfl

theorem commitPoints_work (place : Nat) (change : Session → Session) (lending : Lending) :
    (lending.work place change).pool = lending.pool := by
  rw [work]
  split <;> rfl

/-- Until a session of an earlier era comes back, the commit point of its id does not fall. -/
theorem Kept.keeps (h : Kept capacity lending) {op : Op} (hop : op.isRestore = false) {id : UInt64}
    (hid : id ∉ (Lending.step op lending).strayed) :
    CommitPoints.Keeps id lending.pool.commitPoints
      (Lending.step op lending).pool.commitPoints := by
  cases op with
  | acquire =>
    rw [Lending.step, commitPoints_acquire]
    exact .refl _ _
  | write place =>
    rw [Lending.step, commitPoints_work]
    exact .refl _ _
  | readPending place =>
    rw [Lending.step, commitPoints_work]
    exact .refl _ _
  | release place =>
    rw [Lending.step] at hid ⊢
    rcases release_cases place lending with ⟨loan, hp, heq⟩ | heq
    · rw [heq] at hid ⊢
      intro serial hs
      by_cases he : id = loan.session.id
      · subst he
        have hera : loan.era = lending.era := by
          by_contra hne
          exact hid (by simp [hne])
        rw [if_pos hera] at hid
        refine ⟨loan.session.serial, ?_, h.ahead loan (mem_live_of_held hp) hera hid serial hs⟩
        exact (CommitPoints.lookup_record _ _ _ _).trans (if_pos rfl)
      · exact ⟨serial, ((CommitPoints.lookup_record _ _ _ _).trans (if_neg he)).trans hs,
          UInt64.le_refl _⟩
    · rw [heq]
      exact .refl _ _
  | restore points => cases hop

/-- All sessions are of the era that the pool is in, and so were those that came back in it. -/
structure Current (lending : Lending) : Prop where
  eras : ∀ loan ∈ lending.live, loan.era = lending.era
  strayed : lending.strayed = []

theorem Current.step (hc : Current lending) (h : Kept capacity lending) {op : Op}
    (hs : op.isRestore = true → lending.held = []) : Current (step op lending) := by
  have hwork : ∀ place change, Current (lending.work place change) := by
    intro place change
    rcases work_cases place change lending with ⟨loan, hp, heq⟩ | heq
    · have hmem : ∀ other ∈ (lending.work place change).live, other ∈ lending.live ∨
          other = { loan with session := change loan.session } := fun _ => mem_live_work hp
      rw [heq] at hmem ⊢
      refine ⟨fun other ho => ?_, hc.strayed⟩
      rcases hmem other ho with ho | rfl
      · exact hc.eras other ho
      · exact hc.eras loan (mem_live_of_held hp)
    · rw [heq]
      exact hc
  cases op with
  | acquire =>
    rw [Lending.step]
    rcases acquire_cases h with ⟨loan, rest, hi, heq⟩ | ⟨hi, heq⟩
    · rw [heq]
      refine ⟨fun other ho => hc.eras other ?_, hc.strayed⟩
      rw [live, hi]
      exact List.perm_middle.symm.mem_iff.mp ho
    · rw [heq]
      exact ⟨List.forall_mem_cons.mpr ⟨rfl, hc.eras⟩, hc.strayed⟩
  | write place => exact hwork place _
  | readPending place => exact hwork place _
  | release place =>
    rw [Lending.step]
    rcases release_cases place lending with ⟨loan, hp, heq⟩ | heq
    · have hmem := (live_release hp).subset
      rw [heq] at hmem ⊢
      refine ⟨fun other ho => hc.eras other (hmem ho), ?_⟩
      exact (if_pos (hc.eras loan (mem_live_of_held hp))).trans hc.strayed
    · rw [heq]
      exact hc
  | restore points =>
    refine ⟨fun loan hl => ?_, rfl⟩
    rw [Lending.step, restore, live, List.append_nil, hs rfl] at hl
    cases hl

theorem Current.run {ops : List Op} (hc : Current lending) (h : Kept capacity lending)
    (hf : Fits ops lending) (hs : Settled ops lending) : Current (run ops lending) := by
  induction ops generalizing lending with
  | nil => exact hc
  | cons op ops ih => exact ih (hc.step h hs.1) (h.step hf.1) hf.2 hs.2

theorem Current.nodup_ids (hc : Current lending) (h : Kept capacity lending) :
    lending.ids.Nodup := by
  refine (List.nodup_map_iff_inj_on h.apart.of_map).mpr fun a ha b hb hid => ?_
  exact h.eq_of_name ha hb ((hc.eras a ha).trans (hc.eras b hb).symm) hid

theorem held_acquires {loan : Loan} (h : loan ∈ lending.held) (n : Nat) :
    loan ∈ (run (List.replicate n .acquire) lending).held := by
  induction n generalizing lending with
  | zero => exact h
  | succ n ih =>
    refine ih ?_
    show loan ∈ lending.acquire.held
    simp only [acquire]
    split <;> exact List.mem_cons_of_mem _ h

theorem Kept.made (h : Kept capacity lending) (hi : lending.idle = []) {n : Nat}
    (hn : lending.pool.nextId.toNat + n < UInt64.size) {id : UInt64}
    (hid : lending.pool.nextId ≤ id) (hlt : id.toNat < lending.pool.nextId.toNat + n) :
    ∃ loan ∈ (Lending.run (List.replicate n .acquire) lending).held,
      loan.session.id = id ∧ loan.era = lending.era := by
  induction n generalizing lending with
  | zero => exact absurd (UInt64.le_iff_toNat_le.mp hid) (by omega)
  | succ n ih =>
    have hcounts : Counts .acquire lending := fun _ => by omega
    have hkept := h.acquire hcounts
    rcases acquire_cases h with ⟨loan, rest, hcons, -⟩ | ⟨-, heq⟩
    · rw [hi] at hcons
      cases hcons
    · have hnext := toNat_next (hcounts hi)
      show ∃ loan ∈ (Lending.run (List.replicate n .acquire) lending.acquire).held, _
      rw [heq] at hkept ⊢
      by_cases hfirst : id = lending.pool.nextId
      · exact ⟨_, held_acquires List.mem_cons_self n, hfirst.symm, rfl⟩
      · have hne : id.toNat ≠ lending.pool.nextId.toNat := fun he => hfirst (UInt64.toNat_inj.mp he)
        have hle := UInt64.le_iff_toNat_le.mp hid
        refine ih hkept hi ?_ ?_ ?_
        · rw [hnext]
          omega
        · rw [UInt64.le_iff_toNat_le, hnext]
          omega
        · rw [hnext]
          omega

/-- A restore and as many sessions as the id of one that was out give this id a second session. -/
theorem Kept.collides (h : Kept capacity lending) (points : List (UInt64 × UInt64)) {loan : Loan}
    (hl : loan ∈ lending.held) :
    let later :=
      Lending.run (.restore points :: List.replicate loan.session.id.toNat .acquire) lending
    loan ∈ later.held ∧
      ∃ other ∈ later.held, other ≠ loan ∧ other.session.id = loan.session.id := by
  have hlive : loan ∈ lending.live := List.mem_append_left _ hl
  obtain ⟨hpositive, hsmall⟩ := h.counted loan hlive
  have hone : (lending.restore points).pool.nextId.toNat = 1 := rfl
  have hnonzero : 0 < loan.session.id.toNat := UInt64.lt_iff_toNat_lt.mp hpositive
  have hout : loan ∈ (lending.restore points).held := hl
  refine ⟨held_acquires hout _, ?_⟩
  have hleast : (lending.restore points).pool.nextId ≤ loan.session.id := by
    rw [UInt64.le_iff_toNat_le, hone]
    omega
  obtain ⟨other, ho, hid, hera⟩ := (h.restore points).made rfl (n := loan.session.id.toNat)
    (by rw [hone]; omega) hleast (by rw [hone]; omega)
  refine ⟨other, ho, fun he => ?_, hid⟩
  have hpast := h.past loan hlive
  rw [he] at hera
  exact absurd hera (Nat.ne_of_lt (Nat.lt_succ_of_le hpast))

/-- As long as the counters stay within their words: no more than `capacity` sessions are idle, the
ids of an era differ, and a commit point falls only once a session of an earlier era has come back
under its id. So if no session is out at any restore, the ids of all sessions differ and no commit
point falls. But each session that is out at a restore meets its id again, and coming back it takes
the place of the commit point that was restored for it. -/
theorem sessions_of_run (capacity : SessionPool.Capacity) (ops : List Op)
    (hf : Fits ops (ofCapacity capacity)) :
    let lending := run ops (ofCapacity capacity)
    lending.pool.idle = lending.idle.map Loan.session ∧
    lending.pool.idle.length ≤ capacity ∧
    (lending.live.map Loan.name).Nodup ∧
    (∀ op : Op, op.isRestore = false → ∀ id, id ∉ (step op lending).strayed →
      CommitPoints.Keeps id lending.pool.commitPoints (step op lending).pool.commitPoints) ∧
    (Settled ops (ofCapacity capacity) →
      lending.ids.Nodup ∧
      ∀ op : Op, op.isRestore = false → ∀ id,
        CommitPoints.Keeps id lending.pool.commitPoints (step op lending).pool.commitPoints) ∧
    ∀ loan ∈ lending.held, ∀ points,
      let later := run (.restore points :: List.replicate loan.session.id.toNat .acquire) lending
      loan ∈ later.held ∧
      (∃ other ∈ later.held, other ≠ loan ∧ other.session.id = loan.session.id) ∧
      ∀ place, later.held[place]? = some loan →
        (step (.release place) later).pool.serial? loan.session.id = some loan.session.serial := by
  intro lending
  have h : Kept capacity lending := (kept_ofCapacity capacity).run hf
  have hstart : Current (ofCapacity capacity) := ⟨by simp [live, ofCapacity], rfl⟩
  refine ⟨h.waiting, ?_, h.apart, fun op hop id hid => h.keeps hop hid, fun hs => ?_,
    fun loan hl points => ?_⟩
  · rw [h.waiting, List.length_map]
    exact h.bounded
  · have hc : Current lending := hstart.run (kept_ofCapacity capacity) hf hs
    refine ⟨hc.nodup_ids h, fun op hop id => h.keeps hop ?_⟩
    have hnext : op.isRestore = true → lending.held = [] := fun hr => absurd hr (by simp [hop])
    rw [(hc.step h hnext).strayed]
    exact List.not_mem_nil
  · obtain ⟨hheld, hother⟩ := h.collides points hl
    refine ⟨hheld, hother, fun place hp => ?_⟩
    rw [step, release, hp]
    exact (SessionPool.serial?_release _ _ _).trans (if_pos rfl)

def single : SessionPool.Capacity := ⟨1, by decide⟩

def oneKept : Lending := ofCapacity single

def restoredBetween : List Op :=
  [.acquire, .write 0, .release 0, .restore [(1, 10), (2, 4)], .acquire, .acquire, .write 1,
    .release 1]

theorem sessions_of_restoredBetween :
    Fits restoredBetween oneKept ∧ Settled restoredBetween oneKept ∧
      (run restoredBetween oneKept).ids = [2, 1] ∧
      (run restoredBetween oneKept).ids.Nodup ∧
      (run restoredBetween oneKept).pool.idle.length ≤ 1 ∧
      (run restoredBetween oneKept).pool.commitPoints = [(1, 11), (2, 4)] := by
  have hf : Fits restoredBetween oneKept := by decide
  have hs : Settled restoredBetween oneKept := by decide
  obtain ⟨-, hidle, -, -, hsettled, -⟩ := sessions_of_run single restoredBetween hf
  exact ⟨hf, hs, by decide, (hsettled hs).1, hidle, by decide⟩

def outAtRestore : List Op := [.acquire, .restore [(1, 10)], .acquire]

theorem ids_of_outAtRestore :
    Fits outAtRestore oneKept ∧
      ¬ (run outAtRestore oneKept).ids.Nodup ∧
      ¬ CommitPoints.Keeps 1 (run outAtRestore oneKept).pool.commitPoints
        (step (.release 1) (run outAtRestore oneKept)).pool.commitPoints := by
  decide

end Lending

end PredicateIndex
