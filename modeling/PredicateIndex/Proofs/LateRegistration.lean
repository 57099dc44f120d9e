import PredicateIndex.Proofs.WatchedGroups

/-!
# Predicates that come late

A predicate can be registered while records are stored already. It does not see
those: a record joins it when it is inserted, when a copying update moves it and
when a change in place gives it another output of the predicate. As long as all
groups carry out the changes of records, a query gives just the stored records
that have joined the predicate and have the key now. Tombstones for ids that the
group never linked do no harm.
-/

set_option autoImplicit false

namespace PredicateIndex

namespace Primary

variable {K V : Type}

def Op.change? : Op K V → Option (K × (V → V))
  | .upsert key value => some (key, fun _ => value)
  | .updateWith key change => some (key, change)
  | _ => none

variable [DecidableEq K]

/-- The record that is at an address afterwards joins a predicate: it is inserted, moved there by a
copying update, or changed in place so that the predicate gives something else for it. -/
inductive Joins {α : Type} (output : KeyValue K V → Option α) (primary : Primary K V) :
    Action K V → Nat → Prop
  | inserted {key : K} {value : V} (h : primary.address? key = none) :
    Joins output primary (.perform (.upsert key value)) primary.tail
  | moved {op : Op K V} {key : K} {change : V → V} {address : Nat}
    (hop : op.change? = some (key, change)) (h : primary.address? key = some address)
    (hold : address < primary.readOnly) : Joins output primary (.perform op) primary.tail
  | changed {op : Op K V} {key : K} {change : V → V} {address : Nat} {data : KeyValue K V}
    (hop : op.change? = some (key, change)) (h : primary.address? key = some address)
    (hnew : primary.readOnly ≤ address) (hat : primary.slot address = .ok (some data))
    (houtput : output { data with value := change data.value } ≠ output data) :
    Joins output primary (.perform op) address

section

variable {α : Type} {output : KeyValue K V → Option α} {primary : Primary K V} {key : K} {value : V}
  {op : Op K V} {change : V → V} {address place : Nat} {data : KeyValue K V}

theorem joins_inserted (hk : primary.address? key = none) :
    Joins output primary (.perform (.upsert key value)) place ↔ place = primary.tail := by
  constructor
  · intro h
    cases h with
    | inserted => rfl
    | moved => rfl
    | changed hop h =>
      cases hop
      rw [hk] at h
      cases h
  · rintro rfl
    exact .inserted hk

theorem joins_moved (hop : op.change? = some (key, change))
    (hk : primary.address? key = some address) (hold : address < primary.readOnly) :
    Joins output primary (.perform op) place ↔ place = primary.tail := by
  constructor
  · intro h
    cases h with
    | inserted => rfl
    | moved => rfl
    | changed hfound h hnew =>
      cases hop.symm.trans hfound
      cases hk.symm.trans h
      exact absurd hold (Nat.not_lt_of_le hnew)
  · rintro rfl
    exact .moved hop hk hold

theorem joins_changed (hop : op.change? = some (key, change))
    (hk : primary.address? key = some address) (hnew : primary.readOnly ≤ address)
    (hat : primary.At address data) :
    Joins output primary (.perform op) place ↔
      place = address ∧ output { data with value := change data.value } ≠ output data := by
  constructor
  · intro h
    cases h with
    | inserted h =>
      cases hop
      rw [hk] at h
      cases h
    | moved hfound h hold =>
      cases hop.symm.trans hfound
      cases hk.symm.trans h
      exact absurd hold (Nat.not_lt_of_le hnew)
    | changed hfound h _ hfoundat houtput =>
      cases hop.symm.trans hfound
      cases hk.symm.trans h
      obtain rfl := At.unique hat hfoundat
      exact ⟨rfl, houtput⟩
  · rintro ⟨rfl, houtput⟩
    exact .changed hop hk hnew hat houtput

theorem not_joins (hop : op.change? = none) : ¬ Joins output primary (.perform op) place := by
  intro h
  cases h with
  | inserted => cases hop
  | moved hfound =>
    rw [hop] at hfound
    cases hfound
  | changed hfound =>
    rw [hop] at hfound
    cases hfound

theorem not_joins_missing (hk : primary.address? key = none) :
    ¬ Joins output primary (.perform (.updateWith key change)) place := by
  intro h
  cases h with
  | moved hfound h =>
    cases hfound
    rw [hk] at h
    cases h
  | changed hfound h =>
    cases hfound
    rw [hk] at h
    cases h

end

def JoinedDuring {α : Type} (output : KeyValue K V → Option α) :
    List (Action K V) → Primary K V × Disk → Nat → Prop
  | [], _, _ => False
  | action :: rest, state, address =>
    Joins output state.1 action address ∨ JoinedDuring output rest (act action state) address

def Proceeds : Action K V → Primary K V × Disk → Prop
  | .perform op, state => state.1.fault? state.2 op = none
  | .register _ _, _ => True
  | _, _ => False

instance (action : Action K V) (state : Primary K V × Disk) : Decidable (Proceeds action state) :=
  match action with
  | .perform op => inferInstanceAs (Decidable (state.1.fault? state.2 op = none))
  | .register _ _ => isTrue trivial
  | .recover _ _ | .insert _ _ | .update _ | .delete _ | .write _ _ | .onStore _ _
  | .recoverStore _ _ _ => isFalse id

def AllProceed : List (Action K V) → Primary K V × Disk → Prop
  | [], _ => True
  | action :: rest, state => Proceeds action state ∧ AllProceed rest (act action state)

instance decidableAllProceed : (actions : List (Action K V)) → (state : Primary K V × Disk) →
    Decidable (AllProceed actions state)
  | [], _ => isTrue trivial
  | action :: rest, state =>
    have := decidableAllProceed rest (act action state)
    inferInstanceAs (Decidable (Proceeds action state ∧ AllProceed rest (act action state)))

section

variable {primary after : Primary K V} {disk other : Disk} {address : Nat} {data : KeyValue K V}
  {change : V → V} {rid : RecordId}

omit [DecidableEq K] in
theorem changeInPlace_ok (hs : primary.manager.Stands disk) (hat : primary.At address data)
    (h : primary.changeInPlace address change disk = (.ok rid, after, other)) :
    ∃ manager last, primary.manager.update (primary.updateOf address address data change) disk =
        (.ok (), manager, last, other) ∧
      after = { primary.setSlot address (some { data with value := change data.value }) with
        manager } := by
  obtain ⟨result, manager, last, final, hm, hc⟩ := changeInPlace_update hs hat change
  rw [hc] at h
  cases result with
  | error cause => cases h
  | ok =>
    cases h
    exact ⟨manager, last, hm, rfl⟩

theorem changeByCopy_ok (hat : primary.At address data)
    (h : primary.changeByCopy address change disk = (.ok rid, after, other)) :
    ∃ manager last, primary.manager.update (primary.updateOf address primary.tail data change) disk =
        (.ok (), manager, last, other) ∧
      after = (push { data with value := change data.value } { primary with manager }).setSlot
        address none := by
  rcases changeByCopy_cases hat change disk with
    ⟨fault, manager, last, final, hm, hop⟩ | ⟨manager, last, final, hm, hop⟩ <;>
    rw [hop] at h <;> cases h
  exact ⟨manager, last, hm, rfl⟩

end

/-- A group stands, on the chains of one of its predicates, for the stored records that the
predicate gives the key for and that have joined it. -/
structure Late (primary : Primary K V) (disk : Disk) (owner id : Nat)
    (predicates : List (Predicate (KeyValue K V))) (n : Nat) (predicate : Predicate (KeyValue K V))
    (joined : Nat → Prop) : Prop where
  filed : primary.Filed
  chains : ∃ index, primary.manager.Watches disk owner id predicates index ∧
    ∀ (key : predicate.type.Value) rid,
      index (chainKey (UInt8.ofNat n) (predicate.type.encode key)) rid = true ↔
        primary.Stores (fun address data => predicate.key data = some key ∧ joined address) rid

namespace Late

variable {primary after : Primary K V} {disk other : Disk} {owner id n : Nat}
  {predicates : List (Predicate (KeyValue K V))} {predicate : Predicate (KeyValue K V)}
  {joined : Nat → Prop}

theorem ofManager (h : primary.Late disk owner id predicates n predicate joined)
    {manager : Manager (KeyValue K V)}
    (hm : ∀ index, primary.manager.Watches disk owner id predicates index →
      manager.Watches other owner id predicates index) :
    Late { primary with manager } other owner id predicates n predicate joined := by
  obtain ⟨index, hw, ha⟩ := h.chains
  exact ⟨h.filed, index, hm index hw, ha⟩

theorem congr (h : primary.Late disk owner id predicates n predicate joined)
    {arrived : Nat → Prop} (hj : ∀ address, joined address ↔ arrived address) :
    primary.Late disk owner id predicates n predicate arrived :=
  funext (fun address => propext (hj address)) ▸ h

theorem ofRewrites {index final : Index} {address place : Nat} {new : Option (KeyValue K V)}
    {arrived : Nat → Prop} (hfiled : after.Filed)
    (hw : after.manager.Watches other owner id predicates final)
    (ha : ∀ (key : predicate.type.Value) rid,
      index (chainKey (UInt8.ofNat n) (predicate.type.encode key)) rid = true ↔
        primary.Stores (fun address data => predicate.key data = some key ∧ joined address) rid)
    (hr : primary.Rewrites after address place new) (hf : after.tail ≤ UInt64.size)
    (harrived : ∀ other, other ≠ place → (arrived other ↔ joined other))
    (hfinal : ∀ (key : predicate.type.Value) rid,
      final (chainKey (UInt8.ofNat n) (predicate.type.encode key)) rid = true ↔
        if rid = primary.recordId place then
          ∃ data, new = some data ∧ predicate.key data = some key ∧ arrived place
        else if rid = primary.recordId address then False
        else index (chainKey (UInt8.ofNat n) (predicate.type.encode key)) rid = true) :
    after.Late other owner id predicates n predicate arrived := by
  refine ⟨hfiled, final, hw, fun key rid => ?_⟩
  rw [hfinal, ha]
  exact (hr.stores hf fun other hn data => and_congr_right' (harrived other hn)).symm

theorem insertNew (h : primary.Late disk owner id predicates n predicate joined)
    (hp : predicates[n]? = some predicate) {data : KeyValue K V}
    (hf : primary.tail < UInt64.size) {rid : RecordId}
    (hi : primary.insertNew data disk = (.ok rid, after, other)) :
    after.Late other owner id predicates n predicate
      (fun address => joined address ∨ address = primary.tail) := by
  obtain ⟨index, hw, ha⟩ := h.chains
  rcases insertNew_cases primary data disk with
    ⟨fault, manager, last, hm, hop⟩ | ⟨manager, last, hm, hop⟩ <;> rw [hop] at hi <;> cases hi
  have htail : (push data { primary with manager }).tail = primary.tail + 1 := tail_push _ data
  have hfiled : Filed { primary with manager } := h.filed
  refine ofRewrites (hfiled.push data) (hw.insert_ok hm) ha
    ((rewrites_push primary data).of_log rfl rfl) (htail ▸ hf) (fun other hn => or_iff_left hn)
    fun key rid => ?_
  have hchain := hw.sized.mem_chains_keyOf hp data key
  rw [IndexWrite.mark]
  by_cases hr : rid = primary.recordId primary.tail
  · subst hr
    have hnext := unknown_next (ha key) hf
    by_cases hc : predicate.key data = some key
    · simp [hchain, hc]
    · simp [hchain, hc, hnext]
  · simp [hr, Ne.symm hr]

theorem changeInPlace (h : primary.Late disk owner id predicates n predicate joined)
    (hp : predicates[n]? = some predicate) {address : Nat} {data : KeyValue K V}
    (hat : primary.At address data) {change : V → V} (hf : primary.tail ≤ UInt64.size)
    {rid : RecordId}
    (hc : primary.changeInPlace address change disk = (.ok rid, after, other)) :
    after.Late other owner id predicates n predicate fun place => joined place ∨
      place = address ∧ predicate.key { data with value := change data.value } ≠ predicate.key data := by
  obtain ⟨index, hw, ha⟩ := h.chains
  obtain ⟨manager, last, hm, rfl⟩ := changeInPlace_ok hw.stands hat hc
  generalize hchanged : ({ data with value := change data.value } : KeyValue K V) = changed at *
  rw [updateOf, hchanged] at hm
  have hwatches : manager.Watches other owner id predicates (IndexWrite.markAll
      (changeWrites predicates (data, primary.recordId address) (changed, primary.recordId address))
      index) := hw.update_ok hm
  have htail : tail ({ primary.setSlot address (some changed) with manager } : Primary K V) =
      primary.tail := tail_setSlot primary address _
  refine ofRewrites (h.filed.replace hat (by rw [← hchanged])) hwatches ha
    ((rewrites_setSlot hat (some changed)).of_log rfl rfl) (htail ▸ hf)
    (fun other hn => or_iff_left fun hc => hn hc.1) fun key rid => ?_
  have hchain := fun data => hw.sized.mem_chains_keyOf hp data key
  rw [markAll_changed hw.sized]
  by_cases hr : rid = primary.recordId address
  · subst hr
    have hstored := (ha key _).trans (stores_of_at hf hat)
    by_cases ho : predicate.key data = some key <;> by_cases hk : predicate.key changed = some key
    · simp [hchain, ho, hk, hstored]
    · simp [hchain, ho, hk]
    · simp [hchain, ho, hk, Ne.symm ho]
    · simp [hchain, ho, hk, hstored]
  · simp [hr, Ne.symm hr]

theorem changeByCopy (h : primary.Late disk owner id predicates n predicate joined)
    (hp : predicates[n]? = some predicate) {address : Nat} {data : KeyValue K V}
    (hat : primary.At address data) {change : V → V} (hf : primary.tail < UInt64.size)
    {rid : RecordId}
    (hc : primary.changeByCopy address change disk = (.ok rid, after, other)) :
    after.Late other owner id predicates n predicate
      (fun place => joined place ∨ place = primary.tail) := by
  obtain ⟨index, hw, ha⟩ := h.chains
  obtain ⟨manager, last, hm, rfl⟩ := changeByCopy_ok hat hc
  generalize hchanged : ({ data with value := change data.value } : KeyValue K V) = changed at *
  rw [updateOf, hchanged] at hm
  have hwatches : manager.Watches other owner id predicates (IndexWrite.markAll
      (changeWrites predicates (data, primary.recordId address)
        (changed, primary.recordId primary.tail)) index) := hw.update_ok hm
  have htail : tail (setSlot address none (push changed { primary with manager })) =
      primary.tail + 1 := by
    rw [tail_setSlot]
    exact tail_push { primary with manager } _
  have hfiled : Filed { primary with manager } := h.filed
  refine ofRewrites (hfiled.copy hat (by rw [← hchanged])) hwatches ha
    ((rewrites_copy hat changed).of_log rfl rfl) (htail ▸ hf) (fun other hn => or_iff_left hn)
    fun key rid => ?_
  have hchain := fun data => hw.sized.mem_chains_keyOf hp data key
  have hne := recordId_ne_next hf hat.bounds.2
  rw [markAll_copied hw.sized _ _ hne.symm]
  by_cases hr : rid = primary.recordId primary.tail
  · subst hr
    have hnext := unknown_next (ha key) hf
    by_cases hk : predicate.key changed = some key
    · simp [hchain, hk]
    · simp [hchain, hk, hne, hnext]
  · by_cases ha' : rid = primary.recordId address
    · subst ha'
      have hstored := (ha key _).trans (stores_of_at (Nat.le_of_lt hf) hat)
      by_cases ho : predicate.key data = some key
      · simp [hchain, ho, hne, hne.symm]
      · simp [hchain, ho, hne, hne.symm, hstored]
    · simp [hr, Ne.symm hr, ha', Ne.symm ha']

theorem changeRecord (h : primary.Late disk owner id predicates n predicate joined)
    (hp : predicates[n]? = some predicate) {op : Op K V} {key : K} {change : V → V}
    (hop : op.change? = some (key, change)) {address : Nat}
    (hk : primary.address? key = some address) (hf : primary.tail < UInt64.size) {rid : RecordId}
    (hc : primary.changeRecord address change disk = (.ok rid, after, other)) :
    after.Late other owner id predicates n predicate
      (fun place => joined place ∨ Joins predicate.key primary (.perform op) place) := by
  obtain ⟨data, hat, hkey⟩ := h.filed key address hk
  rw [Primary.changeRecord] at hc
  by_cases hr : primary.readOnly ≤ address
  · rw [if_pos hr] at hc
    exact (h.changeInPlace hp hat (Nat.le_of_lt hf) hc).congr fun place =>
      or_congr_right (joins_changed hop hk hr hat).symm
  · rw [if_neg hr] at hc
    exact (h.changeByCopy hp hat hf hc).congr fun place =>
      or_congr_right (joins_moved hop hk (Nat.lt_of_not_le hr)).symm

theorem delete (h : primary.Late disk owner id predicates n predicate joined)
    (hp : predicates[n]? = some predicate) {key : K} (hf : primary.tail ≤ UInt64.size)
    {found : Bool} (hd : primary.delete key disk = (.ok found, after, other)) :
    after.Late other owner id predicates n predicate joined := by
  cases hk : primary.address? key with
  | none =>
    rw [Primary.delete, hk] at hd
    cases hd
    exact h
  | some address =>
    obtain ⟨data, hat, hkey⟩ := h.filed key address hk
    obtain ⟨index, hw, ha⟩ := h.chains
    rcases delete_cases hk hat disk with
      ⟨fault, manager, last, final, hm, hop⟩ | ⟨manager, last, final, hm, hop⟩ <;>
      rw [hop] at hd <;> cases hd
    have hfiled : Filed { primary with manager } := h.filed
    refine ofRewrites (hkey ▸ hfiled.remove hat) (hw.delete_ok hm) ha
      ((rewrites_setSlot hat none).of_log rfl rfl) ((tail_setSlot primary address none).symm ▸ hf)
      (fun _ _ => Iff.rfl) fun value rid => ?_
    have hchain := hw.sized.mem_chains_keyOf hp data value
    rw [IndexWrite.mark]
    by_cases hr : rid = primary.recordId address
    · subst hr
      have hstored := (ha value _).trans (stores_of_at hf hat)
      by_cases ho : predicate.key data = some value
      · simp [hchain, ho]
      · simp [hchain, ho, hstored]
    · simp [hr, Ne.symm hr]

/-- Every operation that does not fail keeps the group at what has joined by now. -/
theorem step (h : primary.Late disk owner id predicates n predicate joined)
    (hp : predicates[n]? = some predicate) {op : Op K V}
    (hf : primary.tail < UInt64.size) (hok : primary.fault? disk op = none) :
    (Primary.step op (primary, disk)).1.Late (Primary.step op (primary, disk)).2 owner id predicates n
      predicate (fun place => joined place ∨ Joins predicate.key primary (.perform op) place) := by
  have hkept : ∀ {after : Primary K V} {other : Disk},
      after.Late other owner id predicates n predicate joined → op.change? = none →
        after.Late other owner id predicates n predicate
          (fun place => joined place ∨ Joins predicate.key primary (.perform op) place) :=
    fun hlate hop => hlate.congr fun place => (or_iff_left (not_joins hop)).symm
  cases op with
  | upsert key value =>
    rw [fault?, upsert] at hok
    rw [Primary.step, upsert]
    cases hk : primary.address? key with
    | none =>
      simp only [hk] at hok
      rcases hop : primary.insertNew ⟨key, value⟩ disk with ⟨fault | rid, after, other⟩ <;>
        rw [hop] at hok
      · cases hok
      · exact (h.insertNew hp hf hop).congr fun place => or_congr_right (joins_inserted hk).symm
    | some address =>
      simp only [hk] at hok
      rcases hop : primary.changeRecord address (fun _ => value) disk with
        ⟨fault | rid, after, other⟩ <;> rw [hop] at hok
      · cases hok
      · dsimp only
        rw [hop]
        exact h.changeRecord hp rfl hk hf hop
  | updateWith key change =>
    rw [fault?, updateWith] at hok
    rw [Primary.step, updateWith]
    cases hk : primary.address? key with
    | none =>
      exact h.congr fun place => (or_iff_left (not_joins_missing hk)).symm
    | some address =>
      simp only [hk] at hok
      rcases hop : primary.changeRecord address change disk with
        ⟨fault | rid, after, other⟩ <;> rw [hop] at hok
      · cases hok
      · dsimp only
        rw [hop]
        exact h.changeRecord hp rfl hk hf hop
  | delete key =>
    rw [fault?] at hok
    rw [Primary.step]
    rcases hop : primary.delete key disk with ⟨fault | found, after, other⟩ <;> rw [hop] at hok
    · cases hok
    · exact hkept (h.delete hp (Nat.le_of_lt hf) hop) rfl
  | shiftReadOnly => exact hkept ⟨h.filed, h.chains⟩ rfl
  | flush => exact hkept (h.ofManager fun _ hw => hw.flush) rfl
  | evict => exact hkept (h.ofManager fun _ hw => hw.evict) rfl
  | takeCheckpoint kind clock => exact hkept (h.ofManager fun _ hw => hw.takeCheckpoint kind clock) rfl
  | completeCheckpoint => exact hkept (h.ofManager fun _ hw => hw.completeCheckpoint) rfl
  | readChain source key => exact hkept (h.ofManager fun _ hw => hw.readChain source key false) rfl

theorem act (h : primary.Late disk owner id predicates n predicate joined)
    (hp : predicates[n]? = some predicate) {action : Action K V}
    (hf : primary.tail < UInt64.size) (hok : Proceeds action (primary, disk)) :
    (Primary.act action (primary, disk)).1.Late (Primary.act action (primary, disk)).2 owner id
      predicates n predicate (fun place => joined place ∨ Joins predicate.key primary action place) := by
  cases action with
  | perform op => exact h.step hp hf hok
  | register type definitions =>
    refine (h.ofManager fun _ hw => hw.register type definitions).congr fun place =>
      (or_iff_left fun hj => ?_).symm
    cases hj
  | _ => exact hok.elim

end Late

theorem tail_actAll {actions : List (Action K V)} {state : Primary K V × Disk}
    (h : AllProceed actions state) : state.1.tail ≤ (actAll actions state).1.tail := by
  induction actions generalizing state with
  | nil => exact Nat.le_refl _
  | cons action rest ih =>
    refine Nat.le_trans ?_ (ih h.2)
    cases action with
    | perform op => exact tail_step op state.1 state.2
    | register => exact Nat.le_refl _
    | _ => exact h.1.elim

/-- In every state that is reached the group stands for what has joined until then. -/
theorem Late.actAll {primary : Primary K V} {disk : Disk} {owner id n : Nat}
    {predicates : List (Predicate (KeyValue K V))} {predicate : Predicate (KeyValue K V)}
    {joined : Nat → Prop} (h : primary.Late disk owner id predicates n predicate joined)
    (hp : predicates[n]? = some predicate) {actions : List (Action K V)}
    (hok : AllProceed actions (primary, disk))
    (hf : (Primary.actAll actions (primary, disk)).1.tail < UInt64.size) :
    (Primary.actAll actions (primary, disk)).1.Late (Primary.actAll actions (primary, disk)).2 owner
      id predicates n predicate
      (fun place => joined place ∨ JoinedDuring predicate.key actions (primary, disk) place) := by
  induction actions generalizing primary disk joined with
  | nil => exact h.congr fun place => (or_iff_left not_false).symm
  | cons action rest ih =>
    have htail := tail_actAll hok
    exact (ih (h.act hp (Nat.lt_of_le_of_lt htail hf) hok.1) hok.2 hf).congr fun place => or_assoc

/-- Whatever was done before, a query for a predicate gives just the ids of the stored records that
have its key now and that have joined it since it was registered, provided that no change of a
record has failed since. -/
theorem query_of_late_registration {config : Config} {identity : Nat}
    {disk opened there added last : Disk} {manager registered : Manager (KeyValue K V)}
    {front back : List (Action K V)} {before after : Primary K V} {type : KeyType}
    {definitions : List (String × (KeyValue K V → Option type.Value))} {handles : List (Handle type)}
    (hw : disk.WellFormed)
    (hopen : Manager.open? config identity disk = (.ok manager, opened))
    (hfront : actAll front (ofManager manager, opened) = (before, there))
    (hregister : before.manager.register type definitions there = (.ok handles, registered, added))
    (hback : actAll back ({ before with manager := registered }, added) = (after, last))
    (hok : AllProceed back ({ before with manager := registered }, added))
    (htail : after.tail < UInt64.size)
    (hfits : ∀ group ∈ after.manager.groups, group.store.log.Fits)
    {n : Nat} {name : String} {output : KeyValue K V → Option type.Value} {handle : Handle type}
    (hd : definitions[n]? = some (name, output)) (hh : handles[n]? = some handle)
    (key : type.Value) :
    ∃ query ids, after.manager.query handle [key] {} = .ok query ∧
      (query.collect { manager := after.manager, disk := last }).1 = .ok ids ∧
      ids.Pairwise (· < ·) ∧
      ∀ id, id ∈ ids ↔ ∃ address data, after.slot address = .ok (some data) ∧
        after.recordId address = id ∧ output data = some key ∧
        JoinedDuring output back ({ before with manager := registered }, added) address := by
  have hsound := (Sound.opened hw hopen : Sound (ofManager manager : Primary K V) opened).actAll front
  rw [hfront] at hsound
  obtain ⟨hwatches, rfl⟩ := Manager.Watches.registered hsound.stands hregister
  obtain ⟨predicates, hpredicates⟩ : ∃ predicates : List (Predicate (KeyValue K V)), predicates =
    definitions.map fun definition => ⟨definition.1, type, definition.2⟩ := ⟨_, rfl⟩
  rw [← hpredicates] at hwatches
  have hp : predicates[n]? = some ⟨name, type, output⟩ := by
    rw [hpredicates, List.getElem?_map, hd]
    rfl
  have hstart : Late { before with manager := registered } added before.manager.identity
      before.manager.nextGroup predicates n ⟨name, type, output⟩ (fun _ => False) :=
    ⟨hsound.filed, _, hwatches, fun key id => by simp [Stores]⟩
  have hend := (hstart.actAll hp hok (hback ▸ htail)).congr fun place => iff_of_eq (false_or _)
  rw [hback] at hend
  obtain ⟨index, hw, ha⟩ := hend.chains
  obtain ⟨group, hg, hid, place, hreads⟩ := hw.group
  obtain rfl : handle =
      ⟨name, before.manager.nextGroup, UInt8.ofNat n, before.manager.identity⟩ := by
    rw [Manager.getElem?_handles, List.getElem?_map, hd] at hh
    simpa using hh.symm
  obtain ⟨query, ids, hquery, hcollect, hascending, hmem⟩ := Manager.query_group hw.stands.distinct
    hg hreads (hfits group hg)
    ⟨type, ⟨name, before.manager.nextGroup, UInt8.ofNat n, before.manager.identity⟩, output⟩
    hw.identity.symm hid.symm rfl hp key
  exact ⟨query, ids, hquery, hcollect, hascending, fun id => (hmem id).trans (ha key id)⟩

def even : List (String × (KeyValue Nat Nat → Option Bool)) :=
  [("even", fun data => some (data.value % 2 == 0))]

def fourNumbers : List (Action Nat Nat) :=
  [.perform (.upsert 1 2), .perform (.upsert 2 5), .perform (.upsert 3 7), .perform (.upsert 4 8)]

def laterChanges : List (Action Nat Nat) :=
  [.perform (.updateWith 1 (· + 1)), .perform (.updateWith 2 (· + 2)),
    .register .bool [("large", fun data => if 3 < data.value then some true else none)],
    .perform .shiftReadOnly, .perform (.updateWith 3 (· + 1)), .perform (.upsert 5 6),
    .perform (.delete 4)]

def laterChangesFit : Bool :=
  match Manager.open? (D := KeyValue Nat Nat) { dir := ["db"] } 0 {} with
  | (.error _, _) => false
  | (.ok manager, opened) =>
    match actAll fourNumbers (ofManager manager, opened) with
    | (before, there) =>
      match before.manager.register .bool even there with
      | (.error _, _, _) => false
      | (.ok handles, registered, added) =>
        let start : Primary Nat Nat × Disk := ({ before with manager := registered }, added)
        decide (handles = [⟨"even", 0, 0, 0⟩] ∧ AllProceed laterChanges start ∧
          (actAll laterChanges start).1.tail < UInt64.size ∧
          ∀ group ∈ (actAll laterChanges start).1.manager.groups,
            group.store.log.flushed ≤ Disk.offsetLimit ∧ group.store.log.tail < UInt64.size)

theorem query_of_later_changes : ∃ (manager registered : Manager (KeyValue Nat Nat))
    (opened there added last : Disk) (before after : Primary Nat Nat),
    Manager.open? { dir := ["db"] } 0 {} = (.ok manager, opened) ∧
      actAll fourNumbers (ofManager manager, opened) = (before, there) ∧
      before.manager.register .bool even there = (.ok [⟨"even", 0, 0, 0⟩], registered, added) ∧
      actAll laterChanges ({ before with manager := registered }, added) = (after, last) ∧
      ∀ key : KeyType.bool.Value, ∃ query ids,
        after.manager.query (⟨"even", 0, 0, 0⟩ : Handle .bool) [key] {} = .ok query ∧
        (query.collect { manager := after.manager, disk := last }).1 = .ok ids ∧
        ids.Pairwise (· < ·) ∧
        ∀ id, id ∈ ids ↔ ∃ address data, after.slot address = .ok (some data) ∧
          after.recordId address = id ∧ some (data.value % 2 == 0) = some key ∧
          JoinedDuring (fun data => some (data.value % 2 == 0)) laterChanges
            ({ before with manager := registered }, added) address := by
  have hfacts : laterChangesFit = true := by decide +kernel
  unfold laterChangesFit at hfacts
  rcases hopen : Manager.open? (D := KeyValue Nat Nat) { dir := ["db"] } 0 {} with
    ⟨fault | manager, opened⟩
  · rw [hopen] at hfacts
    cases hfacts
  · rw [hopen] at hfacts
    rcases hfront : actAll fourNumbers (ofManager manager, opened) with ⟨before, there⟩
    simp only [hfront] at hfacts
    rcases hregister : before.manager.register .bool even there with
      ⟨fault | handles, registered, added⟩
    · rw [hregister] at hfacts
      cases hfacts
    · simp only [hregister] at hfacts
      rcases hback : actAll laterChanges ({ before with manager := registered }, added) with
        ⟨after, last⟩
      rw [hback] at hfacts
      obtain ⟨rfl, hok, htail, hfits⟩ := of_decide_eq_true hfacts
      exact ⟨manager, registered, opened, there, added, last, before, after, rfl, hfront, hregister,
        hback, fun key => query_of_late_registration Disk.WellFormed.empty hopen hfront hregister
          hback hok htail (fun group hg => ⟨(hfits group hg).1, (hfits group hg).2⟩) (n := 0) rfl rfl
          key⟩

def largeCheckpointed : List (Action Nat Nat) :=
  evenThenLarge ++ [.onStore 1 (.take .full ⟨1⟩), .onStore 1 .complete]

def largeUnrecovered : List (Action Nat Nat) :=
  [.register .bool [("large", fun data => if 3 < data.value then some true else none)],
    .perform (.upsert 1 4)]

def unrecoveredAnswers : Bool :=
  match Manager.open? (D := KeyValue Nat Nat) { dir := ["db"] } 1 (leftBehind largeCheckpointed) with
  | (.error _, _) => false
  | (.ok manager, opened) =>
    match manager.register .bool even opened with
    | (.error _, _, _) => false
    | (.ok handles, registered, added) =>
      match actAll largeUnrecovered (ofManager registered, added) with
      | (after, last) =>
        match after.manager.answer last evenHandle [true] none with
        | .error _ => false
        | .ok ids => decide (handles = [evenHandle] ∧ ids = [⟨1, 1⟩] ∧ after.tail = 1 ∧
            ∀ group ∈ after.manager.groups,
              group.store.log.flushed ≤ Disk.offsetLimit ∧ group.store.log.tail < UInt64.size)

/-- The group in front of one that awaits recovery has indexed a record that was then refused. -/
theorem query_of_refused_record : ¬ ∀ (config : Config) (identity : Nat)
    (disk opened there added last : Disk) (manager registered : Manager (KeyValue Nat Nat))
    (front back : List (Action Nat Nat)) (before after : Primary Nat Nat) (type : KeyType)
    (definitions : List (String × (KeyValue Nat Nat → Option type.Value)))
    (handles : List (Handle type)) (n : Nat) (name : String)
    (output : KeyValue Nat Nat → Option type.Value) (handle : Handle type) (key : type.Value),
    disk.WellFormed → Manager.open? config identity disk = (.ok manager, opened) →
    actAll front (ofManager manager, opened) = (before, there) →
    before.manager.register type definitions there = (.ok handles, registered, added) →
    actAll back ({ before with manager := registered }, added) = (after, last) →
    (∀ action ∈ back, (∃ op, action = .perform op) ∨
      ∃ other others, action = .register other others) →
    after.tail < UInt64.size → (∀ group ∈ after.manager.groups, group.store.log.Fits) →
    definitions[n]? = some (name, output) → handles[n]? = some handle →
    ∃ query ids, after.manager.query handle [key] {} = .ok query ∧
      (query.collect { manager := after.manager, disk := last }).1 = .ok ids ∧
      ids.Pairwise (· < ·) ∧
      ∀ id, id ∈ ids ↔ ∃ address data, after.slot address = .ok (some data) ∧
        after.recordId address = id ∧ output data = some key ∧
        JoinedDuring output back ({ before with manager := registered }, added) address := by
  have hfacts : unrecoveredAnswers = true := by decide +kernel
  unfold unrecoveredAnswers at hfacts
  intro h
  split at hfacts
  · cases hfacts
  · rename_i manager opened hopen
    split at hfacts
    · cases hfacts
    · rename_i handles registered added hregister
      rcases hback : actAll largeUnrecovered (ofManager registered, added) with ⟨after, last⟩
      simp only [hback] at hfacts
      split at hfacts
      · cases hfacts
      · rename_i ids hanswer
        obtain ⟨rfl, rfl, htail, hfits⟩ := of_decide_eq_true hfacts
        have hplain : ∀ action ∈ largeUnrecovered, (∃ op, action = .perform op) ∨
            ∃ other others, action = .register other others := by
          intro action ha
          simp only [largeUnrecovered, List.mem_cons, List.not_mem_nil, or_false] at ha
          rcases ha with rfl | rfl
          · exact .inr ⟨_, _, rfl⟩
          · exact .inl ⟨_, rfl⟩
        obtain ⟨query, ids, hquery, hcollect, -, hmem⟩ :=
          h _ _ _ _ _ _ _ _ _ [] _ (ofManager manager) _ .bool _ _ 0 _ _ _ true
            (wellFormed_leftBehind largeCheckpointed) hopen rfl hregister hback hplain
            (by rw [htail]; decide) (fun group hg => ⟨(hfits group hg).1, (hfits group hg).2⟩) rfl rfl
        rw [Manager.answer, hquery] at hanswer
        obtain rfl := Except.ok.inj (hcollect.symm.trans hanswer)
        obtain ⟨address, data, hat, -⟩ := (hmem ⟨1, 1⟩).mp List.mem_cons_self
        have hbounds := At.bounds hat
        omega

end Primary

end PredicateIndex
