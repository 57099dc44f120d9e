import PredicateIndex.Proofs.PrimaryRun
import PredicateIndex.Proofs.QueryStream

/-!
# Query results

A handle that a manager gave leads to the chains of its predicate for as long
as the manager lives. A query for one key of the predicate therefore gives the
records that are stored when it runs and have the key, in ascending order.
-/

set_option autoImplicit false

namespace PredicateIndex

theorem Sized.mem_chains_keyOf {D : Type} {predicates : List (Predicate D)} (h : Sized predicates)
    {n : Nat} {predicate : Predicate D} (hp : predicates[n]? = some predicate) (data : D)
    (value : predicate.type.Value) :
    chainKey (UInt8.ofNat n) (predicate.type.encode value) ∈ (keyOf predicates data).chains ↔
      predicate.key data = some value := by
  have hn : n < 256 := by
    have hl := (List.getElem?_eq_some_iff.mp hp).1
    have hc := h.count
    omega
  have hlen : (keyOf predicates data).length ≤ 255 := by
    rw [Sized.length_keyOf]
    exact h.count
  have hslot : (keyOf predicates data).keyAt? (UInt8.ofNat n) = predicate.evaluate data := by
    rw [CompositeKey.keyAt?, CompositeKey.slot?, UInt8.toNat_ofNat_of_lt' hn, keyOf,
      CompositeKey.getElem?_ofOutputs, List.getElem?_map, hp]
    rfl
  have hordered : (keyOf predicates data).Ordered := CompositeKey.ordered_ofOutputs _
  rw [CompositeKey.mem_chains_keyAt? hordered hlen, hslot, Predicate.evaluate]
  simp [predicate.type.encode_eq_iff]

namespace Manager

variable {D : Type} {origin manager : Manager D} {disk : Disk} {base : Path} {index : Nat → Index}

theorem Names.persist {registered : Registered D} (h : origin.Names registered)
    (hd : origin.groups.Pairwise fun g h => g.id ≠ h.id) (hs : origin.SameGroups manager)
    (hi : manager.Indexed disk base origin.schema index) : manager.Names registered := by
  obtain ⟨howner, group, hg, n, hgroup, hordinal, hp⟩ := h
  have hid : group.id ∈ manager.groups.map Group.id := hs.ids ▸ List.mem_map_of_mem hg
  obtain ⟨known, hk, he⟩ := List.mem_map.mp hid
  refine ⟨howner.trans hs.identity.symm, known, hk, n, hgroup.trans he.symm, hordinal, ?_⟩
  rw [(hi.group known hk).same, he, schema_eq hd hg]
  exact hp

theorem verify_ok {registered : Registered D} (hd : manager.groups.Pairwise fun g h => g.id ≠ h.id)
    (howner : registered.handle.owner = manager.identity) {group : Group D}
    (hg : group ∈ manager.groups) (hid : registered.handle.group = group.id)
    (hname : group.name? registered.handle.ordinal = some registered.handle.name) :
    manager.verify registered.handle = .ok group := by
  rw [verify, if_neg (by simpa using howner), hid, find?_of_distinct hd hg]
  exact if_pos hname

/-- A query for one key of a registered predicate gives what the log of its group has on the chain,
whatever the other groups are. -/
theorem query_group (hd : manager.groups.Pairwise fun g h => g.id ≠ h.id) {group : Group D}
    (hg : group ∈ manager.groups) {place : Path} {predicates : List (Predicate D)} {index : Index}
    (hreads : group.Reads place disk predicates index) (hf : group.store.log.Fits)
    (registered : Registered D) (howner : registered.handle.owner = manager.identity)
    (hgroup : registered.handle.group = group.id) {n : Nat}
    (hordinal : registered.handle.ordinal = UInt8.ofNat n)
    (hp : predicates[n]? = some ⟨registered.handle.name, registered.type, registered.key⟩)
    (value : registered.type.Value) :
    ∃ query ids, manager.query registered.handle [value] {} = .ok query ∧
      (query.collect { manager, disk }).1 = .ok ids ∧ RecordId.Ascending ids ∧
      ∀ id, id ∈ ids ↔ index
        (chainKey registered.handle.ordinal (registered.type.encode value)) id = true := by
  have hlt : n < 256 := by
    have hl := (List.getElem?_eq_some_iff.mp hp).1
    have hc := hreads.sized.count
    omega
  have hname : group.name? registered.handle.ordinal = some registered.handle.name := by
    rw [Group.name?, Group.names, hordinal, UInt8.toNat_ofNat_of_lt' hlt, List.getElem?_map,
      hreads.same, hp]
    rfl
  have hquery : manager.query registered.handle [value] {} = .ok
      ⟨[[⟨group.id, registered.handle.name, registered.handle.ordinal,
        [registered.type.encode value]⟩]], none, callbacks none {}⟩ := by
    rw [query, prepare, sources, sourcesOf, source, verify_ok hd howner hg hgroup hname]
    rfl
  obtain ⟨history, hkeeps, hordered, hindex⟩ := hreads.records
  obtain ⟨ids, hread, hascending, hmem⟩ := hkeeps.readChain_indexOf hf hordered
    registered.handle.ordinal (registered.type.encode value) []
  have hcalls : MergeJoin.TakesAll (callbacks (D := D) none {}) :=
    ⟨fun _ _ => rfl, fun _ _ _ => rfl⟩
  have hchain : ∃ world : QueryWorld D, world.trace.cancelled = false ∧
      (callbacks none {}).readChain ⟨group.id, registered.handle.name, registered.handle.ordinal,
        [registered.type.encode value]⟩ (registered.type.encode value) { manager, disk } =
          (.ok (some ids), world) := by
    simp only [callbacks, readChain, find?_of_distinct hd hg, Group.readChain, hread]
    exact ⟨_, rfl, rfl⟩
  obtain ⟨world, hworld, hchain⟩ := hchain
  refine ⟨_, ids, hquery, ?_, hascending, fun id => ?_⟩
  · exact MergeJoin.collect_chain hcalls rfl hchain hworld hascending
  · rw [hmem, hindex]

theorem query_ids (hi : manager.Indexed disk base origin.schema index)
    (hf : ∀ group ∈ manager.groups, group.store.log.Fits) {registered : Registered D}
    (hn : manager.Names registered) (value : registered.type.Value) :
    ∃ query ids, manager.query registered.handle [value] {} = .ok query ∧
      (query.collect { manager, disk }).1 = .ok ids ∧ RecordId.Ascending ids ∧
      ∀ id, id ∈ ids ↔ index registered.handle.group
        (chainKey registered.handle.ordinal (registered.type.encode value)) id = true := by
  obtain ⟨howner, group, hg, n, hgroup, hordinal, hp⟩ := hn
  have hindexed := hi.group group hg
  rw [hindexed.same] at hp
  rw [hgroup]
  exact query_group hi.distinct hg hindexed.reads (hf group hg) registered howner hgroup hordinal hp
    value

end Manager

namespace Primary

variable {K V : Type} [DecidableEq K]

theorem Indexed.ofNew {manager : Manager (KeyValue K V)} {disk : Disk}
    (h : manager.New disk)
    (hr : ∀ group ∈ manager.groups, group.store.awaitingRecovery = false) :
    ∃ base, (Primary.ofManager manager).Indexed disk base manager := by
  obtain ⟨base, hi⟩ := h.indexed hr
  have hnone : ∀ address data, ¬ (Primary.ofManager manager).At address data := by
    intro address data hat
    have hb := hat.bounds
    have ht : (Primary.ofManager manager).tail = 1 := rfl
    omega
  refine ⟨base, .refl manager, fun key address hk => ?_, _, hi, fun group hg chain id => ?_⟩
  · cases hk
  · constructor
    · intro hc
      cases hc
    · rintro ⟨address, data, hat, -⟩
      exact (hnone address data hat).elim

/-- In every state of a run a query for a registered predicate and a key gives just the ids of the
stored records for which the predicate gives the key, in ascending order. -/
theorem query_of_run {config : Config} {identity : Nat} {disk opened prepared last : Disk}
    {manager ready : Manager (KeyValue K V)} {primary : Primary K V}
    {definitions : List (Definitions (KeyValue K V))}
    {registered : List (Registered (KeyValue K V))} {ops : List (Op K V)} (hw : disk.WellFormed)
    (hopen : Manager.open? config identity disk = (.ok manager, opened))
    (hregister : Manager.registerAll definitions manager opened = (registered, ready, prepared))
    (hnew : ∀ group ∈ ready.groups, group.store.awaitingRecovery = false)
    (hrun : run ops (ofManager ready, prepared) = (primary, last))
    (htail : primary.tail < UInt64.size)
    (hfits : ∀ group ∈ primary.manager.groups, group.store.log.Fits)
    {r : Registered (KeyValue K V)} (hr : r ∈ registered) (key : r.type.Value) :
    ∃ query ids, primary.manager.query r.handle [key] {} = .ok query ∧
      (query.collect { manager := primary.manager, disk := last }).1 = .ok ids ∧
      ids.Pairwise (· < ·) ∧
      ∀ id, id ∈ ids ↔ ∃ address data, primary.slot address = .ok (some data) ∧
        primary.recordId address = id ∧ r.key data = some key := by
  obtain ⟨_, _, _, hall, hready, -, -, -, hnames⟩ :=
    (Manager.New.opened hw hopen).registerAll definitions
  rw [hregister] at hall
  cases hall
  obtain ⟨base, hstart⟩ := Indexed.ofNew hready hnew
  have hend := hstart.run ops (by rwa [hrun])
  rw [hrun] at hend
  obtain ⟨index, hi, ha⟩ := hend.chains
  have hname := (hnames r hr).persist hready.distinct hend.same hi
  obtain ⟨query, ids, hquery, hcollect, hascending, hmem⟩ := Manager.query_ids hi hfits hname key
  refine ⟨query, ids, hquery, hcollect, hascending, fun id => (hmem id).trans ?_⟩
  obtain ⟨-, group, hg, n, hgroup, hordinal, hp⟩ := hname
  have hindexed := hi.group group hg
  rw [hgroup, ha group.id (List.mem_map_of_mem hg), hordinal]
  rw [hindexed.same] at hp
  have hchains := hindexed.sized.mem_chains_keyOf hp
  constructor
  · rintro ⟨address, data, hat, hid, hc⟩
    exact ⟨address, data, hat, hid, (hchains data key).mp hc⟩
  · rintro ⟨address, data, hat, hid, hk⟩
    exact ⟨address, data, hat, hid, (hchains data key).mpr hk⟩

def parity : Definitions (KeyValue Nat Nat) where
  type := .bool
  predicates :=
    [("even", fun data => if data.value = 0 then none else some (data.value % 2 == 0))]

def fiveChanges : List (Op Nat Nat) :=
  [.upsert 1 2, .upsert 2 4, .updateWith 1 (· + 1), .evict, .shiftReadOnly,
    .updateWith 1 (· + 3), .upsert 3 5, .takeCheckpoint .full 1, .completeCheckpoint, .delete 2]

def answer? (primary : Primary Nat Nat) (disk : Disk) (handle : Handle .bool) (key : Bool) :
    Option (List RecordId) :=
  match primary.manager.query handle [key] {} with
  | .ok query => (query.collect { manager := primary.manager, disk }).1.toOption
  | .error _ => none

theorem query_of_answer {primary : Primary Nat Nat} {disk : Disk} {handle : Handle .bool}
    {key : Bool} {ids : List RecordId} (h : answer? primary disk handle key = some ids) :
    ∃ query, primary.manager.query handle [key] {} = .ok query ∧
      (query.collect { manager := primary.manager, disk }).1 = .ok ids := by
  rw [answer?] at h
  split at h
  · rename_i query hq
    refine ⟨query, hq, ?_⟩
    cases hc : (query.collect { manager := primary.manager, disk }).1 with
    | error fault =>
      rw [hc] at h
      cases h
    | ok found =>
      rw [hc] at h
      exact congrArg Except.ok (Option.some.inj h)
  · cases h

def fiveChangesFit : Bool :=
  match Manager.open? (D := KeyValue Nat Nat) { dir := ["db"] } 0 {} with
  | (.ok manager, opened) =>
    match Manager.registerAll [parity] manager opened with
    | ([⟨.bool, handle, _⟩], ready, prepared) =>
      match run fiveChanges (ofManager ready, prepared) with
      | (primary, last) =>
        decide ((∀ group ∈ ready.groups, group.store.awaitingRecovery = false) ∧
          primary.tail < UInt64.size ∧
          (∀ group ∈ primary.manager.groups,
            group.store.log.flushed ≤ Disk.offsetLimit ∧ group.store.log.tail < UInt64.size) ∧
          primary.log = [none, none, some ⟨1, 6⟩, some ⟨3, 5⟩] ∧
          answer? primary last handle true = some [⟨3, 1⟩] ∧
          answer? primary last handle false = some [⟨4, 1⟩])
    | _ => false
  | (.error _, _) => false

theorem query_of_five_changes : ∃ (manager ready : Manager (KeyValue Nat Nat))
    (opened prepared last : Disk) (handle : Handle .bool) (even? : KeyValue Nat Nat → Option Bool)
    (primary : Primary Nat Nat),
    Manager.open? { dir := ["db"] } 0 {} = (.ok manager, opened) ∧
      Manager.registerAll [parity] manager opened = ([⟨.bool, handle, even?⟩], ready, prepared) ∧
      run fiveChanges (ofManager ready, prepared) = (primary, last) ∧
      primary.log = [none, none, some ⟨1, 6⟩, some ⟨3, 5⟩] ∧
      ∀ key ids, (key, ids) ∈ [(true, [RecordId.mk 3 1]), (false, [RecordId.mk 4 1])] →
        ∃ query, primary.manager.query handle [key] {} = .ok query ∧
          (query.collect { manager := primary.manager, disk := last }).1 = .ok ids ∧
          ∀ id, id ∈ ids ↔ ∃ address data, primary.slot address = .ok (some data) ∧
            primary.recordId address = id ∧ even? data = some key := by
  have hfacts : fiveChangesFit = true := by decide +kernel
  unfold fiveChangesFit at hfacts
  split at hfacts
  · rename_i manager opened hopen
    split at hfacts
    · rename_i handle even? ready prepared hregister
      split at hfacts
      rename_i primary last hrun
      obtain ⟨hnew, htail, hfits, hlog, htrue, hfalse⟩ := of_decide_eq_true hfacts
      refine ⟨manager, ready, opened, prepared, last, handle, even?, primary, hopen, hregister, hrun,
        hlog, fun key ids h => ?_⟩
      have hanswer : answer? primary last handle key = some ids := by
        rcases (by simpa using h : key = true ∧ ids = _ ∨ key = false ∧ ids = _) with
          ⟨rfl, rfl⟩ | ⟨rfl, rfl⟩
        · exact htrue
        · exact hfalse
      obtain ⟨query, hquery, hcollect⟩ := query_of_answer hanswer
      obtain ⟨other, found, hother, hfound, -, hmem⟩ := query_of_run Disk.WellFormed.empty hopen
        hregister hnew hrun htail (fun group hg => ⟨(hfits group hg).1, (hfits group hg).2⟩)
        (List.mem_singleton.mpr rfl) key
      obtain rfl := Except.ok.inj (hother.symm.trans hquery)
      obtain rfl := Except.ok.inj (hfound.symm.trans hcollect)
      exact ⟨other, hother, hfound, hmem⟩
    · cases hfacts
  · cases hfacts

end Primary

end PredicateIndex
