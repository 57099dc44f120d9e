import PredicateIndex.Proofs.ManagerReads

/-!
# Boolean combinations of predicates

A query gives exactly the ids whose indicators match, for any number of key
types, predicates and keys and for any condition on the indicators. Reading the
chains of one predicate does not disturb another one, so a query for two
predicates combines what the queries for each of them give.
-/

set_option autoImplicit false

namespace PredicateIndex

open MergeJoin RecordId

def settled {α β : Type} (answer : α → Except Fault (Option β)) (items : List α) :
    Except Fault (Option (List β)) :=
  (gather (fun item (_ : Unit) => (answer item, ())) items ()).1

section Settled

variable {α β ω : Type} {answer : α → Except Fault (Option β)} {calm : ω → Prop}
  {step : α → ω → Except Fault (Option β) × ω}

theorem settled_cons (answer : α → Except Fault (Option β)) (item : α) (rest : List α) :
    settled answer (item :: rest) =
      match answer item with
      | .error fault => .error fault
      | .ok none => .ok none
      | .ok (some first) =>
        match settled answer rest with
        | .ok (some others) => .ok (some (first :: others))
        | outcome => outcome := by
  rw [settled, gather]
  rcases answer item with fault | _ | first
  · rfl
  · rfl
  · dsimp only
    rw [settled]
    rcases gather (fun item (_ : Unit) => (answer item, ())) rest () with ⟨fault | _ | others, _⟩ <;> rfl

theorem gather_settled (h : ∀ item world, calm world →
      (step item world).1 = answer item ∧ calm (step item world).2)
    (items : List α) {world : ω} (hw : calm world) :
    (gather step items world).1 = settled answer items ∧ calm (gather step items world).2 := by
  induction items generalizing world with
  | nil => exact ⟨rfl, hw⟩
  | cons item rest ih =>
    obtain ⟨ha, hcalm⟩ := h item world hw
    rw [settled_cons, gather, ← ha]
    rcases hs : step item world with ⟨fault | _ | first, after⟩ <;> rw [hs] at hcalm
    · exact ⟨rfl, hcalm⟩
    · exact ⟨rfl, hcalm⟩
    · obtain ⟨hrest, hafter⟩ := ih hcalm
      dsimp only at hrest hafter ⊢
      rw [← hrest]
      rcases hg : gather step rest after with ⟨fault | _ | others, last⟩ <;>
      · rw [hg] at hafter
        exact ⟨rfl, hafter⟩

theorem settled_ok (h : ∀ item result, answer item = .ok result → result.isSome)
    {items : List α} {result : Option (List β)} (hr : settled answer items = .ok result) :
    result.isSome := by
  induction items generalizing result with
  | nil =>
    obtain rfl := Except.ok.inj hr
    rfl
  | cons item rest ih =>
    rw [settled_cons] at hr
    rcases ha : answer item with fault | _ | first
    · rw [ha] at hr
      cases hr
    · cases h item none ha
    · rw [ha] at hr
      rcases hs : settled answer rest with fault | _ | others
      · rw [hs] at hr
        cases hr
      · cases ih hs
      · rw [hs] at hr
        obtain rfl := Except.ok.inj hr
        rfl

theorem settled_forall {fits : β → Prop}
    (h : ∀ item result, answer item = .ok (some result) → fits result) {items : List α}
    {results : List β} (hr : settled answer items = .ok (some results)) :
    ∀ result ∈ results, fits result := by
  induction items generalizing results with
  | nil =>
    obtain rfl := Option.some.inj (Except.ok.inj hr)
    simp
  | cons item rest ih =>
    rw [settled_cons] at hr
    rcases ha : answer item with fault | _ | first
    · rw [ha] at hr
      cases hr
    · rw [ha] at hr
      cases hr
    · rw [ha] at hr
      rcases hs : settled answer rest with fault | _ | others
      · rw [hs] at hr
        cases hr
      · rw [hs] at hr
        cases hr
      · rw [hs] at hr
        obtain rfl := Option.some.inj (Except.ok.inj hr)
        exact List.forall_mem_cons.mpr ⟨h item first ha, ih hs⟩

theorem settled_of_forall {value : α → β} {items : List α}
    (h : ∀ item ∈ items, answer item = .ok (some (value item))) :
    settled answer items = .ok (some (items.map value)) := by
  induction items with
  | nil => rfl
  | cons item rest ih =>
    rw [settled_cons, h item List.mem_cons_self,
      ih fun other ho => h other (List.mem_cons_of_mem item ho)]
    rfl

end Settled

/-- Whether the end of the stream of a key type's predicate ends a query under the rule. -/
def EndRule.selects : EndRule → Nat → Nat → Bool
  | .never, _, _ => false
  | .anyStream, _, _ => true
  | .streams selected, keyType, predicate => selected.contains (keyType, predicate)

namespace Manager

variable {D : Type} {manager : Manager D} {disk : Disk}

/-- Nobody has cancelled the query, and every chain reads as it did on the given manager. -/
structure Calm (manager : Manager D) (disk : Disk) (world : QueryWorld D) : Prop where
  same : world.disk = disk
  going : world.trace.cancelled = false
  reads : ∀ source key, (world.manager.readChain source key false disk).1 =
    (manager.readChain source key false disk).1

/-- While nobody cancels a query, its matches depend on its combinator and its end on its end rule
alone. -/
theorem selects_callbacks (manager : Manager D) (disk : Disk)
    (combinator : Option (Indicators → Bool)) (startAfter : Option RecordId) (endRule : EndRule) :
    Selects (callbacks (D := D) combinator { startAfter, endRule }) (combinator.getD fun _ => true)
      endRule.selects (Calm manager disk) where
  matched indicators world hw := by
    cases combinator with
    | none => exact ⟨rfl, hw⟩
    | some judge =>
      refine ⟨rfl, hw.same, ?_, hw.reads⟩
      simp [callbacks, Trace.judge, hw.going]
  stopsAt keyType predicate _ hw := by
    cases endRule with
    | never => exact ⟨rfl, hw⟩
    | anyStream => exact ⟨rfl, hw⟩
    | streams selected =>
      have hselects := List.contains_eq_mem (keyType, predicate) selected
      exact ⟨hselects.symm, hw.same, hw.going, hw.reads⟩
  isCancelled _ hw := hw.going

theorem judges_callbacks (manager : Manager D) (disk : Disk)
    (combinator : Option (Indicators → Bool)) (startAfter : Option RecordId) :
    Judges (callbacks (D := D) combinator { startAfter }) (combinator.getD fun _ => true)
      (Calm manager disk) where
  matched := (selects_callbacks manager disk combinator startAfter .never).matched
  stopsAt := (selects_callbacks manager disk combinator startAfter .never).stopsAt
  isCancelled _ hw := hw.going

theorem readChain_calm (combinator : Option (Indicators → Bool)) (settings : QuerySettings)
    (source : ChainSource) (key : Bytes) {world : QueryWorld D} (hw : Calm manager disk world) :
    ((callbacks combinator settings).readChain source key world).1 =
        (manager.readChain source key false disk).1 ∧
      Calm manager disk ((callbacks combinator settings).readChain source key world).2 := by
  simp only [callbacks, hw.same, hw.going]
  refine ⟨hw.reads source key, rfl, hw.going, fun other read => ?_⟩
  exact (readChain_again world.manager source other key read false false disk).trans
    (hw.reads other read)

def chainsOf (manager : Manager D) (disk : Disk) (source : ChainSource) :
    Except Fault (Option (List (List RecordId))) :=
  settled (fun key => (manager.readChain source key false disk).1) source.keys

theorem chains_ascend {sources : List (List ChainSource)}
    {chains : List (List (List (List RecordId)))}
    (h : settled (settled (manager.chainsOf disk)) sources = .ok (some chains)) :
    ChainsAscend chains := by
  refine settled_forall (fun row found hrow => settled_forall (fun source found hsource => ?_) hrow) h
  refine settled_forall (fun key ids hkey => ?_) hsource
  obtain ⟨_, hids, ha⟩ := readChain_ok hkey
  exact Option.some.inj hids ▸ ha

theorem readAll_calm (combinator : Option (Indicators → Bool)) (settings : QuerySettings)
    (sources : List (List ChainSource)) {world : QueryWorld D} (hw : Calm manager disk world) :
    (readAll (callbacks combinator settings) sources world).1 =
        settled (settled (manager.chainsOf disk)) sources ∧
      Calm manager disk (readAll (callbacks combinator settings) sources world).2 := by
  apply gather_settled (fun row world hworld => ?_) sources hw
  apply gather_settled (fun source world hsource => ?_) row hworld
  exact gather_settled (fun key world hkey => readChain_calm combinator settings source key hkey)
    source.keys hsource

/-- A query whose chains can be read gives just the ids behind its start whose chains match. -/
theorem collect_chains (combinator : Option (Indicators → Bool)) (startAfter : Option RecordId)
    {sources : List (List ChainSource)} {chains : ChainSource → List (List RecordId)}
    (h : ∀ row ∈ sources, ∀ source ∈ row,
      manager.chainsOf disk source = .ok (some (chains source))) :
    ∃ ids, (Query.collect ⟨sources, startAfter, callbacks combinator { startAfter }⟩
        { manager, disk }).1 = .ok ids ∧ Ascending ids ∧
      ∀ id, id ∈ ids ↔ (∀ bound, startAfter = some bound → bound < id) ∧
        (∃ row ∈ sources, ∃ source ∈ row, ∃ chain ∈ chains source, id ∈ chain) ∧
        (combinator.getD fun _ => true) (sources.map fun row => row.map fun source =>
          decide (∃ chain ∈ chains source, id ∈ chain)) = true := by
  have hw : Calm manager disk { manager, disk } := ⟨rfl, rfl, fun _ _ => rfl⟩
  obtain ⟨hread, hcalm⟩ := readAll_calm combinator { startAfter } sources hw
  have hall : settled (settled (manager.chainsOf disk)) sources =
      .ok (some (sources.map (·.map chains))) :=
    settled_of_forall fun row hrow => settled_of_forall fun source hs => h row hrow source hs
  rcases hr : readAll (callbacks combinator { startAfter }) sources { manager, disk } with
    ⟨result, after⟩
  rw [hr, hall] at hread
  rw [hr] at hcalm
  simp only at hread hcalm
  subst hread
  obtain ⟨ids, hids, hmem, -, hcollect⟩ := yields_read startAfter
    (judges_callbacks manager disk combinator startAfter) hr hcalm (chains_ascend hall)
  refine ⟨ids, ?_, hids, fun id => ?_⟩
  · cases startAfter <;> exact hcollect
  · have hoccurs : (∃ row ∈ sources.map (·.map chains), ∃ source ∈ row, ∃ chain ∈ source, id ∈ chain) ↔
        ∃ row ∈ sources, ∃ source ∈ row, ∃ chain ∈ chains source, id ∈ chain := by
      constructor
      · rintro ⟨row, hr, read, hs, hchain⟩
        obtain ⟨row, hrow, rfl⟩ := List.mem_map.mp hr
        obtain ⟨source, hsource, rfl⟩ := List.mem_map.mp hs
        exact ⟨row, hrow, source, hsource, hchain⟩
      · rintro ⟨row, hrow, source, hsource, hchain⟩
        exact ⟨_, List.mem_map_of_mem hrow, _, List.mem_map_of_mem hsource, hchain⟩
    rw [hmem, hoccurs]
    simp only [List.map_map, Function.comp_def]

theorem isSome_chainsOf {source : ChainSource} {result : Option (List (List RecordId))}
    (h : manager.chainsOf disk source = .ok result) : ∃ chains, result = some chains := by
  refine Option.isSome_iff_exists.mp (settled_ok (fun key result hk => ?_) h)
  obtain ⟨ids, rfl, -⟩ := readChain_ok hk
  rfl

theorem collect_chainsOf_error {source : ChainSource} (startAfter : Option RecordId) {fault : Fault}
    (h : manager.chainsOf disk source = .error fault) :
    (Query.collect ⟨[[source]], startAfter, callbacks none { startAfter }⟩
      { manager, disk }).1 = .error fault := by
  have hw : Calm manager disk { manager, disk } := ⟨rfl, rfl, fun _ _ => rfl⟩
  obtain ⟨hread, -⟩ := readAll_calm none { startAfter } [[source]] hw
  have hall : settled (settled (manager.chainsOf disk)) [[source]] = .error fault := by
    rw [settled_cons, settled_cons, h]
  have hstart : Query.laterBound startAfter none = startAfter := by cases startAfter <;> rfl
  rw [Query.collect, Query.start, hstart]
  exact collect_error startAfter (hread.trans hall)

theorem collect_source {source : ChainSource} (startAfter : Option RecordId)
    {chains : List (List RecordId)} (h : manager.chainsOf disk source = .ok (some chains)) :
    ∃ ids, (Query.collect ⟨[[source]], startAfter, callbacks none { startAfter }⟩
        { manager, disk }).1 = .ok ids ∧ Ascending ids ∧
      ∀ id, id ∈ ids ↔ (∀ bound, startAfter = some bound → bound < id) ∧
        ∃ chain ∈ chains, id ∈ chain := by
  obtain ⟨ids, hcollect, ha, hmem⟩ := @collect_chains D manager disk none startAfter [[source]]
    (fun _ => chains) (by simp [h])
  exact ⟨ids, hcollect, ha, fun id => by simp [hmem]⟩

theorem chainsOf_of_collect {source : ChainSource} {startAfter : Option RecordId}
    {ids : List RecordId}
    (h : (Query.collect ⟨[[source]], startAfter, callbacks none { startAfter }⟩
      { manager, disk }).1 = .ok ids) :
    ∃ chains, manager.chainsOf disk source = .ok (some chains) ∧
      ∀ id, id ∈ ids ↔ (∀ bound, startAfter = some bound → bound < id) ∧
        ∃ chain ∈ chains, id ∈ chain := by
  cases hc : manager.chainsOf disk source with
  | error fault =>
    rw [collect_chainsOf_error startAfter hc] at h
    cases h
  | ok result =>
    obtain ⟨chains, rfl⟩ := isSome_chainsOf hc
    obtain ⟨found, hcollect, -, hmem⟩ := collect_source startAfter hc
    rw [hcollect] at h
    obtain rfl := Except.ok.inj h
    exact ⟨chains, rfl, hmem⟩

theorem collect_congr {manager other : Manager D} {disk after : Disk} {source : ChainSource}
    (startAfter : Option RecordId)
    (h : other.chainsOf after source = manager.chainsOf disk source) :
    (Query.collect ⟨[[source]], startAfter, callbacks none { startAfter }⟩
        { manager := other, disk := after }).1 =
      (Query.collect ⟨[[source]], startAfter, callbacks none { startAfter }⟩
        { manager, disk }).1 := by
  cases hc : manager.chainsOf disk source with
  | error fault =>
    rw [collect_chainsOf_error startAfter hc, collect_chainsOf_error startAfter (h.trans hc)]
  | ok result =>
    obtain ⟨chains, rfl⟩ := isSome_chainsOf hc
    obtain ⟨ids, hcollect, ha, hmem⟩ := collect_source startAfter hc
    obtain ⟨others, hothers, hb, hmemOthers⟩ := collect_source startAfter (h.trans hc)
    have hsame : others = ids := hb.ext ha fun id => (hmemOthers id).trans (hmem id).symm
    rw [hcollect, hothers, hsame]

theorem query_ok {type : KeyType} {handle : Handle type} {keys : List type.Value}
    {settings : QuerySettings} {query : Query (QueryWorld D)}
    (h : manager.query handle keys settings = .ok query) :
    ∃ source, manager.source (handle, keys) = .ok source ∧
      query = ⟨[[source]], settings.startAfter, callbacks none settings⟩ := by
  rw [Manager.query, prepare, sources, sourcesOf] at h
  cases hs : manager.source (handle, keys) with
  | error fault =>
    rw [hs] at h
    cases h
  | ok source =>
    rw [hs] at h
    exact ⟨source, rfl, (Except.ok.inj h).symm⟩

theorem query2_ok {first second : KeyType} {one : Handle first × List first.Value}
    {two : Handle second × List second.Value} {here there : ChainSource}
    (ho : manager.source one = .ok here) (ht : manager.source two = .ok there)
    (condition : Bool → Bool → Bool) (settings : QuerySettings) :
    manager.query2 one two condition settings =
      .ok ⟨[[here], [there]], settings.startAfter, callbacks
        (some fun indicators => condition (indicators.holds 0 0) (indicators.holds 1 0))
        settings⟩ := by
  simp [Manager.query2, prepare, sources, sourcesOf, ho, ht, bind, Except.bind, pure, Except.pure]

/-- A query for two predicates gives the ids that either query gives and that meet the condition. -/
theorem query2_ids {first second : KeyType} {one : Handle first × List first.Value}
    {two : Handle second × List second.Value} {startAfter : Option RecordId}
    {queryOne queryTwo : Query (QueryWorld D)} {idsOne idsTwo : List RecordId}
    (ho : manager.query one.1 one.2 { startAfter } = .ok queryOne)
    (hone : (queryOne.collect { manager, disk }).1 = .ok idsOne)
    (ht : manager.query two.1 two.2 { startAfter } = .ok queryTwo)
    (htwo : (queryTwo.collect { manager, disk }).1 = .ok idsTwo) (condition : Bool → Bool → Bool) :
    ∃ query ids, manager.query2 one two condition { startAfter } = .ok query ∧
      (query.collect { manager, disk }).1 = .ok ids ∧ Ascending ids ∧
      ∀ id, id ∈ ids ↔ (id ∈ idsOne ∨ id ∈ idsTwo) ∧
        condition (decide (id ∈ idsOne)) (decide (id ∈ idsTwo)) = true := by
  obtain ⟨here, hhere, rfl⟩ := query_ok ho
  obtain ⟨there, hthere, rfl⟩ := query_ok ht
  obtain ⟨chainsOne, hchainsOne, hmemOne⟩ := chainsOf_of_collect hone
  obtain ⟨chainsTwo, hchainsTwo, hmemTwo⟩ := chainsOf_of_collect htwo
  -- if both sources are the same, they have read the same chains
  have hchains : ∀ row ∈ [[here], [there]], ∀ source ∈ row, manager.chainsOf disk source =
      .ok (some (if source = here then chainsOne else chainsTwo)) := by
    intro row hrow source hs
    by_cases he : source = here
    · rw [if_pos he, he, hchainsOne]
    · have hsource : source = there := by
        rcases List.mem_cons.mp hrow with rfl | hrow
        · exact (he (List.mem_singleton.mp hs)).elim
        · rw [List.mem_singleton.mp hrow] at hs
          exact List.mem_singleton.mp hs
      rw [if_neg he, hsource, hchainsTwo]
  have hthereChains : (if there = here then chainsOne else chainsTwo) = chainsTwo := by
    split
    · rename_i he
      rw [he, hchainsOne] at hchainsTwo
      exact Option.some.inj (Except.ok.inj hchainsTwo)
    · rfl
  obtain ⟨ids, hcollect, hids, hmem⟩ := collect_chains
    (some fun indicators => condition (indicators.holds 0 0) (indicators.holds 1 0)) startAfter
    hchains
  refine ⟨_, ids, query2_ok hhere hthere condition _, hcollect, hids, fun id => ?_⟩
  rw [hmem]
  by_cases hb : ∀ bound, startAfter = some bound → bound < id
  · have hinOne : (∃ chain ∈ chainsOne, id ∈ chain) ↔ id ∈ idsOne := by
      rw [hmemOne]
      exact (and_iff_right hb).symm
    have hinTwo : (∃ chain ∈ chainsTwo, id ∈ chain) ↔ id ∈ idsTwo := by
      rw [hmemTwo]
      exact (and_iff_right hb).symm
    simp [hthereChains, hinOne, hinTwo, Indicators.holds, and_iff_right hb]
  · have hnotOne : id ∉ idsOne := fun hm => hb ((hmemOne id).mp hm).1
    have hnotTwo : id ∉ idsTwo := fun hm => hb ((hmemTwo id).mp hm).1
    constructor
    · exact fun h => (hb h.1).elim
    · rintro ⟨hm | hm, -⟩
      · exact (hnotOne hm).elim
      · exact (hnotTwo hm).elim

/-- Any condition gives exactly the matching ids of the chains that were read, in ascending order;
a conjunction gives the intersection and a disjunction the union of two queries. -/
theorem results_exact :
    (∀ (ω : Type) (query : Query ω) (judge : Indicators → Bool) (calm : ω → Prop) (world read : ω)
        (chains : List (List (List (List RecordId)))),
      Judges query.calls judge calm →
      readAll query.calls query.sources world = (.ok (some chains), read) → calm read →
      (∀ row ∈ chains, ∀ source ∈ row, ∀ chain ∈ source, chain.Pairwise (· < ·)) →
      ∃ ids, ids.Pairwise (· < ·) ∧
        (∀ id, id ∈ ids ↔ (∀ bound, query.startAfter = some bound → bound < id) ∧
          (∃ row ∈ chains, ∃ source ∈ row, ∃ chain ∈ source, id ∈ chain) ∧
          judge (chains.map fun row => row.map fun source =>
            decide (∃ chain ∈ source, id ∈ chain)) = true) ∧
        (∀ count, (MergeJoin.take query.calls count (query.start none) world).1 =
          .ok (ids.take count)) ∧
        (query.collect world).1 = .ok ids) ∧
    ∀ (D : Type) (manager : Manager D) (disk : Disk) (first second : KeyType)
        (one : Handle first × List first.Value) (two : Handle second × List second.Value)
        (startAfter : Option RecordId) (queryOne queryTwo : Query (QueryWorld D))
        (idsOne idsTwo : List RecordId),
      manager.query one.1 one.2 { startAfter } = .ok queryOne →
      (queryOne.collect { manager, disk }).1 = .ok idsOne →
      manager.query two.1 two.2 { startAfter } = .ok queryTwo →
      (queryTwo.collect { manager, disk }).1 = .ok idsTwo →
      (∃ query ids, manager.query2 one two (· && ·) { startAfter } = .ok query ∧
        (query.collect { manager, disk }).1 = .ok ids ∧ ids.Pairwise (· < ·) ∧
        ∀ id, id ∈ ids ↔ id ∈ idsOne ∧ id ∈ idsTwo) ∧
      ∃ query ids, manager.query2 one two (· || ·) { startAfter } = .ok query ∧
        (query.collect { manager, disk }).1 = .ok ids ∧ ids.Pairwise (· < ·) ∧
        ∀ id, id ∈ ids ↔ id ∈ idsOne ∨ id ∈ idsTwo := by
  constructor
  · intro ω query judge calm world read chains hjudges hread hcalm hascend
    have hstart : query.start none = ofSources query.sources query.startAfter := by
      rw [Query.start]
      cases query.startAfter <;> rfl
    obtain ⟨ids, hids, hmem, hyields, hcollect⟩ :=
      yields_read query.startAfter hjudges hread hcalm hascend
    refine ⟨ids, hids, hmem, fun count => ?_, ?_⟩
    · rw [hstart]
      exact hyields.take count
    · rw [Query.collect, hstart]
      exact hcollect
  · intro D manager disk first second one two startAfter queryOne queryTwo idsOne idsTwo ho hone ht htwo
    obtain ⟨both, idsBoth, hboth, hcollectBoth, hidsBoth, hmemBoth⟩ :=
      query2_ids ho hone ht htwo (· && ·)
    obtain ⟨either, idsEither, heither, hcollectEither, hidsEither, hmemEither⟩ :=
      query2_ids ho hone ht htwo (· || ·)
    refine ⟨⟨both, idsBoth, hboth, hcollectBoth, hidsBoth, fun id => ?_⟩,
      either, idsEither, heither, hcollectEither, hidsEither, fun id => ?_⟩
    · rw [hmemBoth]
      simp only [Bool.and_eq_true, decide_eq_true_eq]
      exact and_iff_right_of_imp fun h => Or.inl h.1
    · rw [hmemEither]
      simp only [Bool.or_eq_true, decide_eq_true_eq]
      exact and_self_iff

def fixedChains (judge : Indicators → Bool) : Callbacks Unit where
  readChain _ key _ :=
    let addresses : List UInt64 := match key with
      | [0] => [1, 3, 5, 7]
      | [1] => [3, 4, 5, 6]
      | [2] => [2, 8]
      | _ => []
    (.ok (some (addresses.map fun address => ⟨address, 1⟩)), ())
  matched indicators _ := (judge indicators, ())
  stopsAt _ _ _ := (false, ())
  isCancelled _ := false

def evenAndLarge : Option (Manager Nat × Disk × Handle .bool × Handle .bool) :=
  match Manager.open? { dir := ["db"] } 0 {} with
  | (.error _, _) => none
  | (.ok manager, disk) =>
    let definitions : List (String × (Nat → Option Bool)) :=
      [("even", fun n => some (n % 2 == 0)), ("large", fun n => if 3 < n then some true else none)]
    match manager.register .bool definitions disk with
    | (.ok [even, large], manager, disk) =>
      let (manager, disk) := [1, 2, 3, 4, 5, 6].foldl (fun state n =>
        (Manager.insert state.1 n ⟨UInt64.ofNat n, 1⟩ state.2).2) (manager, disk)
      some (manager, disk, even, large)
    | _ => none

def evenAndLargeAnswer : Bool :=
  match evenAndLarge with
  | some (manager, disk, even, large) =>
    match manager.query even [true] {}, manager.query large [true] {} with
    | .ok one, .ok two =>
      match (one.collect { manager, disk }).1, (two.collect { manager, disk }).1 with
      | .ok idsOne, .ok idsTwo => decide (idsOne = [⟨2, 1⟩, ⟨4, 1⟩, ⟨6, 1⟩] ∧
          idsTwo = [⟨4, 1⟩, ⟨5, 1⟩, ⟨6, 1⟩])
      | _, _ => false
    | _, _ => false
  | none => false

/-- Two key types with two predicates, one of them queried for two keys and one chain used twice;
and the large even numbers. -/
theorem results_exact_fixed :
    (∃ ids, ids.Pairwise (· < ·) ∧
      (∀ id, id ∈ ids ↔ (∀ bound, some (⟨1, 1⟩ : RecordId) = some bound → bound < id) ∧
        (∃ row ∈ [[[[⟨1, 1⟩, ⟨3, 1⟩, ⟨5, 1⟩, ⟨7, 1⟩], [⟨2, 1⟩, ⟨8, 1⟩]],
            [[⟨3, 1⟩, ⟨4, 1⟩, ⟨5, 1⟩, ⟨6, 1⟩]]], [[[⟨3, 1⟩, ⟨4, 1⟩, ⟨5, 1⟩, ⟨6, 1⟩]]]],
          ∃ source ∈ row, ∃ chain ∈ source, id ∈ chain) ∧
        (fun indicators : Indicators => indicators.holds 0 0 != indicators.holds 1 0)
          ([[[[⟨1, 1⟩, ⟨3, 1⟩, ⟨5, 1⟩, ⟨7, 1⟩], [⟨2, 1⟩, ⟨8, 1⟩]],
            [[⟨3, 1⟩, ⟨4, 1⟩, ⟨5, 1⟩, ⟨6, 1⟩]]], [[[⟨3, 1⟩, ⟨4, 1⟩, ⟨5, 1⟩, ⟨6, 1⟩]]]].map fun row =>
              row.map fun source => decide (∃ chain ∈ source, id ∈ chain)) = true) ∧
      ((Query.collect ⟨[[⟨0, "a", 0, [[0], [2]]⟩, ⟨0, "b", 1, [[1]]⟩], [⟨1, "c", 0, [[1]]⟩]],
        some ⟨1, 1⟩, fixedChains fun indicators => indicators.holds 0 0 != indicators.holds 1 0⟩
          ()).1 = .ok ids)) ∧
    ∃ manager disk even large query ids, evenAndLarge = some (manager, disk, even, large) ∧
      manager.query2 (even, [true]) (large, [true]) (· && ·) {} = .ok query ∧
      (query.collect { manager, disk }).1 = .ok ids ∧
      ∀ id, id ∈ ids ↔ id ∈ [⟨2, 1⟩, ⟨4, 1⟩, ⟨6, 1⟩] ∧ id ∈ [⟨4, 1⟩, ⟨5, 1⟩, ⟨6, 1⟩] := by
  constructor
  · obtain ⟨ids, hids, hmem, -, hcollect⟩ := results_exact.1 Unit
      ⟨[[⟨0, "a", 0, [[0], [2]]⟩, ⟨0, "b", 1, [[1]]⟩], [⟨1, "c", 0, [[1]]⟩]], some ⟨1, 1⟩,
        fixedChains fun indicators => indicators.holds 0 0 != indicators.holds 1 0⟩
      (fun indicators => indicators.holds 0 0 != indicators.holds 1 0) (fun _ => True) () ()
      [[[[⟨1, 1⟩, ⟨3, 1⟩, ⟨5, 1⟩, ⟨7, 1⟩], [⟨2, 1⟩, ⟨8, 1⟩]],
        [[⟨3, 1⟩, ⟨4, 1⟩, ⟨5, 1⟩, ⟨6, 1⟩]]], [[[⟨3, 1⟩, ⟨4, 1⟩, ⟨5, 1⟩, ⟨6, 1⟩]]]]
      ⟨fun _ _ _ => ⟨rfl, trivial⟩, fun _ _ _ _ => ⟨rfl, trivial⟩, fun _ _ => rfl⟩ rfl trivial
      (by decide)
    exact ⟨ids, hids, hmem, hcollect⟩
  · have hfacts : evenAndLargeAnswer = true := by decide +kernel
    unfold evenAndLargeAnswer at hfacts
    split at hfacts
    · rename_i manager disk even large hmanager
      split at hfacts
      · rename_i one two hone htwo
        split at hfacts
        · rename_i idsOne idsTwo hidsOne hidsTwo
          obtain ⟨rfl, rfl⟩ := of_decide_eq_true hfacts
          obtain ⟨query, ids, hquery, hcollect, -, hmem⟩ := (results_exact.2 Nat manager disk .bool
            .bool (even, [true]) (large, [true]) none one two _ _ hone hidsOne htwo hidsTwo).1
          exact ⟨manager, disk, even, large, query, ids, hmanager, hquery, hcollect, hmem⟩
        · cases hfacts
      · cases hfacts
    · cases hfacts

end Manager

end PredicateIndex
