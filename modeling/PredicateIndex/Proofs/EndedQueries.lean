import PredicateIndex.Proofs.ChangingPages

/-!
# Queries that end with a stream

If the end of a stream is the end of a query, the query gives what it gives
otherwise up to the last id of the stream. Where a match needs the stream
anyway, nothing is lost.
-/

set_option autoImplicit false

namespace PredicateIndex

open MergeJoin
open RecordId (Ascending)

theorem RecordId.Ascending.exists_not_lt_iff {ids : List RecordId} (h : Ascending ids)
    {id : RecordId} :
    (∃ last ∈ ids, ¬ last < id) ↔ ∃ last, ids.getLast? = some last ∧ ¬ last < id := by
  constructor
  · rintro ⟨found, hfound, hlt⟩
    rcases List.eq_nil_or_concat ids with rfl | ⟨front, last, rfl⟩
    · cases hfound
    · rw [List.concat_eq_append] at h hfound ⊢
      refine ⟨last, List.getLast?_concat, fun hlast => hlt ?_⟩
      rcases List.mem_append.mp hfound with hm | hm
      · exact lt_trans ((List.pairwise_append.mp h).2.2 found hm last List.mem_cons_self) hlast
      · exact List.mem_singleton.mp hm ▸ hlast
  · rintro ⟨last, hlast, hlt⟩
    exact ⟨last, List.mem_of_getLast? hlast, hlt⟩

def Query.endless {ω : Type} (query : Query ω) : Query ω :=
  { query with calls := { query.calls with stopsAt := fun _ _ world => (false, world) } }

namespace MergeJoin

variable {ω : Type} {calls others : Callbacks ω} {judge : Indicators → Bool}
  {selected : Nat → Nat → Bool} {calm : ω → Prop} {startAfter : Option RecordId}

/-- The ids of a query that ends with the selected ones of its streams, next to those it gives if
no stream ends it. -/
structure EndedBy (selected : Nat → Nat → Bool) (judge : Indicators → Bool)
    (streams : List (List (List RecordId))) (whole ids : List RecordId) : Prop where
  ascend : whole.Pairwise (· < ·) ∧ ids.Pairwise (· < ·)
  /-- Just the ids that are not greater than the last one of any selected stream. -/
  upToEnds : ∀ id, id ∈ ids ↔ id ∈ whole ∧ ∀ row column stream, selected row column = true →
    cell? streams row column = some stream → ∃ last, stream.getLast? = some last ∧ ¬ last < id
  empty : (∃ row column, selected row column = true ∧ cell? streams row column = some []) → ids = []
  /-- If nothing matches that is missing in a selected stream, the end of the streams takes away no
  match. -/
  conjunctive : (∀ indicators : Indicators,
      indicators.map List.length = streams.map List.length →
      (∃ row column, selected row column = true ∧ cell? indicators row column = some false) →
      judge indicators = false) → ids = whole

/-- What comes out of the streams up to the ends of the selected ones, next to all that comes out. -/
theorem EndedBy.ofStreams {streams : List (List (List RecordId))} {whole ids : List RecordId}
    (ha : AllAscend streams) (hw : Ascending whole) (hi : Ascending ids)
    (hmemWhole : ∀ id, id ∈ whole ↔ Occurs id streams ∧ judge (present id streams) = true)
    (hmem : ∀ id, id ∈ ids ↔ (Occurs id streams ∧ judge (present id streams) = true) ∧
      Within selected streams id) : EndedBy selected judge streams whole ids where
  ascend := ⟨hw, hi⟩
  upToEnds id := by
    rw [hmem, hmemWhole, Within]
    refine and_congr_right fun _ => forall_congr' fun row => forall_congr' fun column =>
      forall_congr' fun stream => imp_congr_right fun _ => ?_
    refine forall_congr' fun hcell => ?_
    obtain ⟨line, hline, hs⟩ := mem_of_cell? hcell
    exact (ha line hline stream hs).exists_not_lt_iff
  empty := by
    rintro ⟨row, column, hs, hcell⟩
    refine List.eq_nil_iff_forall_not_mem.mpr fun id hid => ?_
    obtain ⟨last, hlast, -⟩ := ((hmem id).mp hid).2 row column [] hs hcell
    cases hlast
  conjunctive hneeds := by
    refine hi.ext hw fun id => ?_
    rw [hmem, hmemWhole]
    refine and_iff_left_of_imp fun hmatch row column stream hs hcell => ?_
    by_cases hm : id ∈ stream
    · exact ⟨id, hm, RecordId.lt_irrefl id⟩
    · have hfalse : judge (present id streams) = false := by
        apply hneeds
        · simp [present]
        · refine ⟨row, column, hs, ?_⟩
          rw [present, cell?_map, hcell, Option.map_some, decide_eq_false hm]
      rw [hmatch.2] at hfalse
      cases hfalse

theorem ended_of_selects {sources : List (List ChainSource)} {world read after : ω}
    {chains : List (List (List (List RecordId)))} (startAfter : Option RecordId)
    (h : Selects calls judge selected calm) (ho : Selects others judge (fun _ _ => false) calm)
    (hr : readAll calls sources world = (.ok (some chains), read)) (hc : calm read)
    (hro : readAll others sources world = (.ok (some chains), after)) (hco : calm after)
    (ha : ChainsAscend chains) :
    ∃ whole ids, (collect others (ofSources sources startAfter) world).1 = .ok whole ∧
      (collect calls (ofSources sources startAfter) world).1 = .ok ids ∧
      Yields calls ids (ofSources sources startAfter) world ∧
      EndedBy selected judge (chains.map (List.map (merged startAfter))) whole ids := by
  obtain ⟨whole, hwhole, hmemWhole, -, hcollectWhole⟩ := yields_streams startAfter ho hro hco ha
  obtain ⟨ids, hids, hmem, hyields, hcollect⟩ := yields_streams startAfter h hr hc ha
  refine ⟨whole, ids, hcollectWhole, hcollect, hyields,
    .ofStreams (ascend_merged startAfter ha) hwhole hids (fun id => ?_) hmem⟩
  exact (hmemWhole id).trans (and_iff_left fun _ _ _ hs => (Bool.false_ne_true hs).elim)

end MergeJoin

theorem Query.start_none {ω : Type} (query : Query ω) :
    query.start none = ofSources query.sources query.startAfter := by
  rw [Query.start]
  cases query.startAfter <;> rfl

namespace Manager

variable {D : Type} {manager : Manager D} {disk : Disk}

def stream (manager : Manager D) (disk : Disk) (startAfter : Option RecordId)
    (source : ChainSource) : List RecordId :=
  merged startAfter (source.keys.map (manager.chainIds disk source))

theorem streams_allChains (manager : Manager D) (disk : Disk) (startAfter : Option RecordId)
    (sources : List (List ChainSource)) :
    (manager.allChains disk sources).map (List.map (merged startAfter)) =
      sources.map (List.map (manager.stream disk startAfter)) := by
  simp only [allChains, List.map_map, Function.comp_def]
  rfl

/-- The end rule takes away just what lies behind the ends of the streams that it selects. -/
theorem collect_ended (sources : List (List ChainSource)) (combinator : Option (Indicators → Bool))
    (startAfter : Option RecordId) (endRule : EndRule) {world : QueryWorld D}
    (hgoing : world.trace.cancelled = false) :
    (∃ fault, world.manager.Unreadable world.disk sources fault ∧
      (Query.collect ⟨sources, startAfter, callbacks combinator { startAfter }⟩ world).1 =
        .error fault ∧
      (Query.collect ⟨sources, startAfter, callbacks combinator { startAfter, endRule }⟩ world).1 =
        .error fault) ∨
    ∃ whole ids,
      (Query.collect ⟨sources, startAfter, callbacks combinator { startAfter }⟩ world).1 =
        .ok whole ∧
      (Query.collect ⟨sources, startAfter, callbacks combinator { startAfter, endRule }⟩ world).1 =
        .ok ids ∧
      EndedBy endRule.selects (combinator.getD fun _ => true)
        (sources.map (List.map (world.manager.stream world.disk startAfter))) whole ids := by
  have hw : Calm world.manager world.disk world := ⟨rfl, hgoing, fun _ _ => rfl⟩
  obtain ⟨hread, hcalm⟩ := readAll_calm combinator { startAfter } sources hw
  obtain ⟨hended, hlast⟩ := readAll_calm combinator { startAfter, endRule } sources hw
  simp only [Query.collect, Query.start_none]
  rcases chains_cases world.manager world.disk sources with ⟨fault, hs, hunreadable⟩ | hs
  · exact .inl ⟨fault, hunreadable, collect_error startAfter (hread.trans hs),
      collect_error startAfter (hended.trans hs)⟩
  · obtain ⟨whole, ids, hwhole, hids, -, h⟩ := ended_of_selects startAfter
      (selects_callbacks world.manager world.disk combinator startAfter endRule)
      (selects_callbacks world.manager world.disk combinator startAfter .never)
      (Prod.ext (hended.trans hs) rfl) hlast (Prod.ext (hread.trans hs) rfl) hcalm
      (chains_ascend hs)
    rw [streams_allChains] at h
    exact .inr ⟨whole, ids, hwhole, hids, h⟩

theorem prepare_settings {terms : List QueryTerms} {combinator : Option (Indicators → Bool)}
    {settings : QuerySettings} {query : Query (QueryWorld D)}
    (h : manager.prepare terms combinator settings = .ok query) (other : QuerySettings) :
    manager.prepare terms combinator other =
      .ok ⟨query.sources, other.startAfter, callbacks combinator other⟩ := by
  rw [prepare] at h ⊢
  cases hs : manager.sources terms with
  | error fault =>
    rw [hs] at h
    cases h
  | ok sources =>
    rw [hs] at h
    obtain rfl := Except.ok.inj h
    rfl

end Manager

/-- A query that ends with the end of selected streams gives, among the ids that it gives without
that, just those up to the last id of every selected stream, and none if one of these streams is
empty. It gives all of them if nothing matches that is missing in a selected stream. -/
theorem results_up_to_ends :
    (∀ (ω : Type) (query : Query ω) (judge : Indicators → Bool) (selected : Nat → Nat → Bool)
        (calm : ω → Prop) (world read : ω) (chains : List (List (List (List RecordId)))),
      Selects query.calls judge selected calm →
      readAll query.calls query.sources world = (.ok (some chains), read) → calm read →
      (∀ row ∈ chains, ∀ source ∈ row, ∀ chain ∈ source, chain.Pairwise (· < ·)) →
      ∃ whole ids, (query.endless.collect world).1 = .ok whole ∧
        (query.collect world).1 = .ok ids ∧
        (∀ count, (MergeJoin.take query.calls count (query.start none) world).1 =
          .ok (ids.take count)) ∧
        EndedBy selected judge (chains.map (List.map (merged query.startAfter))) whole ids) ∧
    ∀ (D : Type) (manager : Manager D) (terms : List QueryTerms)
        (combinator : Option (Indicators → Bool)) (startAfter : Option RecordId)
        (endRule : EndRule) (endless : Query (QueryWorld D)),
      manager.prepare terms combinator { startAfter } = .ok endless →
      ∃ query, manager.prepare terms combinator { startAfter, endRule } = .ok query ∧
        ∀ world, world.trace.cancelled = false →
          (∃ fault, world.manager.Unreadable world.disk query.sources fault ∧
            (endless.collect world).1 = .error fault ∧ (query.collect world).1 = .error fault) ∨
          ∃ whole ids, (endless.collect world).1 = .ok whole ∧ (query.collect world).1 = .ok ids ∧
            EndedBy endRule.selects (combinator.getD fun _ => true)
              (query.sources.map (List.map (world.manager.stream world.disk startAfter)))
              whole ids := by
  constructor
  · intro ω query judge selected calm world read chains h hread hcalm hascend
    have hendless : Selects query.endless.calls judge (fun _ _ => false) calm :=
      ⟨h.matched, fun _ _ _ hw => ⟨rfl, hw⟩, h.isCancelled⟩
    obtain ⟨whole, ids, hwhole, hids, hyields, hended⟩ :=
      ended_of_selects query.startAfter h hendless hread hcalm hread hcalm hascend
    refine ⟨whole, ids, ?_, ?_, fun count => ?_, hended⟩
    · rw [Query.collect, Query.start_none]
      exact hwhole
    · rw [Query.collect, Query.start_none]
      exact hids
    · rw [Query.start_none]
      exact hyields.take count
  · intro D manager terms combinator startAfter endRule endless hendless
    obtain ⟨hshape, -⟩ := Manager.prepare_ok hendless
    refine ⟨_, Manager.prepare_settings hendless { startAfter, endRule }, fun world hgoing => ?_⟩
    have h := Manager.collect_ended endless.sources combinator startAfter endRule hgoing
    rwa [← hshape] at h

def endingChains (judge : Indicators → Bool) : Callbacks Unit :=
  { Manager.fixedChains judge with stopsAt := fun _ column _ => (column = 1, ()) }

def endingQuery : Query Unit where
  sources := [[⟨0, "a", 0, [[0]]⟩, ⟨0, "b", 1, [[1]]⟩]]
  startAfter := none
  calls := endingChains fun indicators => indicators.holds 0 0 != indicators.holds 0 1

def oddOrLarge (even large : Handle .bool) : List QueryTerms :=
  [⟨.bool, [(even, [false]), (large, [true])]⟩]

def oddOrLargeAnswer : Bool :=
  match Manager.evenAndLarge with
  | some (manager, disk, even, large) =>
    match manager.prepare (oddOrLarge even large) none {},
        manager.prepare (oddOrLarge even large) none { endRule := .streams [(0, 0)] } with
    | .ok endless, .ok query =>
      match (endless.collect { manager, disk }).1, (query.collect { manager, disk }).1 with
      | .ok whole, .ok ids => decide (whole = [⟨1, 1⟩, ⟨3, 1⟩, ⟨4, 1⟩, ⟨5, 1⟩, ⟨6, 1⟩] ∧
          ids = [⟨1, 1⟩, ⟨3, 1⟩, ⟨4, 1⟩, ⟨5, 1⟩])
      | _, _ => false
    | _, _ => false
  | none => false

theorem oddOrLarge_runs : ∃ manager disk even large endless query,
    Manager.evenAndLarge = some (manager, disk, even, large) ∧
    manager.prepare (oddOrLarge even large) none {} = .ok endless ∧
    manager.prepare (oddOrLarge even large) none { endRule := .streams [(0, 0)] } = .ok query ∧
    (endless.collect { manager, disk }).1 = .ok [⟨1, 1⟩, ⟨3, 1⟩, ⟨4, 1⟩, ⟨5, 1⟩, ⟨6, 1⟩] ∧
    (query.collect { manager, disk }).1 = .ok [⟨1, 1⟩, ⟨3, 1⟩, ⟨4, 1⟩, ⟨5, 1⟩] := by
  have hfacts : oddOrLargeAnswer = true := by decide +kernel
  unfold oddOrLargeAnswer at hfacts
  split at hfacts
  · rename_i manager disk even large hmanager
    split at hfacts
    · rename_i endless query hendless hquery
      split at hfacts
      · rename_i whole ids hwhole hids
        obtain ⟨rfl, rfl⟩ := of_decide_eq_true hfacts
        exact ⟨manager, disk, even, large, endless, query, hmanager, hendless, hquery, hwhole, hids⟩
      · cases hfacts
    · cases hfacts
  · cases hfacts

/-- The second chain ends before the first one does, and the last odd number is less than the last
large one. -/
theorem results_up_to_ends_odd_or_large :
    (EndedBy (fun _ column => column = 1)
        (fun indicators => indicators.holds 0 0 != indicators.holds 0 1)
        [[[⟨1, 1⟩, ⟨3, 1⟩, ⟨5, 1⟩, ⟨7, 1⟩], [⟨3, 1⟩, ⟨4, 1⟩, ⟨5, 1⟩, ⟨6, 1⟩]]]
        [⟨1, 1⟩, ⟨4, 1⟩, ⟨6, 1⟩, ⟨7, 1⟩] [⟨1, 1⟩, ⟨4, 1⟩, ⟨6, 1⟩] ∧
      (endingQuery.endless.collect ()).1 = .ok [⟨1, 1⟩, ⟨4, 1⟩, ⟨6, 1⟩, ⟨7, 1⟩] ∧
      (endingQuery.collect ()).1 = .ok [⟨1, 1⟩, ⟨4, 1⟩, ⟨6, 1⟩]) ∧
    ∃ manager disk even large endless query,
      Manager.evenAndLarge = some (manager, disk, even, large) ∧
      manager.prepare (oddOrLarge even large) none {} = .ok endless ∧
      manager.prepare (oddOrLarge even large) none { endRule := .streams [(0, 0)] } = .ok query ∧
      (endless.collect { manager, disk }).1 = .ok [⟨1, 1⟩, ⟨3, 1⟩, ⟨4, 1⟩, ⟨5, 1⟩, ⟨6, 1⟩] ∧
      (query.collect { manager, disk }).1 = .ok [⟨1, 1⟩, ⟨3, 1⟩, ⟨4, 1⟩, ⟨5, 1⟩] ∧
      EndedBy (EndRule.streams [(0, 0)]).selects (fun _ => true)
        (query.sources.map (List.map (manager.stream disk none)))
        [⟨1, 1⟩, ⟨3, 1⟩, ⟨4, 1⟩, ⟨5, 1⟩, ⟨6, 1⟩] [⟨1, 1⟩, ⟨3, 1⟩, ⟨4, 1⟩, ⟨5, 1⟩] := by
  constructor
  · obtain ⟨whole, ids, hwhole, hids, -, hended⟩ := results_up_to_ends.1 Unit endingQuery
      (fun indicators => indicators.holds 0 0 != indicators.holds 0 1) (fun _ column => column = 1)
      (fun _ => True) () ()
      [[[[⟨1, 1⟩, ⟨3, 1⟩, ⟨5, 1⟩, ⟨7, 1⟩]], [[⟨3, 1⟩, ⟨4, 1⟩, ⟨5, 1⟩, ⟨6, 1⟩]]]]
      ⟨fun _ _ _ => ⟨rfl, trivial⟩, fun _ _ _ _ => ⟨rfl, trivial⟩, fun _ _ => rfl⟩ rfl trivial
      (by decide)
    have hall : (endingQuery.endless.collect ()).1 =
        .ok [⟨1, 1⟩, ⟨4, 1⟩, ⟨6, 1⟩, ⟨7, 1⟩] := by rfl
    have hfront : (endingQuery.collect ()).1 = .ok [⟨1, 1⟩, ⟨4, 1⟩, ⟨6, 1⟩] := by rfl
    obtain rfl := Except.ok.inj (hwhole.symm.trans hall)
    obtain rfl := Except.ok.inj (hids.symm.trans hfront)
    exact ⟨hended, hall, hfront⟩
  · obtain ⟨manager, disk, even, large, endless, prepared, hmanager, hendless, hprepared, hall,
      hfront⟩ := oddOrLarge_runs
    obtain ⟨query, hquery, hruns⟩ := results_up_to_ends.2 Nat manager (oddOrLarge even large) none
      none (.streams [(0, 0)]) endless hendless
    obtain rfl := Except.ok.inj (hquery.symm.trans hprepared)
    rcases hruns { manager, disk } rfl with ⟨fault, -, hfault, -⟩ |
      ⟨whole, ids, hwhole, hids, hended⟩
    · rw [hall] at hfault
      cases hfault
    · obtain rfl := Except.ok.inj (hwhole.symm.trans hall)
      obtain rfl := Except.ok.inj (hids.symm.trans hfront)
      exact ⟨manager, disk, even, large, endless, query, hmanager, hendless, hquery, hall, hfront,
        hended⟩

end PredicateIndex
