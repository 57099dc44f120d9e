import Mathlib.Data.List.Nodup
import PredicateIndex.Proofs.LegibleManagers
import PredicateIndex.Proofs.PagedQueries

/-!
# Pages of a manager that changes

Between two pages of a query the manager may be asked for anything, so each page
cuts a list of its own. All that is carried over is the id to continue behind,
which is the last one of the page before. That is enough for the pages together
to ascend, and for an id that meets the query on every page not to be missed:
as long as it has not come up it lies behind the id to continue from.
-/

set_option autoImplicit false

namespace PredicateIndex

inductive Change (D : Type) where
  | upsert (data : D) (id : RecordId) (tracker : Option (ChangeTracker D))
  | update (tracker : ChangeTracker D)
  | delete (tracker : ChangeTracker D)
  | flush
  | evict

namespace Change

variable {D : Type}

def step : Change D → Manager D × Disk → Manager D × Disk
  | .upsert data id tracker, (manager, disk) =>
    let (_, manager, _, disk) := manager.upsert data id tracker disk
    (manager, disk)
  | .update tracker, (manager, disk) =>
    let (_, manager, _, disk) := manager.update tracker disk
    (manager, disk)
  | .delete tracker, (manager, disk) =>
    let (_, manager, _, disk) := manager.delete tracker disk
    (manager, disk)
  | .flush, (manager, disk) => (manager.flush disk).2
  | .evict, (manager, disk) => (manager.evict disk).2

def run : List (Change D) → Manager D × Disk → Manager D × Disk
  | [], state => state
  | change :: rest, state => run rest (change.step state)

def Fits : Change D → Prop
  | .upsert _ _ tracker => ∀ given, tracker = some given → given.Fits
  | .update tracker | .delete tracker => tracker.Fits
  | .flush | .evict => True

variable {manager : Manager D} {disk : Disk} {base : Path}

theorem legible_step (h : manager.Legible disk base) {change : Change D} (hf : change.Fits) :
    manager.SameGroups (change.step (manager, disk)).1 ∧
      (change.step (manager, disk)).1.Legible (change.step (manager, disk)).2 base := by
  cases change with
  | upsert data id tracker => exact h.upsert data id hf
  | update tracker => exact h.update hf
  | delete tracker => exact h.delete hf
  | flush => exact h.flush
  | evict => exact h.evict

theorem legible_run (h : manager.Legible disk base) {changes : List (Change D)}
    (hf : ∀ change ∈ changes, change.Fits) :
    manager.SameGroups (run changes (manager, disk)).1 ∧
      (run changes (manager, disk)).1.Legible (run changes (manager, disk)).2 base := by
  induction changes generalizing manager disk with
  | nil => exact ⟨.refl manager, h⟩
  | cons change rest ih =>
    obtain ⟨hsame, hstep⟩ := legible_step h (hf change List.mem_cons_self)
    obtain ⟨hrest, hafter⟩ := ih hstep fun other ho => hf other (List.mem_cons_of_mem change ho)
    exact ⟨hsame.trans hrest, hafter⟩

end Change

structure Turn (D : Type) where
  changes : List (Change D)
  limit : Nat
  positive : 0 < limit

def Turn.start {D : Type} (turn : Turn D) (world : QueryWorld D) : QueryWorld D :=
  let state := Change.run turn.changes (world.manager, world.disk)
  { world with manager := state.1, disk := state.2 }

structure Visit (D : Type) where
  manager : Manager D
  disk : Disk
  outcome : Except Fault Segment

def Visit.ids {D : Type} (visit : Visit D) : List RecordId :=
  match visit.outcome with
  | .ok page => page.ids
  | .error _ => []

def Visit.Final {D : Type} (visit : Visit D) : Prop :=
  ∃ page, visit.outcome = .ok page ∧ page.continuation = none

namespace Query

variable {D : Type}

def visits (query : Query (QueryWorld D)) :
    Option RecordId → List (Turn D) → QueryWorld D → List (Visit D)
  | _, [], _ => []
  | continuation, turn :: rest, world =>
    let start := turn.start world
    match query.segment continuation turn.limit start with
    | (.ok ⟨ids, some last⟩, after) =>
      ⟨start.manager, start.disk, .ok ⟨ids, some last⟩⟩ :: query.visits (some last) rest after
    | (outcome, _) => [⟨start.manager, start.disk, outcome⟩]

section

variable {query : Query (QueryWorld D)} {continuation : Option RecordId} {turn : Turn D}
  {world : QueryWorld D}

theorem visits_error (rest : List (Turn D)) {fault : Fault}
    (h : (query.segment continuation turn.limit (turn.start world)).1 = .error fault) :
    query.visits continuation (turn :: rest) world =
      [⟨(turn.start world).manager, (turn.start world).disk, .error fault⟩] := by
  rw [visits]
  rcases hs : query.segment continuation turn.limit (turn.start world) with ⟨outcome, after⟩
  rw [hs] at h
  simp only at h
  rw [h]

theorem visits_last (rest : List (Turn D)) {ids : List RecordId}
    (h : (query.segment continuation turn.limit (turn.start world)).1 = .ok ⟨ids, none⟩) :
    query.visits continuation (turn :: rest) world =
      [⟨(turn.start world).manager, (turn.start world).disk, .ok ⟨ids, none⟩⟩] := by
  rw [visits]
  rcases hs : query.segment continuation turn.limit (turn.start world) with ⟨outcome, after⟩
  rw [hs] at h
  simp only at h
  rw [h]

theorem visits_more (rest : List (Turn D)) {ids : List RecordId} {last : RecordId}
    (h : (query.segment continuation turn.limit (turn.start world)).1 = .ok ⟨ids, some last⟩) :
    query.visits continuation (turn :: rest) world =
      ⟨(turn.start world).manager, (turn.start world).disk, .ok ⟨ids, some last⟩⟩ ::
        query.visits (some last) rest
          (query.segment continuation turn.limit (turn.start world)).2 := by
  rw [visits]
  rcases hs : query.segment continuation turn.limit (turn.start world) with ⟨outcome, after⟩
  rw [hs] at h
  simp only at h
  rw [h]

end

/-- The pages behind an id hold, in ascending order, ids that met the query on their page; if the
last one has been reached, they hold those that met it on every page. -/
structure Exact (sources : List (List ChainSource)) (combinator : Option (Indicators → Bool))
    (startAfter continuation : Option RecordId) (turns : List (Turn D)) (visits : List (Visit D)) :
    Prop where
  ascending : (visits.flatMap Visit.ids).Pairwise (· < ·)
  sound : ∀ visit ∈ visits, ∀ id ∈ visit.ids, (∀ bound, startAfter = some bound → bound < id) ∧
    (∀ bound, continuation = some bound → bound < id) ∧
    visit.manager.meets visit.disk sources combinator id = true
  failed : ∀ visit ∈ visits, ∀ fault, visit.outcome = .error fault →
    (∃ turn ∈ turns, Segment.room ≤ turn.limit ∧ fault = .pageTooLarge turn.limit) ∨
      visit.manager.Unreadable visit.disk sources fault
  complete : (∃ visit ∈ visits, visit.Final) → ∀ id,
    (∀ bound, startAfter = some bound → bound < id) →
    (∀ bound, continuation = some bound → bound < id) →
    (∀ visit ∈ visits, visit.manager.meets visit.disk sources combinator id = true) →
    id ∈ visits.flatMap Visit.ids

namespace Exact

variable {sources : List (List ChainSource)} {combinator : Option (Indicators → Bool)}
  {startAfter continuation : Option RecordId} {turn : Turn D} {turns : List (Turn D)}
  {manager : Manager D} {disk : Disk} {ids : List RecordId}

theorem nil : Exact sources combinator startAfter continuation turns [] where
  ascending := List.Pairwise.nil
  sound := by simp
  failed := by simp
  complete := by simp

theorem error {fault : Fault}
    (h : Segment.room ≤ turn.limit ∧ fault = .pageTooLarge turn.limit ∨
      manager.Unreadable disk sources fault) :
    Exact sources combinator startAfter continuation (turn :: turns)
      [⟨manager, disk, .error fault⟩] where
  ascending := List.Pairwise.nil
  sound := by simp [Visit.ids]
  failed visit hv found hf := by
    obtain rfl := List.mem_singleton.mp hv
    obtain rfl := Except.error.inj hf
    exact h.imp_left fun hlarge => ⟨turn, List.mem_cons_self, hlarge⟩
  complete := by simp [Visit.Final]

theorem last (ha : RecordId.Ascending ids)
    (hmem : ∀ id, id ∈ ids ↔ (∀ bound, startAfter = some bound → bound < id) ∧
      (∀ bound, continuation = some bound → bound < id) ∧
      manager.meets disk sources combinator id = true) :
    Exact sources combinator startAfter continuation turns
      [⟨manager, disk, .ok ⟨ids, none⟩⟩] where
  ascending := by
    rw [List.flatMap_singleton]
    exact ha
  sound visit hv id hid := by
    obtain rfl := List.mem_singleton.mp hv
    exact (hmem id).mp hid
  failed visit hv fault hf := by
    obtain rfl := List.mem_singleton.mp hv
    cases hf
  complete _ id hstart hcontinue hmeets := by
    have hid := (hmem id).mpr ⟨hstart, hcontinue, hmeets _ (List.mem_singleton.mpr rfl)⟩
    simpa [Visit.ids] using hid

theorem more {front rest : List RecordId} {last : RecordId} {others : List (Visit D)}
    (ha : RecordId.Ascending (front ++ last :: rest))
    (hmem : ∀ id, id ∈ front ++ last :: rest ↔ (∀ bound, startAfter = some bound → bound < id) ∧
      (∀ bound, continuation = some bound → bound < id) ∧
      manager.meets disk sources combinator id = true)
    (h : Exact sources combinator startAfter (some last) turns others) :
    Exact sources combinator startAfter continuation (turn :: turns)
      ((⟨manager, disk, .ok ⟨front ++ [last], some last⟩⟩ : Visit D) :: others) := by
  have hshown : ∀ id ∈ front ++ [last], id ∈ front ++ last :: rest := fun id hid => by
    rw [List.append_cons]
    exact List.mem_append_left rest hid
  have hlater : ∀ visit ∈ others, ∀ id ∈ visit.ids, last < id := fun visit hv id hid =>
    (h.sound visit hv id hid).2.1 last rfl
  refine ⟨?_, fun visit hv id hid => ?_, fun visit hv fault hf => ?_,
    fun hfinal id hstart hcontinue hmeets => ?_⟩
  · rw [List.flatMap_cons]
    refine List.pairwise_append.mpr ⟨ha.cut, h.ascending, fun id hid later hl => ?_⟩
    obtain ⟨visit, hv, hl⟩ := List.mem_flatMap.mp hl
    rcases ha.le_cut hid with rfl | hlt
    · exact hlater visit hv later hl
    · exact RecordId.lt_trans hlt (hlater visit hv later hl)
  · rcases List.mem_cons.mp hv with rfl | hv
    · exact (hmem id).mp (hshown id hid)
    · obtain ⟨hstart, hbehind, hmeets⟩ := h.sound visit hv id hid
      refine ⟨hstart, fun bound hb => ?_, hmeets⟩
      have hboundLast := ((hmem last).mp (hshown last (by simp))).2.1 bound hb
      exact RecordId.lt_trans hboundLast (hbehind last rfl)
  · rcases List.mem_cons.mp hv with rfl | hv
    · cases hf
    · refine (h.failed visit hv fault hf).imp_left fun ⟨other, ho, hlarge⟩ => ?_
      exact ⟨other, List.mem_cons_of_mem turn ho, hlarge⟩
  · rw [List.flatMap_cons]
    have hid : id ∈ front ++ last :: rest :=
      (hmem id).mpr ⟨hstart, hcontinue, hmeets _ List.mem_cons_self⟩
    rcases ha.mem_cut hid with hid | hlt
    · exact List.mem_append_left _ hid
    · refine List.mem_append_right _ (h.complete ?_ id hstart (fun bound hb => ?_)
        fun visit hv => hmeets visit (List.mem_cons_of_mem _ hv))
      · obtain ⟨visit, hv, page, hok, hnone⟩ := hfinal
        rcases List.mem_cons.mp hv with rfl | hv
        · cases hok
          cases hnone
        · exact ⟨visit, hv, page, hok, hnone⟩
      · exact Option.some.inj hb ▸ hlt

end Exact

theorem keep_going (combinator : Option (Indicators → Bool)) (startAfter : Option RecordId) :
    (Manager.callbacks (D := D) combinator { startAfter }).Keep
      fun world => world.trace.cancelled = false where
  readChain _ _ _ hw := hw
  matched indicators world hw := by
    cases combinator with
    | none => exact hw
    | some judge => simp [Manager.callbacks, Trace.judge, hw]
  stopsAt _ _ _ hw := hw

/-- Whatever is changed between them, the pages of a query are exact. -/
theorem exact_visits (sources : List (List ChainSource)) (combinator : Option (Indicators → Bool))
    (startAfter continuation : Option RecordId) (turns : List (Turn D)) {world : QueryWorld D}
    (hgoing : world.trace.cancelled = false) :
    Exact sources combinator startAfter continuation turns
      (visits ⟨sources, startAfter, Manager.callbacks combinator { startAfter }⟩ continuation
        turns world) := by
  induction turns generalizing continuation world with
  | nil => exact .nil
  | cons turn rest ih =>
    have hcalled : (turn.start world).trace.cancelled = false := hgoing
    rcases Manager.segment_cases sources combinator startAfter continuation turn.positive hcalled
      with ⟨fault, hpage, hcause⟩ | ⟨ids, ha, hmem, hpage⟩
    · rw [visits_error rest hpage]
      exact .error hcause
    · rcases Segment.ofPage_cases ids turn.positive with
        ⟨-, hcut⟩ | ⟨front, last, left, rfl, -, -, hcut⟩
      · rw [hcut] at hpage
        rw [visits_last rest hpage]
        exact .last ha hmem
      · rw [hcut] at hpage
        rw [visits_more rest hpage]
        have hstill : (segment ⟨sources, startAfter, Manager.callbacks combinator { startAfter }⟩
            continuation turn.limit (turn.start world)).2.trace.cancelled = false :=
          segment_keeps ⟨sources, startAfter, _⟩ (keep_going combinator startAfter) hcalled
            continuation turn.limit
        exact .more ha hmem (ih (some last) hstill)

theorem keep_legible (combinator : Option (Indicators → Bool)) (startAfter : Option RecordId)
    (base : Path) (groups : List Nat) :
    (Manager.callbacks (D := D) combinator { startAfter }).Keep fun world =>
      world.manager.Legible world.disk base ∧ world.manager.groups.map Group.id = groups where
  readChain source key world hw := by
    obtain ⟨hsame, hl⟩ := hw.1.readChain source key world.trace.cancelled
    exact ⟨hl, hsame.ids.trans hw.2⟩
  matched indicators world hw := by
    cases combinator with
    | none => exact hw
    | some judge => exact hw
  stopsAt _ _ _ hw := hw

theorem legible_visits (sources : List (List ChainSource)) (combinator : Option (Indicators → Bool))
    (startAfter continuation : Option RecordId) {turns : List (Turn D)} {base : Path}
    {groups : List Nat} (hf : ∀ turn ∈ turns, ∀ change ∈ turn.changes, change.Fits)
    {world : QueryWorld D}
    (hw : world.manager.Legible world.disk base ∧ world.manager.groups.map Group.id = groups) :
    ∀ visit ∈ visits ⟨sources, startAfter, Manager.callbacks combinator { startAfter }⟩ continuation
        turns world,
      visit.manager.Legible visit.disk base ∧ visit.manager.groups.map Group.id = groups := by
  induction turns generalizing continuation world with
  | nil => simp [visits]
  | cons turn rest ih =>
    obtain ⟨hsame, hlegible⟩ := Change.legible_run hw.1 (hf turn List.mem_cons_self)
    have hstart : (turn.start world).manager.Legible (turn.start world).disk base ∧
        (turn.start world).manager.groups.map Group.id = groups :=
      ⟨hlegible, hsame.ids.trans hw.2⟩
    have hafter := segment_keeps ⟨sources, startAfter, _⟩
      (keep_legible combinator startAfter base groups) hstart continuation turn.limit
    rcases hs : (segment ⟨sources, startAfter, Manager.callbacks combinator { startAfter }⟩
        continuation turn.limit (turn.start world)).1 with fault | ⟨ids, _ | last⟩
    · rw [visits_error rest hs]
      exact fun visit hv => List.mem_singleton.mp hv ▸ hstart
    · rw [visits_last rest hs]
      exact fun visit hv => List.mem_singleton.mp hv ▸ hstart
    · rw [visits_more rest hs]
      intro visit hv
      rcases List.mem_cons.mp hv with rfl | hv
      · exact hstart
      · exact ih (some last) (fun other ho => hf other (List.mem_cons_of_mem turn ho)) hafter
          visit hv

end Query

namespace Manager

variable {D : Type} {manager : Manager D}

theorem mem_of_source {type : KeyType} {term : Handle type × List type.Value} {source : ChainSource}
    (h : manager.source term = .ok source) : source.group ∈ manager.groups.map Group.id := by
  rw [Manager.source, verify] at h
  split at h
  · cases h
  · split at h
    · cases h
    · rename_i group hfind
      split at h
      · obtain rfl := Except.ok.inj h
        exact List.mem_map_of_mem (List.mem_of_find?_eq_some hfind)
      · cases h

theorem mem_of_sourcesOf {type : KeyType} {terms : List (Handle type × List type.Value)}
    {sources : List ChainSource} (h : manager.sourcesOf terms = .ok sources) :
    ∀ source ∈ sources, source.group ∈ manager.groups.map Group.id := by
  induction terms generalizing sources with
  | nil =>
    obtain rfl := Except.ok.inj h
    simp
  | cons term rest ih =>
    rw [sourcesOf] at h
    cases hfirst : manager.source term with
    | error fault =>
      rw [hfirst] at h
      cases h
    | ok first =>
      cases hrest : manager.sourcesOf rest with
      | error fault =>
        rw [hfirst, hrest] at h
        cases h
      | ok others =>
        rw [hfirst, hrest] at h
        obtain rfl := Except.ok.inj h
        intro source hs
        rcases List.mem_cons.mp hs with rfl | hs
        · exact mem_of_source hfirst
        · exact ih hrest source hs

theorem mem_of_sources {terms : List QueryTerms} {sources : List (List ChainSource)}
    (h : manager.sources terms = .ok sources) :
    ∀ row ∈ sources, ∀ source ∈ row, source.group ∈ manager.groups.map Group.id := by
  induction terms generalizing sources with
  | nil =>
    obtain rfl := Except.ok.inj h
    simp
  | cons first rest ih =>
    rw [Manager.sources] at h
    split at h
    · cases h
    · cases hfirst : manager.sourcesOf first.terms with
      | error fault =>
        simp only [hfirst] at h
        cases h
      | ok row =>
        cases hrest : manager.sources rest with
        | error fault =>
          simp only [hfirst, hrest] at h
          cases h
        | ok others =>
          simp only [hfirst, hrest] at h
          obtain rfl := Except.ok.inj h
          intro found hf
          rcases List.mem_cons.mp hf with rfl | hf
          · exact mem_of_sourcesOf hfirst
          · exact ih hrest found hf

theorem prepare_ok {terms : List QueryTerms} {combinator : Option (Indicators → Bool)}
    {settings : QuerySettings} {query : Query (QueryWorld D)}
    (h : manager.prepare terms combinator settings = .ok query) :
    query = ⟨query.sources, settings.startAfter, callbacks combinator settings⟩ ∧
      ∀ row ∈ query.sources, ∀ source ∈ row, source.group ∈ manager.groups.map Group.id := by
  rw [prepare] at h
  cases hs : manager.sources terms with
  | error fault =>
    rw [hs] at h
    cases h
  | ok sources =>
    rw [hs] at h
    obtain rfl := Except.ok.inj h
    exact ⟨rfl, mem_of_sources hs⟩

end Manager

/-- The pages of a query over a manager that is changed between them ascend strictly, each id met
the query when its page was asked for, and once the last page has been reached every id that met
the query on all pages has come up once. A page fails only if its limit leaves no room for it or a
chain cannot be read, which does not happen to groups that have been registered anew as long as
their logs stay within bounds. -/
theorem pages_exact :
    (∀ (D : Type) (manager : Manager D) (disk : Disk) (trace : Trace) (terms : List QueryTerms)
        (combinator : Option (Indicators → Bool)) (startAfter : Option RecordId)
        (query : Query (QueryWorld D)) (turns : List (Turn D)),
      trace.cancelled = false → manager.prepare terms combinator { startAfter } = .ok query →
      let visits := query.visits none turns { manager, disk, trace }
      let ids := visits.flatMap Visit.ids
      ids.Pairwise (· < ·) ∧
      (∀ visit ∈ visits, ∀ id ∈ visit.ids, (∀ bound, startAfter = some bound → bound < id) ∧
        visit.manager.meets visit.disk query.sources combinator id = true) ∧
      (∀ visit ∈ visits, ∀ fault, visit.outcome = .error fault →
        (∃ turn ∈ turns, Segment.room ≤ turn.limit ∧ fault = .pageTooLarge turn.limit) ∨
          visit.manager.Unreadable visit.disk query.sources fault) ∧
      ((∃ visit ∈ visits, visit.Final) → ∀ id, (∀ bound, startAfter = some bound → bound < id) →
        (∀ visit ∈ visits, visit.manager.meets visit.disk query.sources combinator id = true) →
        ids.count id = 1)) ∧
    ∀ (D : Type) (config : Config) (identity : Nat) (disk opened prepared last : Disk)
        (manager ready changed : Manager D) (definitions : List (Definitions D))
        (registered : List (Registered D)) (before : List (Change D)) (trace : Trace)
        (terms : List QueryTerms) (combinator : Option (Indicators → Bool))
        (startAfter : Option RecordId) (query : Query (QueryWorld D)) (turns : List (Turn D)),
      disk.WellFormed → Manager.open? config identity disk = (.ok manager, opened) →
      manager.registerAll definitions opened = (registered, ready, prepared) →
      (∀ change ∈ before, change.Fits) → Change.run before (ready, prepared) = (changed, last) →
      changed.prepare terms combinator { startAfter } = .ok query →
      (∀ turn ∈ turns, turn.limit < Segment.room ∧ ∀ change ∈ turn.changes, change.Fits) →
      let visits := query.visits none turns { manager := changed, disk := last, trace }
      (∀ visit ∈ visits, ∀ group ∈ visit.manager.groups, group.store.log.Fits) →
      trace.cancelled = false → ∀ visit ∈ visits, ∃ page, visit.outcome = .ok page := by
  constructor
  · intro D manager disk trace terms combinator startAfter query turns hgoing hprepare
    obtain ⟨hquery, -⟩ := Manager.prepare_ok hprepare
    have hstart : (QueryWorld.mk manager disk trace).trace.cancelled = false := hgoing
    have hexact := Query.exact_visits query.sources combinator startAfter none turns hstart
    rw [← hquery] at hexact
    refine ⟨hexact.ascending, fun visit hv id hid => ?_, hexact.failed, fun hfinal id hstart hmeets => ?_⟩
    · obtain ⟨hstart, -, hmeets⟩ := hexact.sound visit hv id hid
      exact ⟨hstart, hmeets⟩
    · exact List.count_eq_one_of_mem (RecordId.Ascending.nodup hexact.ascending)
        (hexact.complete hfinal id hstart (fun _ hb => by cases hb) hmeets)
  · intro D config identity disk opened prepared last manager ready changed definitions registered
      before trace terms combinator startAfter query turns hw hopen hregister hbefore hrun hprepare
      hturns visits hfits hgoing visit hv
    obtain ⟨_, _, _, hr, hnew, -⟩ := (Manager.New.opened hw hopen).registerAll definitions
    obtain ⟨-, hready⟩ := Prod.mk.inj (hregister.symm.trans hr)
    obtain ⟨rfl, rfl⟩ := Prod.mk.inj hready
    obtain ⟨base, hlegible⟩ := hnew.legible
    have hchanged := (Change.legible_run hlegible hbefore).2
    rw [hrun] at hchanged
    obtain ⟨hquery, hgroups⟩ := Manager.prepare_ok hprepare
    have hlegible : (QueryWorld.mk changed last trace).manager.Legible last base ∧
        (QueryWorld.mk changed last trace).manager.groups.map Group.id =
          changed.groups.map Group.id := ⟨hchanged, rfl⟩
    have hstart : (QueryWorld.mk changed last trace).trace.cancelled = false := hgoing
    have hvisits := Query.legible_visits query.sources combinator startAfter none
      (fun turn ht => (hturns turn ht).2) hlegible
    have hexact := Query.exact_visits query.sources combinator startAfter none turns hstart
    rw [← hquery] at hvisits hexact
    obtain ⟨hlegibleNow, hids⟩ := hvisits visit hv
    cases ho : visit.outcome with
    | ok page => exact ⟨page, rfl⟩
    | error fault =>
      rcases hexact.failed visit hv fault ho with
        ⟨turn, ht, hlarge, -⟩ | ⟨row, hrow, source, hsource, key, -, herror⟩
      · exact (Nat.not_le.mpr (hturns turn ht).1 hlarge).elim
      have hmem : source.group ∈ visit.manager.groups.map Group.id :=
        hids.symm ▸ hgroups row hrow source hsource
      obtain ⟨ids, hread⟩ := hlegibleNow.reads (hfits visit hv) hmem key
      rw [hread] at herror
      cases herror

def evenAndAboveThree : Definitions Nat where
  type := .bool
  predicates := [("even", fun n => some (n % 2 == 0)),
    ("above three", fun n => if 3 < n then some true else none)]

def sixNumbers : List (Change Nat) :=
  [1, 2, 3, 4, 5, 6].map fun n => .upsert n ⟨UInt64.ofNat n, 1⟩ none

def threeTurns : List (Turn Nat) :=
  [⟨[], 1, by decide⟩,
    ⟨[.delete (({} : ChangeTracker Nat).setBefore 4 ⟨4, 1⟩), .upsert 8 ⟨8, 1⟩ none, .evict], 1,
      by decide⟩,
    ⟨[.flush], 5, by decide⟩]

def eitherTerms : List QueryTerms :=
  [⟨.bool, [(⟨"even", 0, 0, 0⟩, [true]), (⟨"above three", 0, 1, 0⟩, [true])]⟩]

def either (indicators : Indicators) : Bool := indicators.holds 0 0 || indicators.holds 0 1

def threeTurnsFit : Bool :=
  match Manager.open? (D := Nat) { dir := ["db"] } 0 {} with
  | (.ok manager, opened) =>
    match Manager.registerAll [evenAndAboveThree] manager opened with
    | (_, ready, prepared) =>
      match Change.run sixNumbers (ready, prepared) with
      | (changed, last) =>
        match changed.prepare eitherTerms (some either) {} with
        | .ok query =>
          let visits := query.visits none threeTurns { manager := changed, disk := last }
          decide ((∀ visit ∈ visits, ∀ group ∈ visit.manager.groups,
              group.store.log.flushed ≤ Disk.offsetLimit ∧ group.store.log.tail < UInt64.size) ∧
            (∀ visit ∈ visits,
              visit.manager.meets visit.disk query.sources (some either) ⟨6, 1⟩ = true)) &&
          visits.any fun visit => match visit.outcome with
            | .ok page => page.continuation.isNone
            | .error _ => false
        | .error _ => false
  | (.error _, _) => false

theorem fits_sixNumbers : ∀ change ∈ sixNumbers, change.Fits := by
  intro change hc
  obtain ⟨n, -, rfl⟩ := List.mem_map.mp hc
  intro given hg
  cases hg

theorem fits_threeTurns : ∀ turn ∈ threeTurns,
    turn.limit < Segment.room ∧ ∀ change ∈ turn.changes, change.Fits := by
  intro turn ht
  rcases (by simpa [threeTurns] using ht : turn = _ ∨ turn = _ ∨ turn = _) with rfl | rfl | rfl <;>
    refine ⟨by decide, fun change hc => ?_⟩
  · cases hc
  · rcases (by simpa using hc : change = _ ∨ change = _ ∨ change = _) with rfl | rfl | rfl
    · exact ChangeTracker.fits_of_groups rfl
    · intro given hg
      cases hg
    · trivial
  · rw [List.mem_singleton.mp hc]
    trivial

/-- Six is given once, although its neighbours come and go. -/
theorem pages_exact_three_turns : ∃ (changed : Manager Nat) (last : Disk)
    (query : Query (QueryWorld Nat)), changed.prepare eitherTerms (some either) {} = .ok query ∧
      (∀ visit ∈ query.visits none threeTurns { manager := changed, disk := last },
        ∃ page, visit.outcome = .ok page) ∧
      ((query.visits none threeTurns { manager := changed, disk := last }).flatMap
        Visit.ids).Pairwise (· < ·) ∧
      ((query.visits none threeTurns { manager := changed, disk := last }).flatMap
        Visit.ids).count ⟨6, 1⟩ = 1 := by
  have hfacts : threeTurnsFit = true := by decide +kernel
  unfold threeTurnsFit at hfacts
  rcases hopen : Manager.open? (D := Nat) { dir := ["db"] } 0 {} with ⟨fault | manager, opened⟩
  · rw [hopen] at hfacts
    cases hfacts
  · rw [hopen] at hfacts
    rcases hregister : Manager.registerAll [evenAndAboveThree] manager opened with
      ⟨registered, ready, prepared⟩
    simp only [hregister] at hfacts
    rcases hrun : Change.run sixNumbers (ready, prepared) with ⟨changed, last⟩
    simp only [hrun] at hfacts
    cases hprepare : changed.prepare eitherTerms (some either) {} with
    | error fault =>
      rw [hprepare] at hfacts
      cases hfacts
    | ok query =>
      rw [hprepare] at hfacts
      dsimp only at hfacts
      obtain ⟨hbounds, hfinal⟩ := Bool.and_eq_true_iff.mp hfacts
      obtain ⟨hfits, hmeets⟩ := of_decide_eq_true hbounds
      obtain ⟨visit, hv, hlast⟩ := List.any_eq_true.mp hfinal
      have hreached : visit.Final := by
        split at hlast
        · rename_i page ho
          exact ⟨page, ho, Option.isNone_iff_eq_none.mp hlast⟩
        · cases hlast
      obtain ⟨hascending, -, -, hcomplete⟩ := pages_exact.1 Nat changed last {} eitherTerms
        (some either) none query threeTurns rfl hprepare
      have hok := pages_exact.2 Nat { dir := ["db"] } 0 {} opened prepared last manager ready changed
        [evenAndAboveThree] registered sixNumbers {} eitherTerms (some either) none query threeTurns
        Disk.WellFormed.empty hopen hregister fits_sixNumbers hrun hprepare fits_threeTurns
        (fun visit hv group hg => ⟨(hfits visit hv group hg).1, (hfits visit hv group hg).2⟩) rfl
      exact ⟨changed, last, query, hprepare, hok, hascending,
        hcomplete ⟨visit, hv, hreached⟩ ⟨6, 1⟩ (fun _ hb => by cases hb) hmeets⟩

end PredicateIndex
