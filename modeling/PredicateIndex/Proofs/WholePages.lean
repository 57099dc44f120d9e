import PredicateIndex.Proofs.EndedQueries

/-!
# Pages over an unchanged store

Every page call runs the query anew behind the last id of the page before. As
long as the chains read the same, the new run gives what the old one had left
over, because whether an id comes out does not depend on where the run starts.
So the pages put together are what one run gives, as long as there is room for
a page of the limit.
-/

set_option autoImplicit false

namespace PredicateIndex

open MergeJoin
open RecordId (Ascending)

structure Segment.InPages (limit : Nat) (ids : List RecordId) (pages : List Segment) : Prop where
  whole : pages.flatMap Segment.ids = ids
  count : pages.length = (ids.length - 1) / limit + 1
  fits : ∀ page ∈ pages, page.ids.length ≤ limit
  full : ∀ n page, pages[n]? = some page → n + 1 < pages.length → page.ids.length = limit
  /-- Just the last page has no id to continue behind. -/
  ends : ∀ n page, pages[n]? = some page → (page.continuation = none ↔ n + 1 = pages.length)

namespace Segment.InPages

variable {limit : Nat}

theorem last {ids : List RecordId} (hl : 0 < limit) (h : ids.length ≤ limit) :
    InPages limit ids [⟨ids, none⟩] where
  whole := List.flatMap_singleton ..
  count := by
    rw [Nat.div_eq_of_lt (by omega)]
    rfl
  fits := by simpa using h
  full n _ _ hn := by simp at hn
  ends n page hp := by
    cases n with
    | zero =>
      obtain rfl := Option.some.inj hp
      simp
    | succ n => simp at hp

theorem more {front rest : List RecordId} {last : RecordId} {others : List Segment}
    (hfront : front.length + 1 = limit) (hrest : rest ≠ []) (h : InPages limit rest others) :
    InPages limit (front ++ last :: rest) (⟨front ++ [last], some last⟩ :: others) where
  whole := by
    rw [List.flatMap_cons, h.whole]
    exact List.append_cons .. |>.symm
  count := by
    have hpositive := List.length_pos_iff.mpr hrest
    have hall : (front ++ last :: rest).length - 1 = rest.length - 1 + limit := by
      simp only [List.length_append, List.length_cons]
      omega
    rw [List.length_cons, h.count, hall, Nat.add_div_right _ (by omega)]
  fits page hp := by
    rcases List.mem_cons.mp hp with rfl | hp
    · simp [hfront]
    · exact h.fits page hp
  full n page hp hn := by
    cases n with
    | zero =>
      obtain rfl := Option.some.inj hp
      simp [hfront]
    | succ n => exact h.full n page hp (by simpa using hn)
  ends n page hp := by
    cases n with
    | zero =>
      obtain rfl := Option.some.inj hp
      simp [h.count]
    | succ n => simpa using h.ends n page hp

end Segment.InPages

namespace Query

variable {ω : Type} {calm : ω → Prop} {meets : RecordId → Prop} {limit : Nat}

section Calls

variable {query : Query ω} {continuation : Option RecordId} {world : ω}

theorem pages_error {fault : Fault}
    (h : (query.segment continuation limit world).1 = .error fault) (count : Nat) :
    (query.pages limit (count + 1) continuation world).1 = .error fault := by
  rcases hs : query.segment continuation limit world with ⟨result, after⟩
  obtain rfl : result = .error fault := by rwa [hs] at h
  rw [pages, hs]

theorem pages_last {ids : List RecordId}
    (h : (query.segment continuation limit world).1 = .ok ⟨ids, none⟩) (count : Nat) :
    (query.pages limit (count + 1) continuation world).1 = .ok [⟨ids, none⟩] := by
  rcases hs : query.segment continuation limit world with ⟨result, after⟩
  obtain rfl : result = .ok ⟨ids, none⟩ := by rwa [hs] at h
  rw [pages, hs]

theorem pages_more {ids : List RecordId} {last : RecordId} {others : List Segment} {count : Nat}
    (h : (query.segment continuation limit world).1 = .ok ⟨ids, some last⟩)
    (hothers : (query.pages limit count (some last)
      (query.segment continuation limit world).2).1 = .ok others) :
    (query.pages limit (count + 1) continuation world).1 = .ok (⟨ids, some last⟩ :: others) := by
  rcases hs : query.segment continuation limit world with ⟨result, after⟩
  rw [hs] at h hothers
  obtain rfl : result = .ok ⟨ids, some last⟩ := h
  rw [pages, hs]
  dsimp only at hothers ⊢
  rw [hothers]
  rfl

end Calls

theorem mem_rest {front rest : List RecordId} {last : RecordId} {continuation : Option RecordId}
    (ha : Ascending (front ++ last :: rest))
    (hmem : ∀ id, id ∈ front ++ last :: rest ↔
      (∀ bound, continuation = some bound → bound < id) ∧ meets id) (id : RecordId) :
    id ∈ rest ↔ (∀ bound, some last = some bound → bound < id) ∧ meets id := by
  have hlater : ∀ id ∈ rest, last < id :=
    (List.pairwise_cons.mp (List.pairwise_append.mp ha).2.1).1
  constructor
  · intro hid
    refine ⟨fun bound hb => Option.some.inj hb ▸ hlater id hid, ((hmem id).mp ?_).2⟩
    exact List.mem_append_right front (List.mem_cons_of_mem last hid)
  · rintro ⟨hlast, hmeets⟩
    have hlt := hlast last rfl
    have hbehind : ∀ bound, continuation = some bound → bound < id := fun bound hb =>
      RecordId.lt_trans (((hmem last).mp (by simp)).1 bound hb) hlt
    rcases List.mem_append.mp ((hmem id).mpr ⟨hbehind, hmeets⟩) with hid | hid
    · exact (RecordId.lt_irrefl id (RecordId.lt_trans
        ((List.pairwise_append.mp ha).2.2 id hid last List.mem_cons_self) hlt)).elim
    · rcases List.mem_cons.mp hid with rfl | hid
      · exact (RecordId.lt_irrefl id hlt).elim
      · exact hid

/-- If every run in a calm world gives the ids behind its start that meet one condition, the pages
in a calm world cut these ids. -/
theorem pages_of_runs (query : Query ω) (hkeep : query.calls.Keep calm)
    (hruns : ∀ continuation world, calm world → ∃ ids, Ascending ids ∧
      (∀ id, id ∈ ids ↔ (∀ bound, continuation = some bound → bound < id) ∧ meets id) ∧
      Yields query.calls ids (query.start continuation) world)
    (hl : 0 < limit) (hr : limit < Segment.room) (continuation : Option RecordId)
    {ids : List RecordId} (ha : Ascending ids)
    (hmem : ∀ id, id ∈ ids ↔ (∀ bound, continuation = some bound → bound < id) ∧ meets id) :
    ∃ pages, Segment.InPages limit ids pages ∧ ∀ world, calm world → ∀ count,
      (query.pages limit count continuation world).1 = .ok (pages.take count) := by
  -- every page that is not the last one takes an id away
  induction hn : ids.length using Nat.strongRecOn generalizing continuation ids with
  | ind n ih =>
    subst hn
    have hsegment : ∀ world, calm world → (query.segment continuation limit world).1 =
        .ok (Segment.ofPage (ids.take (limit + 1)) limit) := by
      intro world hw
      obtain ⟨found, hfound, hmemFound, hyields⟩ := hruns continuation world hw
      obtain rfl := hfound.ext ha fun id => (hmemFound id).trans (hmem id).symm
      exact segment_yields hl (Segment.count_le_room hr) hyields
    rcases Segment.ofPage_cases ids hl with ⟨hshort, hpage⟩ |
      ⟨front, last, rest, rfl, hfront, hrest, hpage⟩
    · refine ⟨_, .last hl hshort, fun world hw count => ?_⟩
      cases count with
      | zero => rfl
      | succ count =>
        rw [List.take_succ_cons, List.take_nil]
        exact pages_last (hpage ▸ hsegment world hw) count
    · have haRest : Ascending rest := (List.pairwise_cons.mp (List.pairwise_append.mp ha).2.1).2
      obtain ⟨others, hothers, hpages⟩ := ih rest.length (by simp; omega) (some last) haRest
        (mem_rest ha hmem) rfl
      refine ⟨_, hothers.more hfront hrest, fun world hw count => ?_⟩
      cases count with
      | zero => rfl
      | succ count =>
        have hcalm := query.segment_keeps hkeep hw continuation limit
        exact pages_more (hpage ▸ hsegment world hw) (hpages _ hcalm count)

end Query

section Steady

variable {ω : Type} {query : Query ω} {calls : Callbacks ω} {judge : Indicators → Bool}
  {selected : Nat → Nat → Bool} {calm : ω → Prop}
  {answer : ChainSource → Bytes → Except Fault (List RecordId)} {world : ω} {limit : Nat}

def Callbacks.Steady (calls : Callbacks ω)
    (answer : ChainSource → Bytes → Except Fault (List RecordId)) (calm : ω → Prop) : Prop :=
  ∀ source key world, calm world →
    (calls.readChain source key world).1 = (answer source key).map some ∧
      calm (calls.readChain source key world).2

def steadyChains (answer : ChainSource → Bytes → Except Fault (List RecordId))
    (sources : List (List ChainSource)) :
    Except Fault (Option (List (List (List (List RecordId))))) :=
  settled (settled fun source => settled (fun key => (answer source key).map some) source.keys)
    sources

theorem readAll_steady (hs : calls.Steady answer calm) (sources : List (List ChainSource))
    (hw : calm world) : (readAll calls sources world).1 = steadyChains answer sources ∧
      calm (readAll calls sources world).2 := by
  apply gather_settled (fun row world hrow => ?_) sources hw
  apply gather_settled (fun source world hsource => ?_) row hrow
  exact gather_settled (fun key world hkey => hs source key world hkey) source.keys hsource

theorem steadyChains_isSome {sources : List (List ChainSource)}
    {result : Option (List (List (List (List RecordId))))}
    (h : steadyChains answer sources = .ok result) : result.isSome := by
  refine settled_ok (fun row found hrow => settled_ok (fun source found hsource => ?_) hrow) h
  refine settled_ok (fun key found hkey => ?_) hsource
  cases ha : answer source key with
  | error fault =>
    rw [ha] at hkey
    cases hkey
  | ok ids =>
    rw [ha] at hkey
    obtain rfl := Except.ok.inj hkey
    rfl

theorem steadyChains_ascend
    (ha : ∀ source key ids, answer source key = .ok ids → ids.Pairwise (· < ·))
    {sources : List (List ChainSource)} {chains : List (List (List (List RecordId)))}
    (h : steadyChains answer sources = .ok (some chains)) : ChainsAscend chains := by
  refine settled_forall (fun row found hrow => settled_forall (fun source found hsource => ?_) hrow) h
  refine settled_forall (fun key ids hkey => ?_) hsource
  cases hanswer : answer source key with
  | error fault =>
    rw [hanswer] at hkey
    cases hkey
  | ok read =>
    rw [hanswer] at hkey
    obtain rfl := Option.some.inj (Except.ok.inj hkey)
    exact ha source key read hanswer

theorem Callbacks.Steady.keep (hs : calls.Steady answer calm)
    (h : Selects calls judge selected calm) : calls.Keep calm where
  readChain source key world hw := (hs source key world hw).2
  matched indicators world hw := (h.matched indicators world hw).2
  stopsAt row column world hw := (h.stopsAt row column world hw).2

/-- Either some chain fails every run in the same way, or the pages cut what one run gives. -/
theorem Query.pages_steady (h : Selects query.calls judge selected calm)
    (hs : query.calls.Steady answer calm)
    (ha : ∀ source key ids, answer source key = .ok ids → ids.Pairwise (· < ·))
    (hl : 0 < limit) (hr : limit < Segment.room) (hw : calm world) :
    (∃ fault, ∀ later, calm later → (query.collect later).1 = .error fault ∧
      ∀ count, (query.pages limit (count + 1) none later).1 = .error fault) ∨
    ∃ ids pages, Segment.InPages limit ids pages ∧ ∀ later, calm later →
      (query.collect later).1 = .ok ids ∧
      ∀ count, (query.pages limit count none later).1 = .ok (pages.take count) := by
  cases hc : steadyChains answer query.sources with
  | error fault =>
    refine .inl ⟨fault, fun later hlater => ?_⟩
    have hread := (readAll_steady hs query.sources hlater).1.trans hc
    refine ⟨?_, fun count => ?_⟩
    · rw [collect, start_none]
      exact collect_error query.startAfter hread
    · exact pages_error (segment_error hl (Segment.count_le_room hr) hread none) count
  | ok result =>
    obtain ⟨chains, rfl⟩ := Option.isSome_iff_exists.mp (steadyChains_isSome hc)
    -- what an id has to meet, wherever the run starts
    have hruns : ∀ continuation world, calm world → ∃ ids, Ascending ids ∧
        (∀ id, id ∈ ids ↔ (∀ bound, continuation = some bound → bound < id) ∧
          (∀ bound, query.startAfter = some bound → bound < id) ∧
          ((∃ row ∈ chains, ∃ source ∈ row, ∃ chain ∈ source, id ∈ chain) ∧
            judge (chains.map fun row => row.map fun source =>
              decide (∃ chain ∈ source, id ∈ chain)) = true) ∧ Reaches selected chains id) ∧
        Yields query.calls ids (query.start continuation) world ∧
        ((query.start continuation).collect query.calls world).1 = .ok ids := by
      intro continuation world hw
      obtain ⟨hread, hcalm⟩ := readAll_steady hs query.sources hw
      obtain ⟨ids, hids, hmem, hyields, hcollect⟩ := yields_chains
        (laterBound query.startAfter continuation) h (Prod.ext (hread.trans hc) rfl) hcalm
        (steadyChains_ascend ha hc)
      refine ⟨ids, hids, fun id => ?_, hyields, hcollect⟩
      rw [hmem, behind_laterBound, and_assoc, and_left_comm]
    obtain ⟨ids, ha, hmem, -, -⟩ := hruns none world hw
    obtain ⟨pages, hpages, hall⟩ := query.pages_of_runs (hs.keep h)
      (fun continuation world hw => by
        obtain ⟨ids, ha, hmem, hyields, -⟩ := hruns continuation world hw
        exact ⟨ids, ha, hmem, hyields⟩) hl hr none ha hmem
    refine .inr ⟨ids, pages, hpages, fun later hlater => ⟨?_, hall later hlater⟩⟩
    obtain ⟨found, hfound, hmemFound, -, hcollect⟩ := hruns none later hlater
    obtain rfl := hfound.ext ha fun id => (hmemFound id).trans (hmem id).symm
    rw [collect]
    exact hcollect

end Steady

namespace Manager

variable {D : Type}

def reads (manager : Manager D) (disk : Disk) (source : ChainSource) (key : Bytes) :
    Except Fault (List RecordId) :=
  (manager.readChain source key false disk).1.map fun ids => ids.getD []

theorem steady_callbacks (manager : Manager D) (disk : Disk)
    (combinator : Option (Indicators → Bool)) (settings : QuerySettings) :
    (callbacks (D := D) combinator settings).Steady (manager.reads disk)
      (Calm manager disk) := by
  intro source key world hw
  obtain ⟨hread, hcalm⟩ := readChain_calm combinator settings source key hw
  refine ⟨hread.trans ?_, hcalm⟩
  rw [reads]
  cases hr : (manager.readChain source key false disk).1 with
  | error fault => rfl
  | ok result =>
    obtain ⟨ids, rfl, -⟩ := readChain_ok hr
    rfl

theorem reads_ascend {manager : Manager D} {disk : Disk} {source : ChainSource} {key : Bytes}
    {ids : List RecordId} (h : manager.reads disk source key = .ok ids) :
    ids.Pairwise (· < ·) := by
  rw [reads] at h
  cases hr : (manager.readChain source key false disk).1 with
  | error fault =>
    rw [hr] at h
    cases h
  | ok result =>
    obtain ⟨read, rfl, ha⟩ := readChain_ok hr
    rw [hr] at h
    obtain rfl := Except.ok.inj h
    exact ha

end Manager

/-- Over an unchanged store the pages of a query, of any limit that leaves room for them, come to an
end, put together are what a single run gives, and all of them but the last are full; just the last
one has no id to continue behind. If a chain cannot be read, the first page fails as the single run
does. -/
theorem pages_make_up_results :
    (∀ (ω : Type) (query : Query ω) (judge : Indicators → Bool) (selected : Nat → Nat → Bool)
        (answer : ChainSource → Bytes → Except Fault (List RecordId)) (calm : ω → Prop)
        (limit : Nat) (world : ω),
      Selects query.calls judge selected calm → query.calls.Steady answer calm →
      (∀ source key ids, answer source key = .ok ids → ids.Pairwise (· < ·)) →
      0 < limit → limit < Segment.room → calm world →
      (∃ fault, ∀ later, calm later → (query.collect later).1 = .error fault ∧
        ∀ count, (query.pages limit (count + 1) none later).1 = .error fault) ∨
      ∃ ids pages, Segment.InPages limit ids pages ∧ ∀ later, calm later →
        (query.collect later).1 = .ok ids ∧
        ∀ count, (query.pages limit count none later).1 = .ok (pages.take count)) ∧
    ∀ (D : Type) (manager store : Manager D) (disk : Disk) (terms : List QueryTerms)
        (combinator : Option (Indicators → Bool)) (startAfter : Option RecordId)
        (endRule : EndRule) (query : Query (QueryWorld D)) (limit : Nat),
      manager.prepare terms combinator { startAfter, endRule } = .ok query → 0 < limit →
      limit < Segment.room →
      (∃ fault, store.Unreadable disk query.sources fault ∧
        ∀ world, Manager.Calm store disk world → (query.collect world).1 = .error fault ∧
          ∀ count, (query.pages limit (count + 1) none world).1 = .error fault) ∨
      ∃ ids pages, Segment.InPages limit ids pages ∧ ∀ world, Manager.Calm store disk world →
        (query.collect world).1 = .ok ids ∧
        ∀ count, (query.pages limit count none world).1 = .ok (pages.take count) := by
  constructor
  · intro ω query judge selected answer calm limit world h hs ha hl hr hw
    exact query.pages_steady h hs ha hl hr hw
  · intro D manager store disk terms combinator startAfter endRule query limit hprepared hl hr
    obtain ⟨hshape, -⟩ := Manager.prepare_ok hprepared
    have hw : Manager.Calm store disk { manager := store, disk } := ⟨rfl, rfl, fun _ _ => rfl⟩
    have hselects : Selects query.calls (combinator.getD fun _ => true) endRule.selects
        (Manager.Calm store disk) := by
      rw [hshape]
      exact Manager.selects_callbacks store disk combinator startAfter endRule
    have hsteady : query.calls.Steady (store.reads disk) (Manager.Calm store disk) := by
      rw [hshape]
      exact Manager.steady_callbacks store disk combinator _
    refine (query.pages_steady hselects hsteady (fun _ _ _ => Manager.reads_ascend) hl hr
      hw).imp_left ?_
    rintro ⟨fault, hall⟩
    refine ⟨fault, ?_, hall⟩
    -- the failing run names a chain that cannot be read
    have hcollect := (hall _ hw).1
    have hended := Manager.collect_ended query.sources combinator startAfter endRule hw.going
    rw [← hshape, hcollect] at hended
    rcases hended with ⟨cause, hunreadable, -, hcause⟩ | ⟨whole, ids, -, hids, -⟩
    · exact Except.error.inj hcause ▸ hunreadable
    · cases hids

/-- Three ids on pages of two, and four ids that just fill two pages. -/
theorem pages_make_up_results_of_two :
    (∃ pages, Segment.InPages 2 [⟨1, 1⟩, ⟨4, 1⟩, ⟨6, 1⟩] pages ∧
      (endingQuery.collect ()).1 = .ok [⟨1, 1⟩, ⟨4, 1⟩, ⟨6, 1⟩] ∧
      ∀ count, (endingQuery.pages 2 count none ()).1 = .ok (pages.take count)) ∧
    ∃ manager disk even large query pages,
      Manager.evenAndLarge = some (manager, disk, even, large) ∧
      manager.prepare (oddOrLarge even large) none { endRule := .streams [(0, 0)] } = .ok query ∧
      Segment.InPages 2 [⟨1, 1⟩, ⟨3, 1⟩, ⟨4, 1⟩, ⟨5, 1⟩] pages ∧
      (query.collect { manager, disk }).1 = .ok [⟨1, 1⟩, ⟨3, 1⟩, ⟨4, 1⟩, ⟨5, 1⟩] ∧
      ∀ count, (query.pages 2 count none { manager, disk }).1 = .ok (pages.take count) := by
  constructor
  · have hcollect : (endingQuery.collect ()).1 = .ok [⟨1, 1⟩, ⟨4, 1⟩, ⟨6, 1⟩] := by rfl
    have hsteady : endingQuery.calls.Steady
        (fun source key => ((endingQuery.calls.readChain source key ()).1).map fun ids => ids.getD [])
        fun _ => True := fun _ _ _ _ => ⟨rfl, trivial⟩
    have hascend : ∀ source key ids,
        ((endingQuery.calls.readChain source key ()).1).map (fun ids => ids.getD []) = .ok ids →
          ids.Pairwise (· < ·) := by
      intro source key ids hids
      obtain rfl := Except.ok.inj hids
      dsimp only [endingQuery, endingChains, Manager.fixedChains, Option.getD]
      split <;> decide
    rcases pages_make_up_results.1 Unit endingQuery
      (fun indicators => indicators.holds 0 0 != indicators.holds 0 1) (fun _ column => column = 1)
      _ (fun _ => True) 2 ()
      ⟨fun _ _ _ => ⟨rfl, trivial⟩, fun _ _ _ _ => ⟨rfl, trivial⟩, fun _ _ => rfl⟩ hsteady
      hascend (by decide) (by decide) trivial with ⟨fault, hall⟩ | ⟨ids, pages, hpages, hall⟩
    · rw [(hall () trivial).1] at hcollect
      cases hcollect
    · obtain ⟨hids, hcut⟩ := hall () trivial
      obtain rfl := Except.ok.inj (hids.symm.trans hcollect)
      exact ⟨pages, hpages, hcollect, hcut⟩
  · obtain ⟨manager, disk, even, large, endless, query, hmanager, -, hquery, -, hfront⟩ :=
      oddOrLarge_runs
    have hw : Manager.Calm manager disk { manager, disk } := ⟨rfl, rfl, fun _ _ => rfl⟩
    rcases pages_make_up_results.2 Nat manager manager disk (oddOrLarge even large) none none
      (.streams [(0, 0)]) query 2 hquery (by decide) (by decide) with ⟨fault, -, hfails⟩ |
      ⟨ids, pages, hpages, hruns⟩
    · rw [(hfails _ hw).1] at hfront
      cases hfront
    · obtain ⟨hids, hcut⟩ := hruns _ hw
      obtain rfl := Except.ok.inj (hids.symm.trans hfront)
      exact ⟨manager, disk, even, large, query, pages, hmanager, hquery, hpages, hfront, hcut⟩

/-- A limit without room for its page ends what a single run gets through. -/
theorem pages_without_room : ∃ manager disk even large query,
    Manager.evenAndLarge = some (manager, disk, even, large) ∧
    manager.prepare (oddOrLarge even large) none { endRule := .streams [(0, 0)] } = .ok query ∧
    (query.collect { manager, disk }).1 = .ok [⟨1, 1⟩, ⟨3, 1⟩, ⟨4, 1⟩, ⟨5, 1⟩] ∧
    1 ≤ Segment.room ∧ Segment.room < UInt64.size - 1 ∧
    ∀ count, (query.pages Segment.room (count + 1) none { manager, disk }).1 =
      .error (.pageTooLarge Segment.room) := by
  obtain ⟨manager, disk, even, large, endless, query, hmanager, -, hquery, -, hfront⟩ :=
    oddOrLarge_runs
  have hpositive : 0 < Segment.room := by decide
  have hroom : Segment.room < (UInt64.ofNat Segment.room + 1).toNat := by decide
  exact ⟨manager, disk, even, large, query, hmanager, hquery, hfront, hpositive, by decide,
    fun count => Query.pages_error (Query.segment_too_large hpositive hroom none) count⟩

end PredicateIndex
