import Mathlib.Logic.Basic
import PredicateIndex.Proofs.BooleanQueries
import PredicateIndex.Proofs.QuerySimulation

/-!
# One page of a query

A page call reads every chain of the query as it is at that moment. The page is
a front of the ids that then meet the query behind the id to continue from: all
of them, or as many as it may hold with the last of these to continue from. A
page call fails only if there is no room for its page or a chain cannot be read.
-/

set_option autoImplicit false

namespace PredicateIndex

open RecordId (Ascending)

theorem RecordId.lt_later_iff {a b id : RecordId} : a.later b < id ↔ a < id ∧ b < id := by
  rw [later]
  split
  · rename_i hlt
    exact ⟨fun h => ⟨lt_trans hlt h, h⟩, fun h => h.2⟩
  · rename_i hle
    refine ⟨fun h => ⟨h, ?_⟩, fun h => h.1⟩
    by_cases he : a = b
    · exact he ▸ h
    · exact lt_trans (lt_of_not_lt_of_ne hle he) h

theorem Query.behind_laterBound {start continuation : Option RecordId} {id : RecordId} :
    (∀ bound, laterBound start continuation = some bound → bound < id) ↔
      (∀ bound, start = some bound → bound < id) ∧
        ∀ bound, continuation = some bound → bound < id := by
  rcases start with _ | a <;> rcases continuation with _ | b <;>
    simp [laterBound, RecordId.lt_later_iff]

section Settled

variable {α β : Type} {answer : α → Except Fault (Option β)} {items : List α}

theorem settled_error {fault : Fault} (h : settled answer items = .error fault) :
    ∃ item ∈ items, answer item = .error fault := by
  induction items with
  | nil => cases h
  | cons item rest ih =>
    rw [settled_cons] at h
    rcases ha : answer item with cause | _ | first
    · rw [ha] at h
      cases h
      exact ⟨item, List.mem_cons_self, ha⟩
    · rw [ha] at h
      cases h
    · rw [ha] at h
      rcases hs : settled answer rest with cause | _ | others
      · rw [hs] at h
        cases h
        obtain ⟨other, ho, he⟩ := ih hs
        exact ⟨other, List.mem_cons_of_mem item ho, he⟩
      · rw [hs] at h
        cases h
      · rw [hs] at h
        cases h

theorem settled_some {results : List β} (h : settled answer items = .ok (some results)) :
    ∀ item ∈ items, ∃ result, answer item = .ok (some result) := by
  induction items generalizing results with
  | nil => simp
  | cons item rest ih =>
    rw [settled_cons] at h
    rcases ha : answer item with cause | _ | first
    · rw [ha] at h
      cases h
    · rw [ha] at h
      cases h
    · rw [ha] at h
      rcases hs : settled answer rest with cause | _ | others
      · rw [hs] at h
        cases h
      · rw [hs] at h
        cases h
      · intro other ho
        rcases List.mem_cons.mp ho with rfl | ho
        · exact ⟨first, ha⟩
        · exact ih hs other ho

end Settled

section Kept

variable {ω : Type} {calls : Callbacks ω} {kept : ω → Prop} {world : ω}

structure Callbacks.Keep (calls : Callbacks ω) (kept : ω → Prop) : Prop where
  readChain : ∀ source key world, kept world → kept (calls.readChain source key world).2
  matched : ∀ indicators world, kept world → kept (calls.matched indicators world).2
  stopsAt : ∀ row column world, kept world → kept (calls.stopsAt row column world).2

theorem Callbacks.Keep.simulates (h : calls.Keep kept) :
    calls.Simulates calls fun world other => other = world ∧ kept world where
  readChain source key world other hw := by
    obtain ⟨rfl, hw⟩ := hw
    exact ⟨rfl, rfl, h.readChain source key other hw⟩
  matched indicators world other hw := by
    obtain ⟨rfl, hw⟩ := hw
    exact ⟨rfl, rfl, h.matched indicators other hw⟩
  stopsAt row column world other hw := by
    obtain ⟨rfl, hw⟩ := hw
    exact ⟨rfl, rfl, h.stopsAt row column other hw⟩
  isCancelled world other hw := by rw [hw.1]

theorem Query.segment_keeps (query : Query ω) (h : query.calls.Keep kept) (hw : kept world)
    (continuation : Option RecordId) (limit : Nat) :
    kept (query.segment continuation limit world).2 := by
  rw [Query.segment]
  split
  · exact hw
  split
  · exact hw
  · exact (MergeJoin.take_together h.simulates (limit + 1) (query.start continuation)
      ⟨rfl, hw⟩).2.2.2

theorem MergeJoin.take_error {sources : List (List ChainSource)} (startAfter : Option RecordId)
    {fault : Fault} (h : (readAll calls sources world).1 = .error fault) (count : Nat) :
    (MergeJoin.take calls (count + 1) (ofSources sources startAfter) world).1 = .error fault := by
  have hstreams := loadStreams_eq calls (ofSources sources startAfter) world
  rw [show (ofSources sources startAfter).sources = sources from rfl, h] at hstreams
  rw [MergeJoin.take, next, load, if_neg (by simp [ofSources]), hstreams]
  rfl

end Kept

namespace Segment

variable {limit : Nat}

theorem room_lt_size : room + 1 < UInt64.size := by decide

theorem toNat_count (h : limit + 1 < UInt64.size) :
    (UInt64.ofNat limit + 1).toNat = limit + 1 := by
  rw [← UInt64.ofNat_one, ← UInt64.ofNat_add, UInt64.toNat_ofNat_of_lt' h]

theorem count_le_room (h : limit < room) : (UInt64.ofNat limit + 1).toNat ≤ room := by
  rw [toNat_count (Nat.lt_trans (Nat.succ_lt_succ h) room_lt_size)]
  exact h

end Segment

theorem Segment.ofPage_cases (ids : List RecordId) {limit : Nat} (hl : 0 < limit) :
    (ids.length ≤ limit ∧ ofPage (ids.take (limit + 1)) limit = ⟨ids, none⟩) ∨
      ∃ front last rest, ids = front ++ last :: rest ∧ front.length + 1 = limit ∧ rest ≠ [] ∧
        ofPage (ids.take (limit + 1)) limit = ⟨front ++ [last], some last⟩ := by
  rw [ofPage, List.length_take, List.take_take, Nat.min_eq_left (Nat.le_succ limit)]
  split
  · rename_i hlong
    refine .inr ?_
    rcases List.eq_nil_or_concat (ids.take limit) with hnil | ⟨front, last, hfront⟩
    · have hlength := congrArg List.length hnil
      rw [List.length_take, List.length_nil] at hlength
      omega
    · rw [List.concat_eq_append] at hfront
      have hlength := congrArg List.length hfront
      rw [List.length_take, List.length_append, List.length_singleton] at hlength
      refine ⟨front, last, ids.drop limit, ?_, by omega, ?_, ?_⟩
      · conv => lhs; rw [← List.take_append_drop limit ids, hfront]
        rw [List.append_assoc, List.singleton_append]
      · rw [ne_eq, List.drop_eq_nil_iff]
        omega
      · rw [hfront, List.getLast?_append, List.getLast?_singleton, Option.some_or]
  · rename_i hshort
    rw [List.take_of_length_le (by omega)]
    exact .inl ⟨by omega, rfl⟩

namespace Query

variable {ω : Type} {query : Query ω} {limit : Nat} {world : ω}

theorem segment_of_room (hl : 0 < limit)
    (hr : (UInt64.ofNat limit + 1).toNat ≤ Segment.room) (continuation : Option RecordId) :
    (query.segment continuation limit world).1 =
      (MergeJoin.take query.calls (limit + 1) (query.start continuation) world).1.map
        (Segment.ofPage · limit) := by
  rw [segment, if_neg (Nat.ne_of_gt hl), if_neg (Nat.not_lt.mpr hr)]

theorem segment_too_large (hl : 0 < limit)
    (hr : Segment.room < (UInt64.ofNat limit + 1).toNat) (continuation : Option RecordId) :
    (query.segment continuation limit world).1 = .error (.pageTooLarge limit) := by
  rw [segment, if_neg (Nat.ne_of_gt hl), if_pos hr]

theorem segment_error (hl : 0 < limit) (hr : (UInt64.ofNat limit + 1).toNat ≤ Segment.room)
    {fault : Fault}
    (h : (MergeJoin.readAll query.calls query.sources world).1 = .error fault)
    (continuation : Option RecordId) :
    (query.segment continuation limit world).1 = .error fault := by
  have herror := MergeJoin.take_error (laterBound query.startAfter continuation) h limit
  rw [segment_of_room hl hr, start, herror]
  rfl

theorem segment_yields (hl : 0 < limit) (hr : (UInt64.ofNat limit + 1).toNat ≤ Segment.room)
    {continuation : Option RecordId} {ids : List RecordId}
    (h : MergeJoin.Yields query.calls ids (query.start continuation) world) :
    (query.segment continuation limit world).1 =
      .ok (Segment.ofPage (ids.take (limit + 1)) limit) := by
  rw [segment_of_room hl hr, h.take (limit + 1)]
  rfl

end Query

namespace Manager

variable {D : Type} {manager : Manager D} {disk : Disk}

def chainIds (manager : Manager D) (disk : Disk) (source : ChainSource) (key : Bytes) :
    List RecordId :=
  match (manager.readChain source key false disk).1 with
  | .ok (some ids) => ids
  | _ => []

def allChains (manager : Manager D) (disk : Disk) (sources : List (List ChainSource)) :
    List (List (List (List RecordId))) :=
  sources.map fun row => row.map fun source => source.keys.map (manager.chainIds disk source)

def onChains (manager : Manager D) (disk : Disk) (source : ChainSource) (id : RecordId) : Bool :=
  source.keys.any fun key => id ∈ manager.chainIds disk source key

def meets (manager : Manager D) (disk : Disk) (sources : List (List ChainSource))
    (combinator : Option (Indicators → Bool)) (id : RecordId) : Bool :=
  (sources.any fun row => row.any fun source => manager.onChains disk source id) &&
    (combinator.getD fun _ => true)
      (sources.map fun row => row.map fun source => manager.onChains disk source id)

def Unreadable (manager : Manager D) (disk : Disk) (sources : List (List ChainSource))
    (fault : Fault) : Prop :=
  ∃ row ∈ sources, ∃ source ∈ row, ∃ key ∈ source.keys,
    (manager.readChain source key false disk).1 = .error fault

theorem chainsOf_eq_some {source : ChainSource}
    (h : ∀ key ∈ source.keys, ∃ ids, (manager.readChain source key false disk).1 = .ok (some ids)) :
    manager.chainsOf disk source = .ok (some (source.keys.map (manager.chainIds disk source))) := by
  refine settled_of_forall fun key hk => ?_
  obtain ⟨ids, hids⟩ := h key hk
  rw [hids, chainIds, hids]

theorem chains_cases (manager : Manager D) (disk : Disk) (sources : List (List ChainSource)) :
    (∃ fault, settled (settled (manager.chainsOf disk)) sources = .error fault ∧
      manager.Unreadable disk sources fault) ∨
    settled (settled (manager.chainsOf disk)) sources =
      .ok (some (manager.allChains disk sources)) := by
  cases hs : settled (settled (manager.chainsOf disk)) sources with
  | error fault =>
    obtain ⟨row, hrow, he⟩ := settled_error hs
    obtain ⟨source, hsource, he⟩ := settled_error he
    obtain ⟨key, hkey, he⟩ := settled_error he
    exact .inl ⟨fault, rfl, row, hrow, source, hsource, key, hkey, he⟩
  | ok result =>
    have hrows : ∀ row result, settled (manager.chainsOf disk) row = .ok result → result.isSome :=
      fun row result hr => settled_ok (fun source found hf => by
        obtain ⟨chains, rfl⟩ := isSome_chainsOf hf
        rfl) hr
    obtain ⟨chains, rfl⟩ := Option.isSome_iff_exists.mp (settled_ok hrows hs)
    refine .inr ?_
    rw [← hs]
    refine settled_of_forall fun row hrow => settled_of_forall fun source hsource => ?_
    obtain ⟨rowChains, hr⟩ := settled_some hs row hrow
    obtain ⟨sourceChains, hc⟩ := settled_some hr source hsource
    exact chainsOf_eq_some (settled_some hc)

theorem exists_onChains {source : ChainSource} {id : RecordId} :
    (∃ chain ∈ source.keys.map (manager.chainIds disk source), id ∈ chain) ↔
      manager.onChains disk source id = true := by
  simp [onChains]

theorem occurs_allChains {sources : List (List ChainSource)} {id : RecordId} :
    (∃ row ∈ manager.allChains disk sources, ∃ source ∈ row, ∃ chain ∈ source, id ∈ chain) ↔
      (sources.any fun row => row.any fun source => manager.onChains disk source id) = true := by
  simp only [allChains, List.any_eq_true, ← exists_onChains, List.mem_map, exists_exists_and_eq_and]

theorem meets_iff {sources : List (List ChainSource)} {combinator : Option (Indicators → Bool)}
    {id : RecordId} :
    manager.meets disk sources combinator id = true ↔
      (∃ row ∈ manager.allChains disk sources, ∃ source ∈ row, ∃ chain ∈ source, id ∈ chain) ∧
      (combinator.getD fun _ => true) ((manager.allChains disk sources).map fun row =>
        row.map fun source => decide (∃ chain ∈ source, id ∈ chain)) = true := by
  have hshape : ((manager.allChains disk sources).map fun row =>
        row.map fun source => decide (∃ chain ∈ source, id ∈ chain)) =
      sources.map fun row => row.map fun source => manager.onChains disk source id := by
    simp only [allChains, List.map_map, Function.comp_def, exists_onChains, Bool.decide_eq_true]
  rw [meets, Bool.and_eq_true, occurs_allChains, hshape]

/-- A page call fails because there is no room for its page or a chain cannot be read, or it cuts
the ids that meet the query now. -/
theorem segment_cases (sources : List (List ChainSource)) (combinator : Option (Indicators → Bool))
    (startAfter continuation : Option RecordId) {limit : Nat} (hl : 0 < limit)
    {world : QueryWorld D} (hgoing : world.trace.cancelled = false) :
    (∃ fault, (Query.segment ⟨sources, startAfter, callbacks combinator { startAfter }⟩
        continuation limit world).1 = .error fault ∧
      (Segment.room ≤ limit ∧ fault = .pageTooLarge limit ∨
        world.manager.Unreadable world.disk sources fault)) ∨
    ∃ ids, Ascending ids ∧
      (∀ id, id ∈ ids ↔ (∀ bound, startAfter = some bound → bound < id) ∧
        (∀ bound, continuation = some bound → bound < id) ∧
        world.manager.meets world.disk sources combinator id = true) ∧
      (Query.segment ⟨sources, startAfter, callbacks combinator { startAfter }⟩
        continuation limit world).1 = .ok (Segment.ofPage (ids.take (limit + 1)) limit) := by
  rcases Nat.lt_or_ge Segment.room (UInt64.ofNat limit + 1).toNat with hr | hr
  · have hlarge : Segment.room ≤ limit := Nat.not_lt.mp fun hsmall =>
      Nat.not_lt.mpr (Segment.count_le_room hsmall) hr
    exact .inl ⟨_, Query.segment_too_large hl hr continuation, .inl ⟨hlarge, rfl⟩⟩
  obtain ⟨hread, hcalm⟩ := readAll_calm combinator { startAfter } sources
    (⟨rfl, hgoing, fun _ _ => rfl⟩ : Calm world.manager world.disk world)
  rcases chains_cases world.manager world.disk sources with ⟨fault, hs, hunreadable⟩ | hs
  · exact .inl ⟨fault, Query.segment_error hl hr (hread.trans hs) continuation, .inr hunreadable⟩
  · obtain ⟨ids, hids, hmem, hyields, -⟩ := MergeJoin.yields_read
      (Query.laterBound startAfter continuation)
      (judges_callbacks world.manager world.disk combinator startAfter)
      (Prod.ext (hread.trans hs) rfl) hcalm (chains_ascend hs)
    refine .inr ⟨ids, hids, fun id => ?_, Query.segment_yields hl hr hyields⟩
    rw [hmem, ← meets_iff, Query.behind_laterBound, and_assoc]

end Manager

end PredicateIndex
