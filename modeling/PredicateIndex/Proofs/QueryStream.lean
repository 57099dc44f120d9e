import PredicateIndex.Proofs.RecordOrder
import PredicateIndex.Query.Paging

/-!
# A query for one predicate

With one stream, no combinator and no end rule a query gives just the ids of
the stream, in their order.
-/

set_option autoImplicit false

namespace PredicateIndex

namespace MergeJoin

variable {ω : Type}

structure TakesAll (calls : Callbacks ω) : Prop where
  matched : ∀ indicators world, calls.matched indicators world = (true, world)
  stopsAt : ∀ row column world, calls.stopsAt row column world = (false, world)

def ofStream (sources : List (List ChainSource)) (startAfter : Option RecordId)
    (ids : List RecordId) : MergeJoin :=
  { sources, startAfter, streams := [[ids]], loaded := true }

variable {calls : Callbacks ω} {sources : List (List ChainSource)} {startAfter : Option RecordId}

theorem advance_stream (h : TakesAll calls) (id : RecordId) (rest : List RecordId) (world : ω) :
    advance calls id 0 [[id :: rest]] world = ([[rest]], false, world) := by
  by_cases hr : rest = [] <;> simp [advance, advanceRow, hr, h.stopsAt]

theorem next_stream_nil {world : ω} (hc : calls.isCancelled world = false) :
    next calls (ofStream sources startAfter []) world =
      (.ok none, { ofStream sources startAfter [] with done := true }, world) := by
  simp [next, load, ofStream, pull, hc, candidate?, least?]

theorem next_stream_cons (h : TakesAll calls) (id : RecordId) (rest : List RecordId)
    {world : ω} (hc : calls.isCancelled world = false) :
    next calls (ofStream sources startAfter (id :: rest)) world =
      (.ok (some id), ofStream sources startAfter rest, world) := by
  simp [next, load, ofStream, pull, hc, candidate?, least?, lesser, h.matched,
    advance_stream h]

theorem take_stream (h : TakesAll calls) (ids : List RecordId) {world : ω}
    (hc : calls.isCancelled world = false) {count : Nat} (hl : ids.length < count) :
    (take calls count (ofStream sources startAfter ids) world).1 = .ok ids := by
  induction ids generalizing count with
  | nil =>
    cases count with
    | zero => cases hl
    | succ count => rw [take, next_stream_nil hc]
  | cons id rest ih =>
    cases count with
    | zero => cases hl
    | succ count =>
      have hrest := ih (Nat.lt_of_succ_lt_succ hl)
      rw [take, next_stream_cons h id rest hc]
      dsimp only
      cases ht : take calls count (ofStream sources startAfter rest) world with
      | mk result state =>
        rw [ht] at hrest
        dsimp only at hrest
        rw [hrest]

theorem emptyStops_stream (h : TakesAll calls) (ids : List RecordId) (world : ω) :
    emptyStops calls 0 [[ids]] world = (false, world) := by
  cases ids <;> simp [emptyStops, emptyStopsRow, h.stopsAt]

theorem load_chain (h : TakesAll calls) {source : ChainSource} {key : Bytes}
    (hk : source.keys = [key]) {world next : ω} {ids : List RecordId}
    (hr : calls.readChain source key world = (.ok (some ids), next)) :
    load calls (ofSources [[source]] none) world =
      (.ok (), ofStream [[source]] none (RecordId.dedup (RecordId.mergeAll [ids])), next) := by
  have hstreams : loadStreams calls (ofSources [[source]] none) world =
      (.ok (some [[RecordId.dedup (RecordId.mergeAll [ids])]]), next) := by
    simp [loadStreams, ofSources, gather, loadStream, hk, hr, isAfter]
  rw [load, hstreams]
  simp [ofSources, ofStream, emptyStops_stream h]

/-- A query for one key of one predicate gives the ids of the key's chain. -/
theorem collect_chain (h : TakesAll calls) {source : ChainSource} {key : Bytes}
    (hk : source.keys = [key]) {world next : ω} {ids : List RecordId}
    (hr : calls.readChain source key world = (.ok (some ids), next))
    (hc : calls.isCancelled next = false) (ha : RecordId.Ascending ids) :
    (collect calls (ofSources [[source]] none) world).1 = .ok ids := by
  have hmerged : RecordId.Ascending (RecordId.dedup (RecordId.mergeAll [ids])) :=
    RecordId.ascending_dedup (RecordId.sorted_mergeAll (by simpa using ha))
  have hids : RecordId.dedup (RecordId.mergeAll [ids]) = ids :=
    hmerged.ext ha fun id => by simp [RecordId.mem_dedup, RecordId.mem_mergeAll]
  rw [collect, load_chain h hk hr, hids]
  apply take_stream h ids hc
  simp [remaining, ofStream]

end MergeJoin

end PredicateIndex
