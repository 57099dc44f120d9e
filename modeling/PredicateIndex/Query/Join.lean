import PredicateIndex.Fault
import PredicateIndex.RecordId

/-!
# Merge joins

A query reads, for each of its predicates, the chains of the keys asked for and
merges them into one ascending stream of record ids. The join repeatedly takes
the least id at the front of any stream, asks whether the ids that are in just
these streams match, and advances the streams that hold it. So matches come out
in ascending order, each once. What a join calls back to runs on a state of the
caller's choice: reading a chain, judging a match, and deciding whether the end
of a stream ends the query.
-/

set_option autoImplicit false

namespace PredicateIndex

structure ChainSource where
  group : Nat
  name : String
  ordinal : UInt8
  keys : List Bytes
  deriving DecidableEq, Repr

abbrev Indicators := List (List Bool)

structure Callbacks (ω : Type) where
  /-- The ascending ids of one chain; `none` if reading was cancelled. -/
  readChain : ChainSource → Bytes → ω → Except Fault (Option (List RecordId)) × ω
  matched : Indicators → ω → Bool × ω
  /-- Whether the end of the stream of a key type's predicate ends the query. -/
  stopsAt : Nat → Nat → ω → Bool × ω
  isCancelled : ω → Bool

structure MergeJoin where
  sources : List (List ChainSource)
  /-- Only ids greater than this one are given. -/
  startAfter : Option RecordId
  /-- What is left of each stream, in the shape of the sources. -/
  streams : List (List (List RecordId)) := []
  loaded : Bool := false
  done : Bool := false
  deriving DecidableEq, Repr

def gather {α β ω : Type} (step : α → ω → Except Fault (Option β) × ω) :
    List α → ω → Except Fault (Option (List β)) × ω
  | [], world => (.ok (some []), world)
  | item :: rest, world =>
    match step item world with
    | (.error fault, world) => (.error fault, world)
    | (.ok none, world) => (.ok none, world)
    | (.ok (some first), world) =>
      match gather step rest world with
      | (.ok (some others), world) => (.ok (some (first :: others)), world)
      | (outcome, world) => (outcome, world)

namespace MergeJoin

variable {ω : Type}

def ofSources (sources : List (List ChainSource)) (startAfter : Option RecordId) : MergeJoin :=
  { sources, startAfter }

def isAfter (startAfter : Option RecordId) (id : RecordId) : Bool :=
  match startAfter with
  | some bound => bound < id
  | none => true

def loadStream (calls : Callbacks ω) (startAfter : Option RecordId) (source : ChainSource)
    (world : ω) : Except Fault (Option (List RecordId)) × ω :=
  match gather (calls.readChain source) source.keys world with
  | (.ok (some chains), world) =>
    (.ok (some ((RecordId.dedup (RecordId.mergeAll chains)).filter (isAfter startAfter))), world)
  | (.ok none, world) => (.ok none, world)
  | (.error fault, world) => (.error fault, world)

def loadStreams (calls : Callbacks ω) (join : MergeJoin) (world : ω) :
    Except Fault (Option (List (List (List RecordId)))) × ω :=
  gather (gather (loadStream calls join.startAfter)) join.sources world

/-- Whether a stream without ids ends the query; no further ones are asked about after one does. -/
def emptyStopsRow (calls : Callbacks ω) (row : Nat) : Nat → List (List RecordId) → ω → Bool × ω
  | _, [], world => (false, world)
  | column, (_ :: _) :: rest, world => emptyStopsRow calls row (column + 1) rest world
  | column, [] :: rest, world =>
    match calls.stopsAt row column world with
    | (true, world) => (true, world)
    | (false, world) => emptyStopsRow calls row (column + 1) rest world

def emptyStops (calls : Callbacks ω) : Nat → List (List (List RecordId)) → ω → Bool × ω
  | _, [], world => (false, world)
  | row, streams :: rest, world =>
    match emptyStopsRow calls row 0 streams world with
    | (true, world) => (true, world)
    | (false, world) => emptyStops calls (row + 1) rest world

def load (calls : Callbacks ω) (join : MergeJoin) (world : ω) :
    Except Fault Unit × MergeJoin × ω :=
  if join.loaded || join.done then (.ok (), join, world)
  else
    match join.loadStreams calls world with
    | (.error fault, world) => (.error fault, { join with done := true }, world)
    | (.ok none, world) => (.ok (), { join with done := true }, world)
    | (.ok (some streams), world) =>
      let (stops, world) := emptyStops calls 0 streams world
      (.ok (), { join with streams, loaded := true, done := stops }, world)

def lesser (id : RecordId) : Option RecordId → RecordId
  | some other => if other < id then other else id
  | none => id

def least? : List (List RecordId) → Option RecordId
  | [] => none
  | [] :: rest => least? rest
  | (id :: _) :: rest => some (lesser id (least? rest))

def candidate? (streams : List (List (List RecordId))) : Option RecordId := least? streams.flatten

def indicators (id : RecordId) (streams : List (List (List RecordId))) : Indicators :=
  streams.map fun row => row.map fun stream => stream.head? = some id

def advanceRow (calls : Callbacks ω) (id : RecordId) (row : Nat) :
    Nat → List (List RecordId) → ω → List (List RecordId) × Bool × ω
  | _, [], world => ([], false, world)
  | column, stream :: rest, world =>
    if stream.head? = some id then
      let (stops, world) :=
        if stream.tail = [] then calls.stopsAt row column world else (false, world)
      let (others, stopsLater, world) := advanceRow calls id row (column + 1) rest world
      (stream.tail :: others, stops || stopsLater, world)
    else
      let (others, stops, world) := advanceRow calls id row (column + 1) rest world
      (stream :: others, stops, world)

def advance (calls : Callbacks ω) (id : RecordId) :
    Nat → List (List (List RecordId)) → ω → List (List (List RecordId)) × Bool × ω
  | _, [], world => ([], false, world)
  | row, streams :: rest, world =>
    let (streams, stops, world) := advanceRow calls id row 0 streams world
    let (others, stopsLater, world) := advance calls id (row + 1) rest world
    (streams :: others, stops || stopsLater, world)

def pull (calls : Callbacks ω) : Nat → MergeJoin → ω → Option RecordId × MergeJoin × ω
  | 0, join, world => (none, join, world)
  | fuel + 1, join, world =>
    if join.done then (none, join, world)
    else if calls.isCancelled world then (none, { join with done := true }, world)
    else
      match candidate? join.streams with
      | none => (none, { join with done := true }, world)
      | some id =>
        let (isMatch, world) := calls.matched (indicators id join.streams) world
        let (streams, stops, world) := advance calls id 0 join.streams world
        let join := { join with streams, done := stops }
        if isMatch then (some id, join, world) else pull calls fuel join world

def remaining (join : MergeJoin) : Nat := join.streams.flatten.flatten.length

/-- The next match. Every candidate leaves a stream, so the ids left bound the number of steps. -/
def next (calls : Callbacks ω) (join : MergeJoin) (world : ω) :
    Except Fault (Option RecordId) × MergeJoin × ω :=
  match join.load calls world with
  | (.error fault, join, world) => (.error fault, join, world)
  | (.ok (), join, world) =>
    let (found, join, world) := pull calls (join.remaining + 1) join world
    (.ok found, join, world)

end MergeJoin

end PredicateIndex
