import PredicateIndex.Query.Join

/-!
# Running queries

A prepared query can be run any number of times, whole or page by page. A page
starts behind the last id of the page before it, and one id more than fits is
read to find out whether there is another page. Room for all of these is
reserved before any is read, so there is a greatest limit.
-/

set_option autoImplicit false

namespace PredicateIndex

structure Query (ω : Type) where
  sources : List (List ChainSource)
  startAfter : Option RecordId
  calls : Callbacks ω

structure Segment where
  ids : List RecordId
  continuation : Option RecordId
  deriving DecidableEq, Repr

namespace MergeJoin

variable {ω : Type}

def take (calls : Callbacks ω) : Nat → MergeJoin → ω →
    Except Fault (List RecordId) × MergeJoin × ω
  | 0, join, world => (.ok [], join, world)
  | n + 1, join, world =>
    match join.next calls world with
    | (.error fault, join, world) => (.error fault, join, world)
    | (.ok none, join, world) => (.ok [], join, world)
    | (.ok (some id), join, world) =>
      match take calls n join world with
      | (.ok ids, join, world) => (.ok (id :: ids), join, world)
      | (.error fault, join, world) => (.error fault, join, world)

def collect (calls : Callbacks ω) (join : MergeJoin) (world : ω) :
    Except Fault (List RecordId) × MergeJoin × ω :=
  match join.load calls world with
  | (.error fault, join, world) => (.error fault, join, world)
  | (.ok (), join, world) => take calls (join.remaining + 1) join world

end MergeJoin

namespace Segment

/-- How many ids of 16 bytes a page can hold. -/
def room : Nat := Bytes.reservable / 16

def ofPage (ids : List RecordId) (limit : Nat) : Segment :=
  if limit < ids.length then ⟨ids.take limit, (ids.take limit).getLast?⟩ else ⟨ids, none⟩

end Segment

namespace Query

variable {ω : Type}

def laterBound : Option RecordId → Option RecordId → Option RecordId
  | some a, some b => some (a.later b)
  | a, none => a
  | none, b => b

def start (query : Query ω) (continuation : Option RecordId) : MergeJoin :=
  .ofSources query.sources (laterBound query.startAfter continuation)

def segment (query : Query ω) (continuation : Option RecordId) (limit : Nat) (world : ω) :
    Except Fault Segment × ω :=
  if limit = 0 then (.error .zeroSegmentLimit, world)
  -- the number of ids is a 64-bit word
  else if Segment.room < (UInt64.ofNat limit + 1).toNat then (.error (.pageTooLarge limit), world)
  else
    let (ids, _, world) := MergeJoin.take query.calls (limit + 1) (query.start continuation) world
    (ids.map (Segment.ofPage · limit), world)

def pages (query : Query ω) (limit : Nat) :
    Nat → Option RecordId → ω → Except Fault (List Segment) × ω
  | 0, _, world => (.ok [], world)
  | count + 1, continuation, world =>
    match query.segment continuation limit world with
    | (.error fault, world) => (.error fault, world)
    | (.ok page, world) =>
      match page.continuation with
      | none => (.ok [page], world)
      | some id =>
        let (others, world) := query.pages limit count (some id) world
        (others.map (page :: ·), world)

def collect (query : Query ω) (world : ω) : Except Fault (List RecordId) × ω :=
  let (ids, _, world) := (query.start none).collect query.calls world
  (ids, world)

end Query

end PredicateIndex
