/-!
# Record ids

A record id names one version of a record of the primary store by its log
address and the store's version. Ids are ordered by address, then by version.
An ascending list of ids stands for the set of its members; insertion keeps it
strictly ascending, and so does merging if repetitions are dropped.
-/

set_option autoImplicit false

namespace PredicateIndex

/-- The address that no record has; it ends every chain. -/
def noAddress : UInt64 := 0

structure RecordId where
  address : UInt64
  version : UInt32
  deriving DecidableEq, Repr, Inhabited

namespace RecordId

def invalid : RecordId := ⟨noAddress, 0⟩

def isValid (id : RecordId) : Bool := id.address ≠ noAddress

def text (id : RecordId) : String := s!"{id.address}@{id.version}"

instance : LT RecordId where
  lt a b := a.address < b.address ∨ (a.address = b.address ∧ a.version < b.version)

instance (a b : RecordId) : Decidable (a < b) :=
  inferInstanceAs
    (Decidable (a.address < b.address ∨ (a.address = b.address ∧ a.version < b.version)))

def later (a b : RecordId) : RecordId := if a < b then b else a

def place (id : RecordId) : List RecordId → List RecordId
  | [] => [id]
  | other :: rest => if other < id then other :: place id rest else id :: other :: rest

def sort : List RecordId → List RecordId
  | [] => []
  | id :: rest => place id (sort rest)

def insert (id : RecordId) : List RecordId → List RecordId
  | [] => [id]
  | other :: rest =>
    if id < other then id :: other :: rest
    else if id = other then other :: rest
    else other :: insert id rest

def weave (id : RecordId) (rest : List RecordId → List RecordId) : List RecordId → List RecordId
  | [] => id :: rest []
  | other :: others =>
    if other < id then other :: weave id rest others else id :: rest (other :: others)

def merge : List RecordId → List RecordId → List RecordId
  | [], others => others
  | id :: rest, others => weave id (merge rest) others

/-- Takes the least of the first ids of all lists, again and again. -/
def mergeAll (lists : List (List RecordId)) : List RecordId := lists.foldr merge []

def dedup : List RecordId → List RecordId
  | [] => []
  | [id] => [id]
  | id :: other :: rest =>
    if id = other then dedup (other :: rest) else id :: dedup (other :: rest)

end RecordId

end PredicateIndex
