import PredicateIndex.Manager
import PredicateIndex.Query.Paging
import PredicateIndex.Query.Settings

/-!
# Queries on a manager

A query names handles together with keys of their types, in one list for each
key type. Handles are checked in order when the query is prepared; the chains
are read from the stores of the groups when it runs. A combinator says which
candidates match; a query for one predicate needs none.
-/

set_option autoImplicit false

namespace PredicateIndex

structure QueryTerms where
  type : KeyType
  terms : List (Handle type × List type.Value)

structure QueryWorld (D : Type) where
  manager : Manager D
  disk : Disk
  trace : Trace := {}

def Indicators.holds (indicators : Indicators) (keyType predicate : Nat) : Bool :=
  (indicators[keyType]?.bind fun row => row[predicate]?).getD false

namespace Manager

variable {D : Type}

def source {type : KeyType} (manager : Manager D) (term : Handle type × List type.Value) :
    Except Fault ChainSource := do
  let group ← manager.verify term.1
  return ⟨group.id, term.1.name, term.1.ordinal, term.2.map type.encode⟩

def sourcesOf {type : KeyType} (manager : Manager D) :
    List (Handle type × List type.Value) → Except Fault (List ChainSource)
  | [] => .ok []
  | term :: rest => do
    let first ← manager.source term
    return first :: (← manager.sourcesOf rest)

def sources (manager : Manager D) : List QueryTerms → Except Fault (List (List ChainSource))
  | [] => .ok []
  | terms :: rest => do
    if terms.terms.isEmpty then throw .emptyQueryGroup
    let first ← manager.sourcesOf terms.terms
    return first :: (← manager.sources rest)

def readChain (manager : Manager D) (source : ChainSource) (key : Bytes) (cancelled : Bool)
    (disk : Disk) : Except Fault (Option (List RecordId)) × Manager D :=
  match manager.groups.find? fun group => group.id = source.group with
  | none => (.error (.foreignPredicate source.name), manager)
  | some group =>
    let (ids, group, _) := group.readChain source.ordinal key cancelled disk []
    (ids, manager.setGroup group)

def callbacks (combinator : Option (Indicators → Bool)) (settings : QuerySettings) :
    Callbacks (QueryWorld D) where
  readChain source key world :=
    let (ids, manager) :=
      world.manager.readChain source key world.trace.cancelled world.disk
    (ids, { world with manager })
  matched indicators world :=
    match combinator with
    | none => (true, world)
    | some judge =>
      (judge indicators, { world with trace := world.trace.judge settings indicators })
  stopsAt keyType predicate world :=
    let (stops, trace) := world.trace.stopsAt settings keyType predicate
    (stops, { world with trace })
  isCancelled world := world.trace.cancelled

def prepare (manager : Manager D) (terms : List QueryTerms)
    (combinator : Option (Indicators → Bool)) (settings : QuerySettings) :
    Except Fault (Query (QueryWorld D)) := do
  return ⟨← manager.sources terms, settings.startAfter, callbacks combinator settings⟩

def query {type : KeyType} (manager : Manager D) (handle : Handle type) (keys : List type.Value)
    (settings : QuerySettings) : Except Fault (Query (QueryWorld D)) :=
  manager.prepare [⟨type, [(handle, keys)]⟩] none settings

def query2 {first second : KeyType} (manager : Manager D) (one : Handle first × List first.Value)
    (two : Handle second × List second.Value) (condition : Bool → Bool → Bool)
    (settings : QuerySettings) : Except Fault (Query (QueryWorld D)) :=
  manager.prepare [⟨first, [one]⟩, ⟨second, [two]⟩]
    (some fun indicators => condition (indicators.holds 0 0) (indicators.holds 1 0)) settings

end Manager

end PredicateIndex
