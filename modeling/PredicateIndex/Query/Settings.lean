import PredicateIndex.Query.Join

/-!
# Query settings

A query may start behind an id and may end with the end of selected streams. It
shares a cancellation flag with its caller. A trace keeps the flag together with
a record of what the query asked while it ran: it judged the candidates of a
combinator, and it asked the selector about streams that had ended.
-/

set_option autoImplicit false

namespace PredicateIndex

inductive EndRule where
  | never
  /-- Right when a match needs every predicate. -/
  | anyStream
  /-- The listed pairs of a key type and a predicate of it. -/
  | streams (selected : List (Nat × Nat))
  deriving DecidableEq, Repr

structure QuerySettings where
  startAfter : Option RecordId := none
  endRule : EndRule := .never
  /-- The call of the combinator, counted from 1, during which the query is cancelled. -/
  cancelAt : Option Nat := none
  deriving DecidableEq, Repr

inductive QueryCall where
  | judged (indicators : Indicators)
  | ended (keyType predicate : Nat)
  deriving DecidableEq, Repr

structure Trace where
  /-- The calls since the trace was last shown, latest first. -/
  calls : List QueryCall := []
  /-- How many candidates were judged in all. -/
  judged : Nat := 0
  cancelled : Bool := false
  deriving DecidableEq, Repr

namespace Trace

def cancel (trace : Trace) : Trace := { trace with cancelled := true }

def judge (settings : QuerySettings) (indicators : Indicators) (trace : Trace) : Trace where
  calls := .judged indicators :: trace.calls
  judged := trace.judged + 1
  cancelled := trace.cancelled || settings.cancelAt = some (trace.judged + 1)

def stopsAt (settings : QuerySettings) (keyType predicate : Nat) (trace : Trace) : Bool × Trace :=
  match settings.endRule with
  | .never => (false, trace)
  | .anyStream => (true, trace)
  | .streams selected =>
    ((keyType, predicate) ∈ selected,
      { trace with calls := .ended keyType predicate :: trace.calls })

end Trace

end PredicateIndex
