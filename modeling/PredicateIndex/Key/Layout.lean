import PredicateIndex.Fault

/-!
# Key layouts

A layout fixes how many bytes the keys of one predicate take: one tag byte and
a payload of known width. A predicate may be registered only with a layout that
holds up the limits of a log record.
-/

set_option autoImplicit false

namespace PredicateIndex

def maxKeySize : Nat := 256

inductive KeyLayout where
  | boolean
  | unsigned (width : Nat)
  | signed (width : Nat)
  | char
  | fixedBytes (width : Nat)
  deriving DecidableEq, Repr

namespace KeyLayout

def width : KeyLayout → Nat
  | boolean => 1
  | unsigned width | signed width | fixedBytes width => width
  | char => 4

def encodedLength (layout : KeyLayout) : Nat := layout.width + 1

def checkSize (layout : KeyLayout) : Except Fault Unit :=
  if maxKeySize < layout.encodedLength then
    .error (.keyTooLarge layout.encodedLength maxKeySize)
  else .ok ()

/-- Integers have 1, 2, 4 or 8 bytes, byte keys are not empty, and no key exceeds the limit. -/
def validate : KeyLayout → Except Fault Unit
  | unsigned width | signed width =>
    if width ∈ [1, 2, 4, 8] then .ok () else .error (.unsupportedIntegerWidth width)
  | fixedBytes 0 => .error .emptyKeyType
  | layout => layout.checkSize

end KeyLayout

end PredicateIndex
