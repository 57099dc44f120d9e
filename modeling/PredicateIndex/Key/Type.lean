import PredicateIndex.Key.Codec
import PredicateIndex.Key.Layout

/-!
# Key types

The closed family of types that a predicate may map records to, each with its
layout and its code. A value of a type carries the proof that it fits the type,
so encoding never fails and never loses anything.
-/

set_option autoImplicit false

namespace PredicateIndex

inductive IntWidth where
  | one
  | two
  | four
  | eight
  deriving DecidableEq, Repr

def IntWidth.bytes : IntWidth → Nat
  | one => 1
  | two => 2
  | four => 4
  | eight => 8

theorem IntWidth.fits (width : IntWidth) : SignedWord.Width width.bytes := by
  cases width <;> decide

inductive KeyType where
  | bool
  | char
  | unsigned (width : IntWidth)
  | signed (width : IntWidth)
  | bytes (length : Nat)
  deriving DecidableEq, Repr

namespace KeyType

def Value : KeyType → Type
  | bool => Bool
  | char => Char
  | unsigned width => KeyCode.Unsigned width.bytes
  | signed width => KeyCode.Signed width.bytes
  | bytes length => { bytes : Bytes // bytes.length = length }

/-- A layout counts at most 65535 payload bytes. -/
def layout : KeyType → KeyLayout
  | bool => .boolean
  | char => .char
  | unsigned width => .unsigned width.bytes
  | signed width => .signed width.bytes
  | bytes length => .fixedBytes (min length 65535)

def encode : (type : KeyType) → type.Value → Bytes
  | bool, b => KeyCode.encodeBoolean b
  | char, c => KeyCode.encodeChar c
  | unsigned width, n => KeyCode.encodeUnsigned width.bytes (Subtype.val n)
  | signed width, i => KeyCode.encodeSigned width.bytes (Subtype.val i)
  | bytes _, b => KeyCode.encodeFixedBytes (Subtype.val b)

def decode : (type : KeyType) → Bytes → Except Fault type.Value
  | bool, code => KeyCode.decodeBoolean code
  | char, code => KeyCode.decodeChar code
  | unsigned width, code => KeyCode.decodeUnsigned width.bytes code
  | signed width, code => KeyCode.decodeSigned width.bytes width.fits code
  | bytes length, code => KeyCode.decodeFixedBytes length code

end KeyType

end PredicateIndex
