import PredicateIndex.Fault
import PredicateIndex.Key.SignedWord

/-!
# Order-preserving key codes

A key is a tag byte for its category and a big-endian payload whose width the
category's layout fixes. Flipping the sign bit puts negative integers first, so
the byte order of two codes of one category is the order of their values.
-/

set_option autoImplicit false

namespace PredicateIndex.KeyCode

def booleanTag : UInt8 := 1
def unsignedTag : UInt8 := 2
def signedTag : UInt8 := 3
def charTag : UInt8 := 4
def fixedBytesTag : UInt8 := 5

def payload (tag : UInt8) (name : String) (width : Nat) :
    Bytes → Except Fault { bytes : Bytes // bytes.length = width }
  | [] => .error .truncatedKey
  | first :: rest =>
    if first ≠ tag then .error (.wrongKeyTag name)
    else if h : rest.length = width then .ok ⟨rest, h⟩
    else .error (.wrongKeyLength name (width + 1) (rest.length + 1))

def encodeBoolean (b : Bool) : Bytes := [booleanTag, if b then 1 else 0]

def decodeBoolean (bytes : Bytes) : Except Fault Bool := do
  match (← payload booleanTag "boolean" 1 bytes).val with
  | [0] => .ok false
  | [1] => .ok true
  | _ => .error .badBoolean

def encodeUnsigned (width n : Nat) : Bytes := unsignedTag :: Bytes.bigEndian width n

abbrev Unsigned (width : Nat) := { n : Nat // n < Bytes.modulus width }

def decodeUnsigned (width : Nat) (code : Bytes) : Except Fault (Unsigned width) := do
  let ⟨bytes, h⟩ ← payload unsignedTag "unsigned" width code
  return ⟨Bytes.ofBigEndian bytes, h ▸ Bytes.ofBigEndian_lt bytes⟩

def encodeSigned (width : Nat) (i : Int) : Bytes :=
  signedTag :: Bytes.bigEndian width (SignedWord.flip width i).toNat

abbrev Signed (width : Nat) :=
  { i : Int // -(SignedWord.signWeight width : Int) ≤ i ∧ i < SignedWord.signWeight width }

def decodeSigned (width : Nat) (hw : SignedWord.Width width) (code : Bytes) :
    Except Fault (Signed width) := do
  let ⟨bytes, h⟩ ← payload signedTag "signed" width code
  return ⟨SignedWord.unflip width (UInt64.ofNat (Bytes.ofBigEndian bytes)), by
    have hb := Bytes.ofBigEndian_lt bytes
    have hs := SignedWord.double_signWeight hw.1
    rw [h] at hb
    rw [SignedWord.unflip_eq hw hb]
    omega⟩

def encodeChar (c : Char) : Bytes := charTag :: Bytes.bigEndian 4 c.toNat

/-- Surrogates and numbers past the last code point are no characters. -/
def decodeChar (bytes : Bytes) : Except Fault Char := do
  let n := Bytes.ofBigEndian (← payload charTag "char" 4 bytes).val
  if n.isValidChar then .ok (Char.ofNat n) else .error .badChar

def encodeFixedBytes (bytes : Bytes) : Bytes := fixedBytesTag :: bytes

def decodeFixedBytes (width : Nat) (bytes : Bytes) :
    Except Fault { bytes : Bytes // bytes.length = width } :=
  payload fixedBytesTag "fixed bytes" width bytes

def tag? (bytes : Bytes) : Option UInt8 := bytes.head?

end PredicateIndex.KeyCode
