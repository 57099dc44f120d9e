/-!
# Byte strings and machine words

Files, keys and records are lists of bytes. A word is written with a fixed
number of bytes, most or least significant byte first; a value too large for
its width loses its high bytes. Reading consumes a byte string from the left
and fails where it ends too early.
-/

set_option autoImplicit false

namespace PredicateIndex

abbrev Bytes := List UInt8

namespace Bytes

/-- How many bytes of memory a vector may take up. -/
def reservable : Nat := 9223372036854775807

def modulus : Nat → Nat
  | 0 => 1
  | width + 1 => 256 * modulus width

def bigEndian : Nat → Nat → Bytes
  | 0, _ => []
  | width + 1, n => UInt8.ofNat (n / modulus width) :: bigEndian width n

def littleEndian : Nat → Nat → Bytes
  | 0, _ => []
  | width + 1, n => UInt8.ofNat n :: littleEndian width (n / 256)

def ofBigEndian (bytes : Bytes) : Nat :=
  bytes.foldl (fun n byte => 256 * n + byte.toNat) 0

def ofLittleEndian : Bytes → Nat
  | [] => 0
  | byte :: rest => byte.toNat + 256 * ofLittleEndian rest

@[simp] theorem length_bigEndian (width n : Nat) : (bigEndian width n).length = width := by
  induction width with
  | zero => rfl
  | succ width ih => simp [bigEndian, ih]

@[simp] theorem length_littleEndian (width n : Nat) :
    (littleEndian width n).length = width := by
  induction width generalizing n with
  | zero => rfl
  | succ width ih => simp [littleEndian, ih]

theorem ofBigEndian_lt (bytes : Bytes) : ofBigEndian bytes < modulus bytes.length := by
  suffices h : ∀ n : Nat, bytes.foldl (fun n byte => 256 * n + byte.toNat) n <
      (n + 1) * modulus bytes.length by simpa [ofBigEndian] using h 0
  induction bytes with
  | nil => intro n; simp [modulus]
  | cons byte rest ih =>
    intro n
    have hb := byte.toNat_lt
    calc _ < (256 * n + byte.toNat + 1) * modulus rest.length := ih _
      _ ≤ (n + 1) * 256 * modulus rest.length := Nat.mul_le_mul_right _ (by omega)
      _ = _ := by rw [List.length_cons, modulus, Nat.mul_assoc]

def split? : Nat → Bytes → Option (Bytes × Bytes)
  | 0, bytes => some ([], bytes)
  | _ + 1, [] => none
  | n + 1, byte :: rest => (split? n rest).map fun cut => (byte :: cut.1, cut.2)

theorem split?_append (front rest : Bytes) :
    split? front.length (front ++ rest) = some (front, rest) := by
  induction front with
  | nil => rfl
  | cons byte front ih => simp [split?, ih]

/-- Writes `patch` over `bytes` from offset `start` on; a gap is filled with zeros. -/
def overwrite (bytes : Bytes) (start : Nat) (patch : Bytes) : Bytes :=
  bytes.take start ++ List.replicate (start - bytes.length) 0 ++ patch ++
    bytes.drop (start + patch.length)

def resize (bytes : Bytes) (n : Nat) : Bytes :=
  bytes.take n ++ List.replicate (n - bytes.length) 0

end Bytes

abbrev Reader := StateT Bytes Option

namespace Reader

def bytes (n : Nat) : Reader Bytes := fun input => Bytes.split? n input

def bigWord (width : Nat) : Reader Nat := do
  return Bytes.ofBigEndian (← bytes width)

def littleWord (width : Nat) : Reader Nat := do
  return Bytes.ofLittleEndian (← bytes width)

def replicate {α : Type} (item : Reader α) : Nat → Reader (List α)
  | 0 => return []
  | n + 1 => do
    let first ← item
    let others ← replicate item n
    return first :: others

end Reader

end PredicateIndex
