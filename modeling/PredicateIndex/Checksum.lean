import PredicateIndex.Bytes

/-!
# Checksums

The checksum of records and checkpoint files is CRC-64/ECMA-182: the remainder
of the message polynomial over GF(2), most significant bit first, with the
register starting at zero and no final complement. Bytes are fed one at a time,
so the checksum of a concatenation continues that of its first part.
-/

set_option autoImplicit false

namespace PredicateIndex

namespace Checksum

def polynomial : UInt64 := 0x42F0E1EBA9EA3693

def shift (register : UInt64) : UInt64 :=
  if register >>> 63 = 1 then (register <<< 1) ^^^ polynomial else register <<< 1

def shifts : Nat → UInt64 → UInt64
  | 0, register => register
  | n + 1, register => shifts n (shift register)

def feed (register : UInt64) (byte : UInt8) : UInt64 :=
  shifts 8 (register ^^^ (byte.toUInt64 <<< 56))

def update (register : UInt64) (bytes : Bytes) : UInt64 := bytes.foldl feed register

theorem update_append (register : UInt64) (front rest : Bytes) :
    update register (front ++ rest) = update (update register front) rest :=
  List.foldl_append

end Checksum

def checksum (bytes : Bytes) : UInt64 := Checksum.update 0 bytes

/-- The check value of the algorithm, the checksum of the digits from 1 to 9. -/
example : checksum [49, 50, 51, 52, 53, 54, 55, 56, 57] = 0x6C40DF5F0B497347 := by decide +kernel

end PredicateIndex
