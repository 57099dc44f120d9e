import PredicateIndex.Bytes

/-!
# Hexadecimal text

Digits are written in lower case and read in either case. A number is written
with a fixed count of digits; a byte string takes two digits a byte.
-/

set_option autoImplicit false

namespace PredicateIndex.Hex

def digit (n : Nat) : Char :=
  if n < 10 then Char.ofNat (48 + n) else Char.ofNat (87 + n)

def digit? (c : Char) : Option Nat :=
  let n := c.toNat
  if 48 ≤ n ∧ n < 58 then some (n - 48)
  else if 97 ≤ n ∧ n < 103 then some (n - 87)
  else if 65 ≤ n ∧ n < 71 then some (n - 55)
  else none

def digits : Nat → Nat → List Char
  | 0, _ => []
  | width + 1, n => digits width (n / 16) ++ [digit (n % 16)]

def ofNat (width n : Nat) : String := String.ofList (digits width n)

def ofBytes (bytes : Bytes) : String :=
  String.ofList (bytes.flatMap fun byte => digits 2 byte.toNat)

def value? (cs : List Char) : Option Nat :=
  cs.foldlM (fun n c => (digit? c).map (16 * n + ·)) 0

def bytes? : List Char → Option Bytes
  | [] => some []
  | [_] => none
  | high :: low :: rest => do
    let h ← digit? high
    let l ← digit? low
    let others ← bytes? rest
    return UInt8.ofNat (16 * h + l) :: others

end PredicateIndex.Hex
