import PredicateIndex.Checksum
import PredicateIndex.Proofs.Words

/-!
# The checksum register

The register is linear in the bits fed to it. Its generator has a constant
term, so a shift loses nothing, and up to 64 bits may be added to the register
all at once before as many shifts. A register therefore comes back to zero when
its own bytes are fed to it, and for no other eight bytes.
-/

set_option autoImplicit false

namespace PredicateIndex

namespace Bytes

def bitsOfByte (byte : UInt8) : List Bool := (List.range 8).map fun i => byte.toNat.testBit (7 - i)

def bits (bytes : Bytes) : List Bool := bytes.flatMap bitsOfByte

def flip (bytes error : Bytes) : Bytes := List.zipWith (· ^^^ ·) bytes error

theorem length_bitsOfByte (byte : UInt8) : (bitsOfByte byte).length = 8 := by
  rw [bitsOfByte, List.length_map, List.length_range]

theorem getElem?_bitsOfByte (byte : UInt8) {i : Nat} (h : i < 8) :
    (bitsOfByte byte)[i]? = some (byte.toNat.testBit (7 - i)) := by
  rw [bitsOfByte, List.getElem?_map, List.getElem?_range h, Option.map_some]

theorem bits_cons (byte : UInt8) (rest : Bytes) :
    bits (byte :: rest) = bitsOfByte byte ++ rest.bits := List.flatMap_cons

theorem length_bits (bytes : Bytes) : bytes.bits.length = 8 * bytes.length := by
  induction bytes with
  | nil => rfl
  | cons byte rest ih =>
    rw [bits_cons, List.length_append, ih, length_bitsOfByte, List.length_cons]
    omega

theorem testBit_div_modulus (width n i : Nat) :
    (n / modulus width).testBit i = n.testBit (8 * width + i) := by
  induction width generalizing i with
  | zero => rw [modulus, Nat.div_one, Nat.mul_zero, Nat.zero_add]
  | succ width ih =>
    have hd : n / modulus (width + 1) = n / modulus width / 2 / 2 / 2 / 2 / 2 / 2 / 2 / 2 := by
      rw [modulus, Nat.mul_comm, ← Nat.div_div_eq_div_mul]
      omega
    have hs := ih (i + 8)
    rw [Nat.testBit_add_one, Nat.testBit_add_one, Nat.testBit_add_one, Nat.testBit_add_one,
      Nat.testBit_add_one, Nat.testBit_add_one, Nat.testBit_add_one, Nat.testBit_add_one] at hs
    rw [hd, hs]
    congr 1
    omega

theorem getElem?_bits_bigEndian (width n : Nat) {i : Nat} (h : i < 8 * width) :
    (bigEndian width n).bits[i]? = some (n.testBit (8 * width - 1 - i)) := by
  induction width generalizing i with
  | zero => omega
  | succ width ih =>
    rw [bigEndian, bits_cons]
    by_cases hi : i < 8
    · have hbit : 7 - i < 8 := by omega
      have hp : 8 * width + (7 - i) = 8 * (width + 1) - 1 - i := by omega
      rw [List.getElem?_append_left (by rwa [length_bitsOfByte]), getElem?_bitsOfByte _ hi,
        UInt8.toNat_ofNat', Nat.testBit_mod_two_pow, decide_eq_true hbit, Bool.true_and,
        testBit_div_modulus, hp]
    · have hp : 8 * width - 1 - (i - 8) = 8 * (width + 1) - 1 - i := by omega
      rw [List.getElem?_append_right (by rw [length_bitsOfByte]; omega), length_bitsOfByte,
        ih (by omega), hp]

end Bytes

namespace Checksum

def bitAt (register : UInt64) (i : Nat) : Bool := register.toBitVec.getMsbD i

theorem eq_of_bitAt {a b : UInt64} (h : ∀ i, i < 64 → bitAt a i = bitAt b i) : a = b :=
  UInt64.toBitVec_inj.mp (BitVec.eq_of_getMsbD_eq h)

theorem bitAt_of_le (register : UInt64) {i : Nat} (h : 64 ≤ i) : bitAt register i = false :=
  BitVec.getMsbD_of_ge _ _ h

theorem bitAt_eq_testBit (register : UInt64) {i : Nat} (h : i < 64) :
    bitAt register i = register.toNat.testBit (63 - i) := by
  rw [bitAt, BitVec.getMsbD, decide_eq_true h, Bool.true_and]
  rfl

theorem bitAt_xor (a b : UInt64) (i : Nat) : bitAt (a ^^^ b) i = (bitAt a i ^^ bitAt b i) :=
  BitVec.getMsbD_xor

theorem bitAt_zero (i : Nat) : bitAt 0 i = false := BitVec.getMsbD_zero

theorem bitAt_shiftLeft (register : UInt64) (i : Nat) :
    bitAt (register <<< 1) i = bitAt register (i + 1) := BitVec.getMsbD_shiftLeft _ _

theorem bitAt_shiftRight (register : UInt64) {i : Nat} (h : i < 64) :
    bitAt (register >>> 1) i = (decide (i ≠ 0) && bitAt register (i - 1)) := by
  have hs : bitAt (register >>> 1) i =
      (decide (i < 64) && (!decide (i < 1) && bitAt register (i - 1))) := BitVec.getMsbD_ushiftRight
  simp [hs, h]

theorem shift_eq (register : UInt64) :
    shift register = (register <<< 1) ^^^ if bitAt register 0 then polynomial else 0 := by
  have h : register >>> 63 = 1 ↔ bitAt register 0 = true := by
    have hr := register.toNat_lt
    rw [bitAt, ← BitVec.msb_eq_getMsbD_zero, BitVec.msb_eq_decide, decide_eq_true_iff,
      ← UInt64.toNat_inj, UInt64.toNat_shiftRight, Nat.shiftRight_eq_div_pow]
    show register.toNat / 9223372036854775808 = 1 ↔ 9223372036854775808 ≤ register.toNat
    omega
  rw [shift]
  by_cases hb : bitAt register 0 = true
  · rw [if_pos (h.mpr hb), if_pos hb]
  · rw [if_neg fun hr => hb (h.mp hr), if_neg hb, UInt64.xor_zero]

theorem shift_xor (a b : UInt64) : shift (a ^^^ b) = shift a ^^^ shift b := by
  apply eq_of_bitAt
  intro i _
  rw [shift_eq, shift_eq, shift_eq]
  simp only [bitAt_xor, bitAt_shiftLeft]
  cases bitAt a 0 <;> cases bitAt b 0 <;> simp [bitAt_zero, Bool.xor_comm, Bool.xor_left_comm]

/-- The generator has a constant term, so a bit that leaves the register shows at its other end. -/
theorem shift_eq_zero {register : UInt64} (h : shift register = 0) : register = 0 := by
  have hbit : ∀ i, (bitAt register (i + 1) ^^
      bitAt (if bitAt register 0 then polynomial else 0) i) = false := by
    intro i
    rw [← bitAt_shiftLeft, ← bitAt_xor, ← shift_eq, h, bitAt_zero]
  have hconstant : bitAt polynomial 63 = true := by decide
  have htop : bitAt register 0 = false := by
    have hlast := hbit 63
    rw [bitAt_of_le register (Nat.le_refl 64)] at hlast
    cases ht : bitAt register 0 with
    | false => rfl
    | true => simp [ht, hconstant] at hlast
  apply eq_of_bitAt
  intro i hi
  rw [bitAt_zero]
  cases i with
  | zero => exact htop
  | succ i => simpa [htop, bitAt_zero] using hbit i

theorem shift_shiftRight {register : UInt64} (h : bitAt register 63 = false) :
    shift (register >>> 1) = register := by
  have ht : bitAt (register >>> 1) 0 = false := bitAt_shiftRight register (by decide)
  apply eq_of_bitAt
  intro i hi
  rw [shift_eq, ht, if_neg Bool.false_ne_true, UInt64.xor_zero, bitAt_shiftLeft]
  by_cases he : i = 63
  · rw [he, h]
    exact bitAt_of_le _ (Nat.le_refl 64)
  · rw [bitAt_shiftRight _ (by omega)]
    simp

theorem shifts_xor (n : Nat) (a b : UInt64) : shifts n (a ^^^ b) = shifts n a ^^^ shifts n b := by
  induction n generalizing a b with
  | zero => rfl
  | succ n ih => rw [shifts, shifts, shifts, shift_xor, ih]

theorem shifts_zero (n : Nat) : shifts n 0 = 0 := by
  have h := shifts_xor n 0 0
  rw [UInt64.xor_self, UInt64.xor_self] at h
  exact h

theorem shifts_eq_zero {n : Nat} {register : UInt64} (h : shifts n register = 0) :
    register = 0 := by
  induction n generalizing register with
  | zero => exact h
  | succ n ih => exact shift_eq_zero (ih h)

theorem xor_exchange (a b c d : UInt64) : a ^^^ b ^^^ (c ^^^ d) = (a ^^^ c) ^^^ (b ^^^ d) := by
  ac_rfl

theorem feed_xor (a b : UInt64) (byte error : UInt8) :
    feed (a ^^^ b) (byte ^^^ error) = feed a byte ^^^ feed b error := by
  rw [feed, feed, feed, ← shifts_xor, UInt8.toUInt64_xor, UInt64.shiftLeft_xor, xor_exchange]

/-- What an error does to the register does not depend on the message. -/
theorem update_flip (a b : UInt64) {bytes error : Bytes} (h : bytes.length = error.length) :
    update (a ^^^ b) (bytes.flip error) = update a bytes ^^^ update b error := by
  induction bytes generalizing a b error with
  | nil =>
    cases error with
    | nil => rfl
    | cons => cases h
  | cons byte rest ih =>
    cases error with
    | nil => cases h
    | cons wrong others =>
      have hs := ih (feed a byte) (feed b wrong) (Nat.succ.inj h)
      rw [← feed_xor] at hs
      exact hs

def lead (bit : Bool) : UInt64 := if bit then 0x8000000000000000 else 0

def absorb (register : UInt64) (bit : Bool) : UInt64 := shift (register ^^^ lead bit)

def word : List Bool → UInt64
  | [] => 0
  | bit :: rest => lead bit ^^^ (word rest >>> 1)

theorem bitAt_lead (bit : Bool) {i : Nat} (h : i < 64) :
    bitAt (lead bit) i = (decide (i = 0) && bit) := by
  have hl : ∀ bit : Bool, ∀ i : Fin 64, bitAt (lead bit) i = (decide (i.val = 0) && bit) := by
    decide
  exact hl bit ⟨i, h⟩

theorem bitAt_word (bits : List Bool) {i : Nat} (h : i < 64) :
    bitAt (word bits) i = bits[i]?.getD false := by
  induction bits generalizing i with
  | nil => exact bitAt_zero i
  | cons bit rest ih =>
    rw [word, bitAt_xor, bitAt_shiftRight _ h, bitAt_lead _ h]
    cases i with
    | zero => simp
    | succ i => simp [ih (Nat.lt_of_succ_lt h)]

/-- Up to 64 bits may be added to the register before it is shifted for any of them. -/
theorem foldl_absorb {bits : List Bool} (h : bits.length ≤ 64) (register : UInt64) :
    bits.foldl absorb register = shifts bits.length (register ^^^ word bits) := by
  induction bits generalizing register with
  | nil => exact UInt64.xor_zero.symm
  | cons bit rest ih =>
    have hl : rest.length < 64 := h
    have hclear : bitAt (word rest) 63 = false := by
      rw [bitAt_word rest (by decide), List.getElem?_eq_none (by omega), Option.getD_none]
    -- the word of the rest stands one place to the right, and the shift moves it back
    rw [List.foldl_cons, ih (by omega), List.length_cons, shifts, absorb, word, shift_xor register,
      shift_xor register, shift_xor _ (word rest >>> 1), shift_shiftRight hclear, UInt64.xor_assoc]

theorem word_bitsOfByte (byte : UInt8) :
    word (Bytes.bitsOfByte byte) = byte.toUInt64 <<< 56 := by
  apply eq_of_bitAt
  intro i hi
  have hb : (byte.toUInt64 <<< 56).toNat = byte.toNat <<< 56 := by
    have hlt := byte.toNat_lt
    rw [UInt64.toNat_shiftLeft, UInt8.toNat_toUInt64]
    apply Nat.mod_eq_of_lt
    rw [Nat.shiftLeft_eq]
    show byte.toNat * 72057594037927936 < 18446744073709551616
    omega
  rw [bitAt_word _ hi, bitAt_eq_testBit _ hi, hb, Nat.testBit_shiftLeft]
  by_cases h : i < 8
  · have hp : 63 - i - 56 = 7 - i := by omega
    rw [Bytes.getElem?_bitsOfByte _ h, Option.getD_some, decide_eq_true (by omega),
      Bool.true_and, hp]
  · rw [List.getElem?_eq_none (by rw [Bytes.length_bitsOfByte]; omega), Option.getD_none,
      decide_eq_false (by omega), Bool.false_and]

theorem update_bits (register : UInt64) (bytes : Bytes) :
    update register bytes = bytes.bits.foldl absorb register := by
  induction bytes generalizing register with
  | nil => rfl
  | cons byte rest ih =>
    have hlen := Bytes.length_bitsOfByte byte
    have hbyte : (Bytes.bitsOfByte byte).foldl absorb register = feed register byte := by
      have habsorb := foldl_absorb (show (Bytes.bitsOfByte byte).length ≤ 64 by omega) register
      rwa [hlen, word_bitsOfByte] at habsorb
    rw [Bytes.bits_cons, List.foldl_append, hbyte, ← ih]
    rfl

/-- A register comes back to zero when its own bytes are fed to it, and for no others. -/
theorem update_eq_zero_iff (register : UInt64) {stored : Bytes} (h : stored.length = 8) :
    update register stored = 0 ↔ register.toNat = Bytes.ofBigEndian stored := by
  have hlt := Bytes.ofBigEndian_lt stored
  have hback := Bytes.bigEndian_ofBigEndian stored
  rw [h] at hlt hback
  have hnat : (UInt64.ofNat (Bytes.ofBigEndian stored)).toNat = Bytes.ofBigEndian stored :=
    UInt64.toNat_ofNat_of_lt' hlt
  have hword : word stored.bits = UInt64.ofNat (Bytes.ofBigEndian stored) := by
    apply eq_of_bitAt
    intro i hi
    have hbit := Bytes.getElem?_bits_bigEndian 8 (Bytes.ofBigEndian stored) hi
    rw [hback] at hbit
    rw [bitAt_word _ hi, bitAt_eq_testBit _ hi, hnat, hbit, Option.getD_some]
  have hsame : register.toNat = Bytes.ofBigEndian stored ↔
      register = UInt64.ofNat (Bytes.ofBigEndian stored) := by
    rw [← UInt64.toNat_inj, hnat]
  have hl : stored.bits.length = 64 := by rw [Bytes.length_bits, h]
  -- all 64 stored bits meet the register before a shift, and no shift makes a word zero
  rw [update_bits, foldl_absorb (by omega), hword, hsame]
  constructor
  · intro hz
    exact UInt64.xor_eq_zero_iff.mp (shifts_eq_zero hz)
  · intro he
    rw [he, UInt64.xor_self, shifts_zero]

end Checksum

end PredicateIndex
