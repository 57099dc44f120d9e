import PredicateIndex.Bytes

/-!
# Signed integers in words

A signed integer of up to eight bytes is kept in a 64-bit word. It is cut to its
width by a mask, and its sign bit is flipped, so that the order of the words is
the order of the integers. Two shifts spread the sign bit of a narrow word over
the bits above it. All of this is arithmetic modulo the number of words.
-/

set_option autoImplicit false

namespace PredicateIndex

namespace SignedWord

abbrev Width (width : Nat) : Prop := 0 < width ∧ width ≤ 8

def signWeight : Nat → Nat
  | 0 => 1
  | width + 1 => 128 * Bytes.modulus width

def mask (width : Nat) : UInt64 :=
  if width = 8 then 0xFFFFFFFFFFFFFFFF else (1 <<< UInt64.ofNat (8 * width)) - 1

def signBit (width : Nat) : UInt64 := 1 <<< UInt64.ofNat (8 * width - 1)

/-- The low bytes of an integer with the sign bit flipped. -/
def flip (width : Nat) (i : Int) : UInt64 := (UInt64.ofInt i &&& mask width) ^^^ signBit width

def signExtend (width : Nat) (word : UInt64) : Int64 :=
  let unused := UInt64.ofNat (64 - 8 * width)
  (word <<< unused).toInt64 >>> unused.toInt64

/-- The integer of which a word is the flipped one. -/
def unflip (width : Nat) (word : UInt64) : Int :=
  (signExtend width (word ^^^ signBit width)).toInt

variable {width : Nat}

theorem double_signWeight (h : 0 < width) : 2 * signWeight width = Bytes.modulus width := by
  cases width with
  | zero => exact absurd h (Nat.lt_irrefl 0)
  | succ width =>
    rw [Bytes.modulus, signWeight]
    omega

theorem Width.cases (h : Width width) : width = 1 ∨ width = 2 ∨ width = 3 ∨ width = 4 ∨
    width = 5 ∨ width = 6 ∨ width = 7 ∨ width = 8 := by
  omega

theorem signWeight_eq (h : Width width) : signWeight width = 1 <<< (8 * width - 1) := by
  rcases h.cases with rfl | rfl | rfl | rfl | rfl | rfl | rfl | rfl <;> decide

theorem modulus_eq (h : Width width) : Bytes.modulus width = 1 <<< (8 * width) := by
  rcases h.cases with rfl | rfl | rfl | rfl | rfl | rfl | rfl | rfl <;> decide

theorem modulus_le (h : Width width) : Bytes.modulus width ≤ UInt64.size := by
  rcases h.cases with rfl | rfl | rfl | rfl | rfl | rfl | rfl | rfl <;> decide

theorem toNat_mask (h : Width width) : (mask width).toNat = Bytes.modulus width - 1 := by
  rcases h.cases with rfl | rfl | rfl | rfl | rfl | rfl | rfl | rfl <;> decide

theorem toNat_signBit (h : Width width) : (signBit width).toNat = signWeight width := by
  rcases h.cases with rfl | rfl | rfl | rfl | rfl | rfl | rfl | rfl <;> decide

theorem xor_top {top n k : Nat} (ht : top = 1 <<< k) (h : n < 2 * top) :
    n ^^^ top = if n < top then n + top else n - top := by
  rw [Nat.one_shiftLeft] at ht
  have hd : (n ^^^ top) / top = n / top ^^^ 1 := by
    rw [ht, Nat.xor_div_two_pow, Nat.div_self (Nat.two_pow_pos k)]
  have hm : (n ^^^ top) % top = n % top := by
    rw [ht, Nat.xor_mod_two_pow, Nat.mod_self, Nat.xor_zero]
  have hsplit := Nat.div_add_mod (n ^^^ top) top
  rw [hd, hm] at hsplit
  split
  · rename_i hlow
    rw [← hsplit, Nat.div_eq_of_lt hlow, Nat.mod_eq_of_lt hlow, Nat.zero_xor, Nat.mul_one,
      Nat.add_comm]
  · rename_i hhigh
    have hq : n / top = 1 := by
      rw [Nat.div_eq_iff (ht ▸ Nat.two_pow_pos k)]
      omega
    have hr : n % top = n - top := by
      rw [Nat.mod_eq_sub_mod (Nat.le_of_not_lt hhigh), Nat.mod_eq_of_lt (by omega)]
    rw [← hsplit, hq, hr, Nat.xor_self, Nat.mul_zero, Nat.zero_add]

theorem toNat_masked (h : Width width) (i : Int) :
    (UInt64.ofInt i &&& mask width).toNat = (i % Bytes.modulus width).toNat := by
  rw [UInt64.toNat_and, toNat_mask h, modulus_eq h, Nat.one_shiftLeft,
    Nat.and_two_pow_sub_one_eq_mod, ← Nat.one_shiftLeft, ← modulus_eq h]
  simp only [UInt64.ofInt, UInt64.toNat_ofNat']
  -- the modulus of the width divides that of the word
  rcases h.cases with rfl | rfl | rfl | rfl | rfl | rfl | rfl | rfl <;>
    simp only [Bytes.modulus] <;> omega

theorem toNat_flip (h : Width width) (i : Int) :
    (flip width i).toNat = ((i + signWeight width) % Bytes.modulus width).toNat := by
  have hdouble := double_signWeight h.1
  have hweight : 0 < signWeight width := by
    rw [signWeight_eq h, Nat.one_shiftLeft]
    exact Nat.two_pow_pos _
  have hnonneg := Int.emod_nonneg i (show (Bytes.modulus width : Int) ≠ 0 by omega)
  have hlt := Int.emod_lt_of_pos i (show (0 : Int) < Bytes.modulus width by omega)
  rw [flip, UInt64.toNat_xor, toNat_signBit h, toNat_masked h,
    xor_top (signWeight_eq h) (by omega), ← Int.emod_add_emod]
  generalize i % (Bytes.modulus width : Int) = low at hnonneg hlt ⊢
  by_cases hl : low < signWeight width
  · rw [if_pos (by omega), Int.emod_eq_of_lt (by omega) (by omega)]
    omega
  · rw [if_neg (by omega), ← Int.sub_emod_right, Int.emod_eq_of_lt (by omega) (by omega)]
    omega

/-- Shifting a word up and down again takes away the modulus if its sign bit is set. -/
theorem toInt_signExtend (h : Width width) {word : UInt64}
    (hm : word.toNat < Bytes.modulus width) :
    (signExtend width word).toInt = if word.toNat < signWeight width then (word.toNat : Int)
      else word.toNat - Bytes.modulus width := by
  obtain rfl | hnarrow : width = 8 ∨ width ≤ 7 := by omega
  · have hnumber := BitVec.toInt_eq_toNat_bmod word.toBitVec
    rw [UInt64.toNat_toBitVec, Int.bmod_def] at hnumber
    simp only [signExtend, Int64.toInt, Nat.reduceMul, Nat.sub_self, UInt64.reduceOfNat,
      UInt64.shiftLeft_zero, UInt64.toInt64_ofNat, Int64.shiftRight_zero, UInt64.toBitVec_toInt64,
      signWeight, Bytes.modulus, Nat.mul_one, Int.cast_ofNat_Int] at hm ⊢
    omega
  · obtain rfl | rfl | rfl | rfl | rfl | rfl | rfl : width = 1 ∨ width = 2 ∨ width = 3 ∨
        width = 4 ∨ width = 5 ∨ width = 6 ∨ width = 7 := by omega
    -- the shifts multiply and divide the number by a constant
    all_goals
      simp only [signExtend, signWeight, Bytes.modulus, Int64.toInt, UInt64.reduceOfNat,
        UInt64.toInt64_ofNat, Int64.toBitVec_shiftRight, UInt64.toBitVec_toInt64,
        UInt64.toBitVec_shiftLeft, UInt64.toBitVec_ofNat, Int64.toBitVec_ofNat,
        BitVec.ofNat_eq_ofNat, BitVec.reduceMod, BitVec.reduceSMod, BitVec.shiftLeft_eq',
        BitVec.sshiftRight_eq', BitVec.toNat_ofNat, BitVec.toInt_sshiftRight,
        BitVec.toInt_shiftLeft, UInt64.toNat_toBitVec, Int.natCast_shiftLeft, Int.shiftLeft_eq,
        Int.shiftRight_eq_div_pow, Int.bmod_def, Int.cast_ofNat_Int, Int.reducePow, Int.reduceAdd,
        Int.reduceDiv, Nat.reducePow, Nat.reduceMod, Nat.reduceMul, Nat.reduceSub,
        Nat.mul_one] at hm ⊢
      omega

theorem unflip_eq (h : Width width) {n : Nat} (hn : n < Bytes.modulus width) :
    unflip width (UInt64.ofNat n) = n - signWeight width := by
  have hdouble := double_signWeight h.1
  have hword : (UInt64.ofNat n ^^^ signBit width).toNat =
      if n < signWeight width then n + signWeight width else n - signWeight width := by
    rw [UInt64.toNat_xor, toNat_signBit h,
      UInt64.toNat_ofNat_of_lt' (Nat.lt_of_lt_of_le hn (modulus_le h))]
    exact xor_top (signWeight_eq h) (by omega)
  by_cases hl : n < signWeight width
  · rw [if_pos hl] at hword
    rw [unflip, toInt_signExtend h (by omega), hword, if_neg (by omega)]
    omega
  · rw [if_neg hl] at hword
    rw [unflip, toInt_signExtend h (by omega), hword, if_pos (by omega)]
    omega

end SignedWord

end PredicateIndex
