import PredicateIndex.Bytes

/-!
# Words and what reads them

A word that is written and read back is the number modulo its width, and every
reader leaves what stands behind the bytes it took. Cutting a byte string
succeeds exactly when it is long enough.
-/

set_option autoImplicit false

namespace PredicateIndex

namespace Bytes

theorem foldl_ofBigEndian (bytes : Bytes) (start : Nat) :
    bytes.foldl (fun n byte => 256 * n + byte.toNat) start =
      start * modulus bytes.length + ofBigEndian bytes := by
  rw [ofBigEndian]
  induction bytes generalizing start with
  | nil => simp [modulus]
  | cons byte rest ih =>
    rw [List.foldl_cons, List.foldl_cons, ih, ih (256 * 0 + byte.toNat), List.length_cons, modulus,
      Nat.mul_zero, Nat.zero_add, Nat.add_mul, Nat.mul_comm 256 start, Nat.mul_assoc, Nat.add_assoc]

theorem ofBigEndian_cons (byte : UInt8) (rest : Bytes) :
    ofBigEndian (byte :: rest) = byte.toNat * modulus rest.length + ofBigEndian rest := by
  rw [ofBigEndian, List.foldl_cons, foldl_ofBigEndian, Nat.mul_zero, Nat.zero_add]

theorem ofBigEndian_bigEndian (width n : Nat) :
    ofBigEndian (bigEndian width n) = n % modulus width := by
  induction width with
  | zero => simp [bigEndian, ofBigEndian, modulus, Nat.mod_one]
  | succ width ih =>
    have hm : n % (256 * modulus width) =
        n / modulus width % 256 * modulus width + n % modulus width := by
      rw [Nat.mul_comm 256, Nat.mod_mul, Nat.mul_comm (modulus width), Nat.add_comm]
    rw [bigEndian, ofBigEndian_cons, ih, length_bigEndian, UInt8.toNat_ofNat', modulus, hm]

theorem modulus_pos (width : Nat) : 0 < modulus width := by
  induction width with
  | zero => exact Nat.one_pos
  | succ width ih => exact Nat.mul_pos (by decide) ih

/-- A word does not show what lies above its width. -/
theorem bigEndian_add (width m n : Nat) :
    bigEndian width (m * modulus width + n) = bigEndian width n := by
  induction width generalizing m with
  | zero => rfl
  | succ width ih =>
    have hm : m * modulus (width + 1) + n = m * 256 * modulus width + n := by
      rw [modulus, Nat.mul_assoc]
    have hd : (m * 256 * modulus width + n) / modulus width = m * 256 + n / modulus width := by
      rw [Nat.add_comm, Nat.add_mul_div_right _ _ (modulus_pos width), Nat.add_comm]
    have hb : UInt8.ofNat (m * 256 + n / modulus width) = UInt8.ofNat (n / modulus width) := by
      rw [← UInt8.toNat_inj, UInt8.toNat_ofNat', UInt8.toNat_ofNat']
      exact Nat.mul_add_mod_self_right m 256 _
    rw [hm, bigEndian, bigEndian, hd, hb, ih]

/-- Bytes are the word of the number that they are read as. -/
theorem bigEndian_ofBigEndian (bytes : Bytes) :
    bigEndian bytes.length (ofBigEndian bytes) = bytes := by
  induction bytes with
  | nil => rfl
  | cons byte rest ih =>
    have hd : (byte.toNat * modulus rest.length + ofBigEndian rest) / modulus rest.length =
        byte.toNat := by
      rw [Nat.add_comm, Nat.add_mul_div_right _ _ (modulus_pos _),
        Nat.div_eq_of_lt (ofBigEndian_lt rest), Nat.zero_add]
    rw [ofBigEndian_cons, List.length_cons, bigEndian, hd, bigEndian_add, ih, UInt8.ofNat_toNat]

theorem ofLittleEndian_littleEndian (width n : Nat) :
    ofLittleEndian (littleEndian width n) = n % modulus width := by
  induction width generalizing n with
  | zero => simp [littleEndian, ofLittleEndian, modulus, Nat.mod_one]
  | succ width ih =>
    rw [littleEndian, ofLittleEndian, ih, UInt8.toNat_ofNat', modulus, Nat.mod_mul]

theorem split?_of_le {n : Nat} {bytes : Bytes} (h : n ≤ bytes.length) :
    split? n bytes = some (bytes.take n, bytes.drop n) := by
  have hs := split?_append (bytes.take n) (bytes.drop n)
  rwa [List.take_append_drop, List.length_take, Nat.min_eq_left h] at hs

theorem split?_of_lt {n : Nat} {bytes : Bytes} (h : bytes.length < n) : split? n bytes = none := by
  induction n generalizing bytes with
  | zero => exact absurd h (Nat.not_lt_zero _)
  | succ n ih =>
    cases bytes with
    | nil => rfl
    | cons byte rest => rw [split?, ih (Nat.lt_of_succ_lt_succ h), Option.map_none]

theorem word64_lt (word : UInt64) : word.toNat < modulus 8 := word.toNat_lt

theorem word32_lt (word : UInt32) : word.toNat < modulus 4 := word.toNat_lt

@[simp] theorem length_resize (bytes : Bytes) (n : Nat) : (bytes.resize n).length = n := by
  rw [resize, List.length_append, List.length_take, List.length_replicate]
  omega

end Bytes

namespace Reader

variable {α β : Type}

theorem bind_apply {x : Reader α} {f : α → Reader β} {input rest : Bytes} {a : α}
    (h : x input = some (a, rest)) : (x >>= f) input = f a rest := by
  show StateT.bind x f input = _
  rw [StateT.bind, h]
  rfl

theorem bind_some {x : Reader α} {f : α → Reader β} {input rest : Bytes} {b : β}
    (h : (x >>= f) input = some (b, rest)) :
    ∃ a middle, x input = some (a, middle) ∧ f a middle = some (b, rest) := by
  have hx : (x input).bind (fun read => f read.1 read.2) = some (b, rest) := h
  obtain ⟨⟨a, middle⟩, ha, hf⟩ := Option.bind_eq_some_iff.mp hx
  exact ⟨a, middle, ha, hf⟩

theorem bytes_append (front rest : Bytes) :
    Reader.bytes front.length (front ++ rest) = some (front, rest) :=
  Bytes.split?_append front rest

theorem length_of_bytes {n : Nat} {input front rest : Bytes}
    (h : Reader.bytes n input = some (front, rest)) : front.length = n := by
  by_cases hn : n ≤ input.length
  · have hs : some (input.take n, input.drop n) = some (front, rest) :=
      (Bytes.split?_of_le hn).symm.trans h
    obtain ⟨rfl, -⟩ := Prod.mk.inj (Option.some.inj hs)
    rw [List.length_take, Nat.min_eq_left hn]
  · have hs : none = some (front, rest) :=
      (Bytes.split?_of_lt (Nat.lt_of_not_le hn)).symm.trans h
    cases hs

theorem bigWord_lt {width n : Nat} {input rest : Bytes}
    (h : Reader.bigWord width input = some (n, rest)) : n < Bytes.modulus width := by
  obtain ⟨word, middle, hw, hn⟩ := bind_some h
  obtain ⟨rfl, -⟩ := Prod.mk.inj (Option.some.inj hn)
  rw [← length_of_bytes hw]
  exact Bytes.ofBigEndian_lt word

theorem bigWord_append {width n : Nat} (hn : n < Bytes.modulus width) (rest : Bytes) :
    Reader.bigWord width (Bytes.bigEndian width n ++ rest) = some (n, rest) := by
  have h := bytes_append (Bytes.bigEndian width n) rest
  rw [Bytes.length_bigEndian] at h
  rw [Reader.bigWord, bind_apply h, Bytes.ofBigEndian_bigEndian, Nat.mod_eq_of_lt hn]
  rfl

theorem littleWord_append {width n : Nat} (hn : n < Bytes.modulus width) (rest : Bytes) :
    Reader.littleWord width (Bytes.littleEndian width n ++ rest) = some (n, rest) := by
  have h := bytes_append (Bytes.littleEndian width n) rest
  rw [Bytes.length_littleEndian] at h
  rw [Reader.littleWord, bind_apply h, Bytes.ofLittleEndian_littleEndian, Nat.mod_eq_of_lt hn]
  rfl

theorem replicate_append {item : Reader α} {write : β → Bytes} (value : β → α) {items : List β}
    (h : ∀ b ∈ items, ∀ rest, item (write b ++ rest) = some (value b, rest)) (rest : Bytes) :
    Reader.replicate item items.length (items.flatMap write ++ rest) =
      some (items.map value, rest) := by
  induction items with
  | nil => rfl
  | cons b items ih =>
    have hb := h b List.mem_cons_self (items.flatMap write ++ rest)
    have ht := ih fun c hc => h c (List.mem_cons_of_mem b hc)
    rw [List.flatMap_cons, List.append_assoc, List.length_cons, Reader.replicate, bind_apply hb,
      bind_apply ht]
    rfl

theorem replicate_some {item : Reader α} {items : List α} {n : Nat} {input rest : Bytes}
    (h : Reader.replicate item n input = some (items, rest)) :
    items.length = n ∧ ∀ a ∈ items, ∃ before behind, item before = some (a, behind) := by
  induction n generalizing items input rest with
  | zero =>
    obtain ⟨rfl, -⟩ := Prod.mk.inj (Option.some.inj h)
    exact ⟨rfl, fun a ha => absurd ha List.not_mem_nil⟩
  | succ n ih =>
    obtain ⟨first, middle, hfirst, hothers⟩ := bind_some h
    obtain ⟨others, last, hread, hitems⟩ := bind_some hothers
    obtain ⟨rfl, -⟩ := Prod.mk.inj (Option.some.inj hitems)
    obtain ⟨hlength, hall⟩ := ih hread
    refine ⟨congrArg Nat.succ hlength, fun a ha => ?_⟩
    rcases List.mem_cons.mp ha with rfl | ha
    · exact ⟨input, middle, hfirst⟩
    · exact hall a ha

end Reader

end PredicateIndex
