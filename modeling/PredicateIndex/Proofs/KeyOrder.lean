import PredicateIndex.Key.Type
import PredicateIndex.Proofs.Words

/-!
# The order of key codes

The bytes of two codes of one type stand in the order of the values: a word
compares like its number, since its bytes are digits, most significant first,
and flipping the sign bit of signed integers moves them up by its weight, which
keeps their order. A code that is read as a value is the code of that value,
so everything else is refused.
-/

set_option autoImplicit false

namespace PredicateIndex

theorem compare_congr {α β : Type} [LT α] [DecidableLT α] [DecidableEq α] [LT β] [DecidableLT β]
    [DecidableEq β] {a b : α} {x y : β} (hlt : a < b ↔ x < y) (heq : a = b ↔ x = y) :
    compareOfLessAndEq a b = compareOfLessAndEq x y := by
  simp only [compareOfLessAndEq, hlt, heq]

theorem compare_divMod {base : Nat} (hb : 0 < base) (m n : Nat) :
    compare m n = (compare (m / base) (n / base)).then (compare (m % base) (n % base)) := by
  have hm := Nat.div_add_mod m base
  have hn := Nat.div_add_mod n base
  have hmod := Nat.mod_lt m hb
  have hmod' := Nat.mod_lt n hb
  rcases Nat.lt_trichotomy (m / base) (n / base) with hq | hq | hq
  · have hmul := Nat.mul_le_mul_left base (Nat.succ_le_of_lt hq)
    rw [Nat.mul_succ] at hmul
    have hlt : m < n := by omega
    rw [Nat.compare_eq_lt.mpr hlt, Nat.compare_eq_lt.mpr hq]
    rfl
  · rw [hq] at hm ⊢
    rw [Std.compare_self]
    exact compare_congr (by omega) (by omega)
  · have hmul := Nat.mul_le_mul_left base (Nat.succ_le_of_lt hq)
    rw [Nat.mul_succ] at hmul
    have hlt : n < m := by omega
    rw [Nat.compare_eq_gt.mpr hlt, Nat.compare_eq_gt.mpr hq]
    rfl

namespace Bytes

theorem compare_byte (a b : UInt8) : compare a b = compare a.toNat b.toNat :=
  compare_congr UInt8.lt_iff_toNat_lt UInt8.toNat_inj.symm

/-- Words compare like their numbers. -/
theorem compare_bigEndian {width m n : Nat} (hm : m < modulus width) (hn : n < modulus width) :
    compare (bigEndian width m) (bigEndian width n) = compare m n := by
  induction width generalizing m n with
  | zero =>
    rw [modulus] at hm hn
    rw [Nat.lt_one_iff.mp hm, Nat.lt_one_iff.mp hn]
    rfl
  | succ width ih =>
    have hp := modulus_pos width
    have htail : ∀ k, bigEndian width k = bigEndian width (k % modulus width) := by
      intro k
      have hadd := bigEndian_add width (k / modulus width) (k % modulus width)
      rwa [Nat.mul_comm, Nat.div_add_mod] at hadd
    have hdigit : ∀ k, k < modulus (width + 1) →
        (UInt8.ofNat (k / modulus width)).toNat = k / modulus width := by
      intro k hk
      rw [modulus] at hk
      rw [UInt8.toNat_ofNat']
      exact Nat.mod_eq_of_lt (Nat.div_lt_of_lt_mul (by rwa [Nat.mul_comm]))
    -- the first byte is the leading digit, and the others do not show it
    rw [bigEndian, bigEndian, List.compare_cons_cons, compare_byte, hdigit m hm, hdigit n hn,
      htail m, htail n, ih (Nat.mod_lt m hp) (Nat.mod_lt n hp), ← compare_divMod hp]

end Bytes

namespace KeyCode

abbrev Payload (width : Nat) := { bytes : Bytes // bytes.length = width }

/-- Codes with a fixed tag and payload width that stand in the order of the values, are read back,
and are the only byte strings that can be read. -/
structure Exact {α : Type} (tag : UInt8) (name : String) (width : Nat) (encode : α → Bytes)
    (decode : Bytes → Except Fault α) (order : α → α → Ordering) : Prop where
  shape : ∀ a, ∃ bytes : Payload width, encode a = tag :: bytes.val
  compare_eq : ∀ a b, compare (encode a) (encode b) = order a b
  encode_inj : ∀ a b, encode a = encode b ↔ a = b
  decode_encode : ∀ a, decode (encode a) = .ok a
  encode_decode : ∀ code a, decode code = .ok a → encode a = code
  empty : decode [] = .error .truncatedKey
  tagged : ∀ first rest, first ≠ tag → decode (first :: rest) = .error (.wrongKeyTag name)
  sized : ∀ rest : Bytes, rest.length ≠ width →
    decode (tag :: rest) = .error (.wrongKeyLength name (width + 1) (rest.length + 1))

theorem payload_cons {tag : UInt8} {name : String} {width : Nat} (bytes : Payload width) :
    payload tag name width (tag :: bytes.val) = .ok bytes := by
  simp [payload, bytes.property]

theorem eq_of_payload {tag : UInt8} {name : String} {width : Nat} {code : Bytes}
    {bytes : Payload width} (h : payload tag name width code = .ok bytes) :
    code = tag :: bytes.val := by
  cases code with
  | nil => cases h
  | cons first rest =>
    rw [payload] at h
    split at h
    · cases h
    · rename_i ht
      rw [Decidable.not_not.mp ht]
      split at h
      · cases h
        rfl
      · cases h

theorem Exact.ofPayload {α : Type} {tag : UInt8} {name : String} {width : Nat}
    {encode : α → Bytes} {decode : Bytes → Except Fault α} {order : α → α → Ordering}
    (word : α → Payload width) (value : Payload width → Except Fault α)
    (he : ∀ a, encode a = tag :: (word a).val)
    (hd : ∀ code, decode code = payload tag name width code >>= value)
    (hvalue : ∀ bytes a, value bytes = .ok a ↔ word a = bytes)
    (horder : ∀ a b, compare (word a).val (word b).val = order a b) :
    Exact tag name width encode decode order := by
  have hread : ∀ a, decode (encode a) = .ok a := by
    intro a
    rw [hd, he, payload_cons]
    exact (hvalue (word a) a).mpr rfl
  exact
    { shape := fun a => ⟨word a, he a⟩
      compare_eq := by
        intro a b
        rw [he, he, List.compare_cons_cons, Std.compare_self]
        exact horder a b
      encode_inj := by
        intro a b
        constructor
        · intro h
          have hb := hread b
          rw [← h, hread a] at hb
          exact Except.ok.inj hb
        · exact congrArg encode
      decode_encode := hread
      encode_decode := by
        intro code a h
        rw [hd] at h
        cases hp : payload tag name width code with
        | error fault =>
          rw [hp] at h
          cases h
        | ok bytes =>
          rw [hp] at h
          rw [he, (hvalue bytes a).mp h]
          exact (eq_of_payload hp).symm
      empty := by
        rw [hd]
        rfl
      tagged := by
        intro first rest hf
        rw [hd, payload, if_pos hf]
        rfl
      sized := by
        intro rest hl
        rw [hd, payload, if_neg (Decidable.not_not.mpr rfl), dif_neg hl]
        rfl }

theorem decodeBoolean_above {byte : UInt8} (h : 1 < byte) :
    decodeBoolean [booleanTag, byte] = .error .badBoolean := by
  have hp : payload booleanTag "boolean" 1 [booleanTag, byte] = .ok ⟨[byte], rfl⟩ :=
    payload_cons ⟨[byte], rfl⟩
  simp only [decodeBoolean, hp, bind, Except.bind]
  split
  · rename_i heq
    rw [List.singleton_inj.mp heq] at h
    exact absurd h (by decide)
  · rename_i heq
    rw [List.singleton_inj.mp heq] at h
    exact absurd h (by decide)
  · rfl

theorem Payload.number_lt {width : Nat} (bytes : Payload width) :
    Bytes.ofBigEndian bytes.val < Bytes.modulus width := by
  have h := Bytes.ofBigEndian_lt bytes.val
  rwa [bytes.property] at h

def Payload.ofNat (width n : Nat) : Payload width :=
  ⟨Bytes.bigEndian width n, Bytes.length_bigEndian width n⟩

theorem Payload.ofNat_eq_iff {width n : Nat} (hn : n < Bytes.modulus width)
    (bytes : Payload width) :
    Payload.ofNat width n = bytes ↔ Bytes.ofBigEndian bytes.val = n := by
  constructor
  · rintro rfl
    show Bytes.ofBigEndian (Bytes.bigEndian width n) = n
    rw [Bytes.ofBigEndian_bigEndian, Nat.mod_eq_of_lt hn]
  · intro h
    apply Subtype.ext
    have hback := Bytes.bigEndian_ofBigEndian bytes.val
    rwa [bytes.property, h] at hback

theorem Exact.length_encode {α : Type} {tag : UInt8} {name : String} {width : Nat}
    {encode : α → Bytes} {decode : Bytes → Except Fault α} {order : α → α → Ordering}
    (h : Exact tag name width encode decode order) (a : α) : (encode a).length = width + 1 := by
  obtain ⟨bytes, hb⟩ := h.shape a
  rw [hb, List.length_cons, bytes.property]

def booleanValue (bytes : Payload 1) : Except Fault Bool :=
  match bytes.val with
  | [0] => .ok false
  | [1] => .ok true
  | _ => .error .badBoolean

theorem exact_boolean : Exact booleanTag "boolean" 1 encodeBoolean decodeBoolean compare := by
  apply Exact.ofPayload (fun b => ⟨[if b then 1 else 0], rfl⟩) booleanValue
  · intro b
    rfl
  · intro code
    rfl
  · rintro ⟨bytes, hl⟩ b
    obtain ⟨byte, rfl⟩ := List.length_eq_one_iff.mp hl
    rw [Subtype.mk.injEq, List.singleton_inj]
    constructor
    · intro h
      unfold booleanValue at h
      split at h
      · rename_i heq
        cases h
        exact (List.singleton_inj.mp heq).symm
      · rename_i heq
        cases h
        exact (List.singleton_inj.mp heq).symm
      · cases h
    · rintro rfl
      cases b <;> rfl
  · decide

theorem exact_unsigned (width : Nat) :
    Exact unsignedTag "unsigned" width (fun n : Unsigned width => encodeUnsigned width n.val)
      (decodeUnsigned width) fun a b => compare a.val b.val := by
  apply Exact.ofPayload (fun n => Payload.ofNat width n.val)
    (fun bytes => .ok ⟨Bytes.ofBigEndian bytes.val, bytes.number_lt⟩)
  · intro n
    rfl
  · intro code
    rfl
  · intro bytes n
    rw [Payload.ofNat_eq_iff n.property, Except.ok.injEq, Subtype.ext_iff]
  · intro a b
    exact Bytes.compare_bigEndian a.property b.property

/-- A signed integer is moved up by the weight of the sign bit. -/
theorem toNat_flip {width : Nat} (hw : SignedWord.Width width) (i : Signed width) :
    (SignedWord.flip width i.val).toNat < Bytes.modulus width ∧
      ((SignedWord.flip width i.val).toNat : Int) = i.val + SignedWord.signWeight width := by
  have hs := SignedWord.double_signWeight hw.1
  obtain ⟨hlow, hhigh⟩ := i.property
  rw [SignedWord.toNat_flip hw, Int.emod_eq_of_lt (by omega) (by omega)]
  omega

def signedValue {width : Nat} (hw : SignedWord.Width width) (bytes : Payload width) :
    Signed width :=
  ⟨SignedWord.unflip width (UInt64.ofNat (Bytes.ofBigEndian bytes.val)), by
    have hb := bytes.number_lt
    have hs := SignedWord.double_signWeight hw.1
    rw [SignedWord.unflip_eq hw hb]
    omega⟩

theorem exact_signed {width : Nat} (hw : SignedWord.Width width) :
    Exact signedTag "signed" width (fun i : Signed width => encodeSigned width i.val)
      (decodeSigned width hw) fun a b => compare a.val b.val := by
  apply Exact.ofPayload (fun i => Payload.ofNat width (SignedWord.flip width i.val).toNat)
    (fun bytes => .ok (signedValue hw bytes))
  · intro i
    rfl
  · intro code
    rfl
  · intro bytes i
    obtain ⟨hlt, heq⟩ := toNat_flip hw i
    have hvalue : (signedValue hw bytes).val =
        Bytes.ofBigEndian bytes.val - SignedWord.signWeight width :=
      SignedWord.unflip_eq hw bytes.number_lt
    rw [Payload.ofNat_eq_iff hlt, Except.ok.injEq, Subtype.ext_iff, hvalue]
    omega
  · intro a b
    obtain ⟨hlt, heq⟩ := toNat_flip hw a
    obtain ⟨hlt', heq'⟩ := toNat_flip hw b
    show compare (Bytes.bigEndian width _) (Bytes.bigEndian width _) = _
    rw [Bytes.compare_bigEndian hlt hlt']
    exact compare_congr (by omega) (by omega)

theorem char_lt (c : Char) : c.toNat < Bytes.modulus 4 := Bytes.word32_lt c.val

theorem exact_char : Exact charTag "char" 4 encodeChar decodeChar compare := by
  apply Exact.ofPayload (fun c => Payload.ofNat 4 c.toNat)
    (fun bytes => if (Bytes.ofBigEndian bytes.val).isValidChar then
      .ok (Char.ofNat (Bytes.ofBigEndian bytes.val)) else .error .badChar)
  · intro c
    rfl
  · intro code
    rfl
  · intro bytes c
    rw [Payload.ofNat_eq_iff (char_lt c)]
    constructor
    · intro h
      split at h
      · rename_i hv
        rw [← Except.ok.inj h, Char.ofNat, dif_pos hv]
        rfl
      · cases h
    · intro h
      have hv : c.toNat.isValidChar := c.valid
      rw [h, if_pos hv, Char.ofNat_toNat]
  · intro a b
    show compare (Bytes.bigEndian 4 _) (Bytes.bigEndian 4 _) = _
    rw [Bytes.compare_bigEndian (char_lt a) (char_lt b)]
    exact compare_congr Iff.rfl Char.toNat_inj

theorem decodeChar_invalid {n : Nat} (hn : n < Bytes.modulus 4) (hv : ¬ n.isValidChar) :
    decodeChar (charTag :: Bytes.bigEndian 4 n) = .error .badChar := by
  have hnumber : Bytes.ofBigEndian (Bytes.bigEndian 4 n) = n := by
    rw [Bytes.ofBigEndian_bigEndian, Nat.mod_eq_of_lt hn]
  have hp : payload charTag "char" 4 (charTag :: Bytes.bigEndian 4 n) = .ok (Payload.ofNat 4 n) :=
    payload_cons (Payload.ofNat 4 n)
  simp only [decodeChar, hp, bind, Except.bind, Payload.ofNat, hnumber, if_neg hv]

theorem exact_fixedBytes (width : Nat) :
    Exact fixedBytesTag "fixed bytes" width
      (fun bytes : Payload width => encodeFixedBytes bytes.val)
      (decodeFixedBytes width) fun a b => compare a.val b.val := by
  apply Exact.ofPayload (fun bytes => bytes) Except.ok
  · intro bytes
    rfl
  · intro code
    rw [decodeFixedBytes]
    cases payload fixedBytesTag "fixed bytes" width code <;> rfl
  · intro bytes a
    rw [Except.ok.injEq, eq_comm]
  · intro a b
    rfl

end KeyCode

namespace KeyType

def tag : KeyType → UInt8
  | bool => KeyCode.booleanTag
  | char => KeyCode.charTag
  | unsigned _ => KeyCode.unsignedTag
  | signed _ => KeyCode.signedTag
  | bytes _ => KeyCode.fixedBytesTag

def label : KeyType → String
  | bool => "boolean"
  | char => "char"
  | unsigned _ => "unsigned"
  | signed _ => "signed"
  | bytes _ => "fixed bytes"

def payloadWidth : KeyType → Nat
  | bool => 1
  | char => 4
  | unsigned width | signed width => width.bytes
  | bytes length => length

def order : (type : KeyType) → type.Value → type.Value → Ordering
  | bool, a, b => compare (α := Bool) a b
  | char, a, b => compare (α := Char) a b
  | unsigned _, a, b => compare (Subtype.val a) (Subtype.val b)
  | signed _, a, b => compare (Subtype.val a) (Subtype.val b)
  | bytes _, a, b => compare (Subtype.val a) (Subtype.val b)

/-- The codes of every type are exact. -/
theorem exact (type : KeyType) :
    KeyCode.Exact type.tag type.label type.payloadWidth type.encode type.decode type.order := by
  cases type with
  | bool => exact KeyCode.exact_boolean
  | char => exact KeyCode.exact_char
  | unsigned width => exact KeyCode.exact_unsigned width.bytes
  | signed width => exact KeyCode.exact_signed width.fits
  | bytes length => exact KeyCode.exact_fixedBytes length

end KeyType

/-- Every key type and every integer width has exact codes in the order of the values. A boolean
byte above one and a number that is no character are refused too. -/
theorem codes_exact :
    (∀ type : KeyType,
      KeyCode.Exact type.tag type.label type.payloadWidth type.encode type.decode type.order) ∧
    (∀ width,
      KeyCode.Exact KeyCode.unsignedTag "unsigned" width
        (fun n : KeyCode.Unsigned width => KeyCode.encodeUnsigned width n.val)
        (KeyCode.decodeUnsigned width) fun a b => compare a.val b.val) ∧
    (∀ width (hw : 0 < width ∧ width ≤ 8),
      KeyCode.Exact KeyCode.signedTag "signed" width
        (fun i : KeyCode.Signed width => KeyCode.encodeSigned width i.val)
        (KeyCode.decodeSigned width hw) fun a b => compare a.val b.val) ∧
    (∀ byte, 1 < byte →
      KeyType.bool.decode [KeyCode.booleanTag, byte] = .error .badBoolean) ∧
    ∀ n, n < Bytes.modulus 4 → ¬ n.isValidChar →
      KeyType.char.decode (KeyCode.charTag :: Bytes.bigEndian 4 n) = .error .badChar := by
  refine ⟨KeyType.exact, KeyCode.exact_unsigned, ?_, ?_, ?_⟩
  · intro width hw
    exact KeyCode.exact_signed hw
  · intro byte hb
    exact KeyCode.decodeBoolean_above hb
  · intro n hn hv
    exact KeyCode.decodeChar_invalid hn hv

/-- The least and the greatest integer of three bytes, and two codes that no value has. -/
theorem codes_exact_three_bytes :
    KeyCode.decodeSigned 3 (by decide) (KeyCode.encodeSigned 3 (-8388608)) = .ok ⟨-8388608, by decide⟩ ∧
      compare (KeyCode.encodeSigned 3 (-8388608)) (KeyCode.encodeSigned 3 8388607) = .lt ∧
      KeyType.bool.decode [KeyCode.booleanTag, 2] = .error .badBoolean ∧
      KeyType.char.decode (KeyCode.charTag :: Bytes.bigEndian 4 0xD800) = .error .badChar := by
  have hsigned := codes_exact.2.2.1 3 (by decide)
  have hcompare := hsigned.compare_eq ⟨-8388608, by decide⟩ ⟨8388607, by decide⟩
  refine ⟨hsigned.decode_encode ⟨-8388608, by decide⟩, ?_, ?_, ?_⟩
  · rw [hcompare]
    decide
  · exact codes_exact.2.2.2.1 2 (by decide)
  · exact codes_exact.2.2.2.2 0xD800 (by decide) (by decide)

end PredicateIndex
