import PredicateIndex.Proofs.KeyOrder

/-!
# Key codes

Values of a key type are told apart by their codes. A type that may be
registered has codes of the length that its layout states, and no layout that
may be registered states more than the limit; the layout of a longer type
counts too few bytes, but still too many for the limit.
-/

set_option autoImplicit false

namespace PredicateIndex

theorem KeyLayout.checkSize_ok {layout : KeyLayout} (h : layout.checkSize = .ok ()) :
    layout.encodedLength ≤ maxKeySize := by
  rw [checkSize] at h
  split at h
  · cases h
  · rename_i hl
    exact Nat.le_of_not_lt hl

theorem KeyLayout.encodedLength_le {layout : KeyLayout} (h : layout.validate = .ok ()) :
    layout.encodedLength ≤ maxKeySize := by
  cases layout with
  | boolean => decide
  | char => decide
  | fixedBytes width =>
    cases width with
    | zero => cases h
    | succ width => exact checkSize_ok h
  | unsigned width | signed width =>
    rw [validate] at h
    split at h
    · rename_i hw
      simp only [List.mem_cons, List.not_mem_nil, or_false] at hw
      rcases hw with rfl | rfl | rfl | rfl <;> decide
    · cases h

namespace KeyType

/-- Different values of a type have different codes. -/
theorem encode_eq_iff (type : KeyType) (a b : type.Value) :
    type.encode a = type.encode b ↔ a = b := type.exact.encode_inj a b

theorem width_layout {type : KeyType} (h : type.layout.validate = .ok ()) :
    type.layout.width = type.payloadWidth := by
  have hle := KeyLayout.encodedLength_le h
  cases type with
  | bytes length =>
    have hm : maxKeySize = 256 := rfl
    rw [KeyLayout.encodedLength] at hle
    show min length 65535 = length
    change min length 65535 + 1 ≤ maxKeySize at hle
    omega
  | _ => rfl

theorem length_encode {type : KeyType} (h : type.layout.validate = .ok ()) (value : type.Value) :
    (type.encode value).length = type.layout.encodedLength := by
  rw [type.exact.length_encode, KeyLayout.encodedLength, width_layout h]

theorem length_encode_le {type : KeyType} (h : type.layout.validate = .ok ()) (value : type.Value) :
    (type.encode value).length ≤ maxKeySize := by
  rw [length_encode h]
  exact KeyLayout.encodedLength_le h

end KeyType

end PredicateIndex
