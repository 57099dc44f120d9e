import PredicateIndex.Proofs.Places
import PredicateIndex.Token

/-!
# Tokens as names of directories

The text of a token is read back as the token, so the directories of different
checkpoints have different names. The newest of some tokens is their greatest.
-/

set_option autoImplicit false

namespace PredicateIndex

namespace Hex

theorem digit?_digit {n : Nat} (h : n < 16) : digit? (digit n) = some n := by
  have hall : ∀ i : Fin 16, digit? (digit i.val) = some i.val := by decide
  exact hall ⟨n, h⟩

theorem length_digits (width n : Nat) : (digits width n).length = width := by
  induction width generalizing n with
  | zero => rfl
  | succ width ih => simp [digits, ih]

theorem mem_digits {width n : Nat} {c : Char} (h : c ∈ digits width n) :
    ∃ d < 16, c = digit d := by
  induction width generalizing n with
  | zero => simp [digits] at h
  | succ width ih =>
    rw [digits, List.mem_append, List.mem_singleton] at h
    rcases h with h | rfl
    · exact ih h
    · exact ⟨n % 16, Nat.mod_lt _ (by omega), rfl⟩

def count : Nat → Nat
  | 0 => 1
  | width + 1 => count width * 16

theorem value?_digits (width n : Nat) : value? (digits width n) = some (n % count width) := by
  rw [value?]
  induction width generalizing n with
  | zero => simp [digits, count, Nat.mod_one]
  | succ width ih =>
    have hd := digit?_digit (Nat.mod_lt n (show 0 < 16 by omega))
    have hm : 16 * (n / 16 % count width) + n % 16 = n % count (width + 1) := by
      rw [count, Nat.mul_comm (count width), Nat.mod_mul, Nat.add_comm]
    rw [digits, List.foldlM_append, ih]
    simp [hd, hm]

end Hex

namespace Token

theorem toList_text (token : Token) : token.text.toList = Hex.digits 16 token.value.toNat := by
  rw [text, Hex.ofNat, String.toList_ofList]

theorem value?_text (token : Token) : Hex.value? token.text.toList = some token.value.toNat := by
  rw [toList_text, Hex.value?_digits]
  exact congrArg some (Nat.mod_eq_of_lt token.value.toNat_lt)

theorem ofDirName?_text (token : Token) : ofDirName? token.text = some token := by
  have hv := value?_text token
  have hl : token.text.toList.length = 16 := by rw [toList_text, Hex.length_digits]
  have hsign : ∀ c ∈ token.text.toList, c ≠ '+' := by
    intro c hc
    rw [toList_text] at hc
    obtain ⟨d, hd, rfl⟩ := Hex.mem_digits hc
    have hall : ∀ i : Fin 16, Hex.digit i.val ≠ '+' := by decide
    exact hall ⟨d, hd⟩
  rw [ofDirName?]
  cases hc : token.text.toList with
  | nil => simp [hc] at hl
  | cons c cs =>
    have hu : unsigned (c :: cs) = c :: cs := by
      have hc : c ≠ '+' := hsign c (by simp [hc])
      rw [unsigned]
      rintro rest hr
      exact hc (List.cons.inj hr).1
    rw [hc] at hv
    simp [hu, hv, token.value.toNat_lt]

theorem text_injective {token other : Token} (h : token.text = other.text) : token = other := by
  have hr := congrArg ofDirName? h
  rw [ofDirName?_text, ofDirName?_text] at hr
  exact Option.some.inj hr

theorem plain_text (token : Token) : Path.Plain token.text := by
  have hl : token.text.toList.length = 16 := by rw [toList_text, Hex.length_digits]
  refine ⟨?_, ?_, ?_⟩ <;>
  · intro h
    rw [h] at hl
    cases hl

/-- A name that is read as a token leads to a place of its own. -/
theorem plain_of_ofDirName? {name : String} {token : Token} (h : ofDirName? name = some token) :
    Path.Plain name := by
  refine ⟨?_, ?_, ?_⟩ <;>
  · rintro rfl
    cases h

theorem newest?_eq_none (tokens : List Token) : newest? tokens = none ↔ tokens = [] := by
  cases tokens with
  | nil => simp [newest?]
  | cons token rest =>
    rw [newest?]
    cases newest? rest with
    | none => simp
    | some other =>
      dsimp only
      split <;> simp

theorem newest?_spec {tokens : List Token} {token : Token} (h : newest? tokens = some token) :
    token ∈ tokens ∧ ∀ other ∈ tokens, other.value ≤ token.value := by
  induction tokens generalizing token with
  | nil => cases h
  | cons first rest ih =>
    rw [newest?] at h
    cases hr : newest? rest with
    | none =>
      rw [hr] at h
      obtain rfl := Option.some.inj h
      obtain rfl := (newest?_eq_none rest).mp hr
      simp
    | some other =>
      obtain ⟨hm, ha⟩ := ih hr
      rw [hr] at h
      dsimp only at h
      split at h
      · rename_i hlt
        obtain rfl := Option.some.inj h
        refine ⟨List.mem_cons_of_mem first hm, fun t ht => ?_⟩
        rcases List.mem_cons.mp ht with rfl | ht
        · exact UInt64.le_of_lt hlt
        · exact ha t ht
      · rename_i hlt
        obtain rfl := Option.some.inj h
        refine ⟨List.mem_cons_self, fun t ht => ?_⟩
        rcases List.mem_cons.mp ht with rfl | ht
        · exact UInt64.le_refl _
        · exact UInt64.le_trans (ha t ht) (UInt64.not_lt.mp hlt)

theorem newest?_eq {tokens : List Token} {token : Token} (hm : token ∈ tokens)
    (ha : ∀ other ∈ tokens, other.value ≤ token.value) : newest? tokens = some token := by
  cases hn : newest? tokens with
  | none =>
    rw [newest?_eq_none] at hn
    simp [hn] at hm
  | some found =>
    obtain ⟨hf, hl⟩ := newest?_spec hn
    have hv := UInt64.le_antisymm (ha found hf) (hl token hm)
    cases found
    cases token
    exact congrArg (fun value => some (Token.mk value)) hv

end Token

end PredicateIndex
