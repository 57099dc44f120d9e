/-!
# Looking up entries of a list of pairs

The first entry for a key counts. Leaving out entries by their key hides just
the keys that are left out.
-/

set_option autoImplicit false

namespace PredicateIndex

namespace Lookup

variable {α β : Type} [BEq α] [LawfulBEq α] [DecidableEq α]

theorem cons_eq (entry : α × β) (rest : List (α × β)) (key : α) :
    (entry :: rest).lookup key = if key = entry.1 then some entry.2 else rest.lookup key := by
  by_cases h : key = entry.1
  · rw [if_pos h, h, List.lookup_cons_self]
  · have hb : (key == entry.1) = false := by simpa using h
    rw [if_neg h, List.lookup_cons, hb]

theorem filter_eq (entries : List (α × β)) (keep : α → Bool) (key : α) :
    (entries.filter fun entry => keep entry.1).lookup key =
      if keep key then entries.lookup key else none := by
  induction entries with
  | nil => simp
  | cons entry rest ih =>
    by_cases hk : keep entry.1
    · simp only [List.filter_cons, hk, if_true, cons_eq, ih]
      by_cases h : key = entry.1
      · simp [h, hk]
      · rw [if_neg h, if_neg h]
    · simp only [List.filter_cons, hk, Bool.false_eq_true, if_false, cons_eq, ih]
      by_cases h : key = entry.1
      · simp [h, hk]
      · rw [if_neg h]

theorem mem_of_eq_some {entries : List (α × β)} {key : α} {value : β}
    (h : entries.lookup key = some value) : (key, value) ∈ entries := by
  induction entries with
  | nil => simp at h
  | cons entry rest ih =>
    rw [cons_eq] at h
    split at h
    · rename_i hk
      obtain rfl := Option.some.inj h
      rw [hk]
      exact List.mem_cons_self
    · exact List.mem_cons_of_mem entry (ih h)

theorem isSome_of_mem {entries : List (α × β)} {key : α} {value : β}
    (h : (key, value) ∈ entries) : (entries.lookup key).isSome := by
  induction entries with
  | nil => simp at h
  | cons entry rest ih =>
    rw [cons_eq]
    split
    · rfl
    · rename_i hk
      rcases List.mem_cons.mp h with rfl | h
      · exact (hk rfl).elim
      · exact ih h

end Lookup

end PredicateIndex
