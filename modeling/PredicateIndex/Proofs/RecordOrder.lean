import PredicateIndex.RecordId

/-!
# Ascending lists of record ids

Record ids are totally ordered. Inserting into a strictly ascending list keeps
it one and adds just the id. Merging lists gives a permutation of all of them,
which nowhere descends if the lists ascend, so that equal ids stand side by side
and leaving out repetitions makes it strictly ascending.
-/

set_option autoImplicit false

namespace PredicateIndex

namespace RecordId

theorem lt_def (a b : RecordId) :
    a < b ↔ a.address < b.address ∨ (a.address = b.address ∧ a.version < b.version) := Iff.rfl

theorem lt_irrefl (a : RecordId) : ¬ a < a := by
  rw [lt_def]
  rintro (h | ⟨-, h⟩)
  · exact UInt64.lt_irrefl _ h
  · exact UInt32.lt_irrefl _ h

theorem lt_trans {a b c : RecordId} (h : a < b) (ho : b < c) : a < c := by
  rw [lt_def] at *
  rcases h with h | ⟨h, hv⟩ <;> rcases ho with ho | ⟨ho, hw⟩
  · exact Or.inl (UInt64.lt_trans h ho)
  · exact Or.inl (ho ▸ h)
  · exact Or.inl (h ▸ ho)
  · exact Or.inr ⟨h.trans ho, UInt32.lt_trans hv hw⟩

theorem lt_of_not_lt_of_ne {a b : RecordId} (h : ¬ a < b) (hne : a ≠ b) : b < a := by
  obtain ⟨x, v⟩ := a
  obtain ⟨y, w⟩ := b
  simp only [lt_def, not_or, not_and, ne_eq, mk.injEq] at *
  simp only [UInt64.lt_iff_toNat_lt, UInt32.lt_iff_toNat_lt, ← UInt64.toNat_inj,
    ← UInt32.toNat_inj] at *
  omega

theorem lt_of_lt_of_not_lt {a b c : RecordId} (h : a < b) (hn : ¬ c < b) : a < c := by
  by_cases he : b = c
  · exact he ▸ h
  · exact lt_trans h (lt_of_not_lt_of_ne hn fun hc => he hc.symm)

/-- Each id stands before all later ones, so the list has no repetitions. -/
def Ascending (ids : List RecordId) : Prop := ids.Pairwise (· < ·)

theorem mem_insert {id other : RecordId} {ids : List RecordId} :
    other ∈ insert id ids ↔ other = id ∨ other ∈ ids := by
  induction ids with
  | nil => simp [insert]
  | cons first rest ih =>
    rw [insert]
    split
    · exact List.mem_cons
    · split
      · rename_i h
        simp [h]
      · rw [List.mem_cons, ih, List.mem_cons, or_left_comm]

theorem ascending_insert (id : RecordId) {ids : List RecordId} (h : Ascending ids) :
    Ascending (insert id ids) := by
  induction ids with
  | nil => exact List.pairwise_singleton _ _
  | cons first rest ih =>
    obtain ⟨hf, hr⟩ := List.pairwise_cons.mp h
    rw [insert]
    split
    · rename_i hlt
      refine List.pairwise_cons.mpr ⟨fun other ho => ?_, h⟩
      rcases List.mem_cons.mp ho with rfl | ho
      · exact hlt
      · exact lt_trans hlt (hf other ho)
    · split
      · exact h
      · rename_i hlt hne
        refine List.pairwise_cons.mpr ⟨fun other ho => ?_, ih hr⟩
        rcases mem_insert.mp ho with rfl | ho
        · exact lt_of_not_lt_of_ne hlt hne
        · exact hf other ho

theorem Ascending.nodup {ids : List RecordId} (h : Ascending ids) : ids.Nodup := by
  refine List.nodup_iff_pairwise_ne.mpr (h.imp ?_)
  rintro id _ hlt rfl
  exact lt_irrefl id hlt

theorem Ascending.ext {ids others : List RecordId} (h : Ascending ids) (ho : Ascending others)
    (hm : ∀ id, id ∈ ids ↔ id ∈ others) : ids = others :=
  ((List.perm_ext_iff_of_nodup h.nodup ho.nodup).mpr hm).eq_of_pairwise
    (fun a _ _ _ hab hba => (lt_irrefl a (lt_trans hab hba)).elim) h ho

section

variable {front rest : List RecordId} {last : RecordId}

theorem Ascending.cut (h : Ascending (front ++ last :: rest)) : Ascending (front ++ [last]) :=
  h.sublist ((List.cons_sublist_cons.mpr (List.nil_sublist rest)).append_left front)

theorem Ascending.le_cut (h : Ascending (front ++ last :: rest)) {id : RecordId}
    (hid : id ∈ front ++ [last]) : id = last ∨ id < last := by
  rcases List.mem_append.mp hid with hid | hid
  · exact Or.inr ((List.pairwise_append.mp h).2.2 id hid last List.mem_cons_self)
  · exact Or.inl (List.mem_singleton.mp hid)

theorem Ascending.mem_cut (h : Ascending (front ++ last :: rest)) {id : RecordId}
    (hid : id ∈ front ++ last :: rest) : id ∈ front ++ [last] ∨ last < id := by
  rw [List.append_cons] at hid
  rcases List.mem_append.mp hid with hid | hid
  · exact Or.inl hid
  · exact Or.inr ((List.pairwise_cons.mp (List.pairwise_append.mp h).2.1).1 id hid)

end

theorem merge_eq (ids others : List RecordId) :
    merge ids others = ids.merge others fun a b => !decide (b < a) := by
  induction ids generalizing others with
  | nil => rw [List.nil_merge, merge]
  | cons id rest ih =>
    rw [merge]
    induction others with
    | nil => rw [weave, ih, List.merge_right, List.merge_right]
    | cons other others iho =>
      rw [weave, List.cons_merge_cons]
      by_cases h : other < id
      · rw [if_pos h, iho]
        simp [h]
      · rw [if_neg h, ih]
        simp [h]

/-- Merging loses nothing and adds nothing. -/
theorem perm_mergeAll (lists : List (List RecordId)) : (mergeAll lists).Perm lists.flatten := by
  induction lists with
  | nil => exact List.Perm.nil
  | cons ids rest ih =>
    rw [mergeAll, List.foldr_cons, merge_eq, ← mergeAll, List.flatten_cons]
    exact (List.merge_perm_append _).trans (ih.append_left ids)

theorem mem_mergeAll {id : RecordId} {lists : List (List RecordId)} :
    id ∈ mergeAll lists ↔ ∃ ids ∈ lists, id ∈ ids :=
  (perm_mergeAll lists).mem_iff.trans List.mem_flatten

/-- Lists that ascend are merged into one that nowhere descends. -/
theorem sorted_mergeAll {lists : List (List RecordId)} (h : ∀ ids ∈ lists, Ascending ids) :
    (mergeAll lists).Pairwise fun a b => ¬ b < a := by
  induction lists with
  | nil => exact List.Pairwise.nil
  | cons ids rest ih =>
    have hids : ids.Pairwise fun a b => (!decide (b < a)) = true :=
      (h ids List.mem_cons_self).imp fun hlt => by
        simpa using fun hgt => lt_irrefl _ (lt_trans hlt hgt)
    have hrest := ih fun others ho => h others (List.mem_cons_of_mem ids ho)
    rw [mergeAll, List.foldr_cons, merge_eq, ← mergeAll]
    refine (List.pairwise_merge ?_ ?_ ids _ hids (hrest.imp fun hlt => by simpa using hlt)).imp
      fun hle => by simpa using hle
    · intro a b c hab hbc
      simp only [Bool.not_eq_eq_eq_not, Bool.not_true, decide_eq_false_iff_not] at *
      exact fun hca => hbc (lt_of_lt_of_not_lt hca hab)
    · intro a b
      simp only [Bool.or_eq_true, Bool.not_eq_eq_eq_not, Bool.not_true, decide_eq_false_iff_not]
      exact Decidable.not_and_iff_or_not.mp fun hlt => lt_irrefl a (lt_trans hlt.2 hlt.1)

theorem mem_dedup {id : RecordId} {ids : List RecordId} : id ∈ dedup ids ↔ id ∈ ids := by
  induction ids using dedup.induct with
  | case1 => rfl
  | case2 => rfl
  | case3 first rest ih => rw [dedup, if_pos rfl, ih, List.mem_cons (b := first)]; simp
  | case4 first second rest hne ih =>
    rw [dedup, if_neg hne, List.mem_cons, ih, List.mem_cons (b := first)]

theorem ascending_dedup {ids : List RecordId} (h : ids.Pairwise fun a b => ¬ b < a) :
    Ascending (dedup ids) := by
  induction ids using dedup.induct with
  | case1 => exact List.Pairwise.nil
  | case2 => exact List.pairwise_singleton _ _
  | case3 first rest ih =>
    rw [dedup, if_pos rfl]
    exact ih (List.pairwise_cons.mp h).2
  | case4 first second rest hne ih =>
    obtain ⟨hfirst, hrest⟩ := List.pairwise_cons.mp h
    rw [dedup, if_neg hne]
    have hless : first < second :=
      lt_of_not_lt_of_ne (hfirst second List.mem_cons_self) fun he => hne he.symm
    refine List.pairwise_cons.mpr ⟨fun id hid => ?_, ih hrest⟩
    rcases List.mem_cons.mp (mem_dedup.mp hid) with rfl | hid
    · exact hless
    · exact lt_of_lt_of_not_lt hless ((List.pairwise_cons.mp hrest).1 id hid)

end RecordId

end PredicateIndex
