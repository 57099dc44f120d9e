import PredicateIndex.Proofs.StoreRun

/-!
# Commit points

The commit points of a store stand in ascending order of the session ids, so
those that a checkpoint holds are restored as they were.
-/

set_option autoImplicit false

namespace PredicateIndex

namespace CommitPoints

def Ascending (points : CommitPoints) : Prop := points.Pairwise fun a b => a.1 < b.1

theorem mem_record {points : CommitPoints} {id serial : UInt64} {point : UInt64 × UInt64}
    (h : point ∈ record id serial points) : point = (id, serial) ∨ point ∈ points := by
  induction points with
  | nil => simpa [record] using h
  | cons first rest ih =>
    rw [record] at h
    split at h
    · rcases List.mem_cons.mp h with rfl | h
      · exact Or.inl rfl
      · exact Or.inr (List.mem_cons_of_mem first h)
    · split at h
      · exact List.mem_cons.mp h
      · rcases List.mem_cons.mp h with rfl | h
        · exact Or.inr List.mem_cons_self
        · exact (ih h).imp_right (List.mem_cons_of_mem first)

theorem ascending_record {points : CommitPoints} (h : points.Ascending) (id serial : UInt64) :
    (record id serial points).Ascending := by
  induction points with
  | nil => exact List.pairwise_singleton _ _
  | cons first rest ih =>
    obtain ⟨hfirst, hrest⟩ := List.pairwise_cons.mp h
    rw [record]
    by_cases he : id = first.1
    · rw [if_pos he]
      apply List.pairwise_cons.mpr
      exact ⟨fun point hm => he ▸ hfirst point hm, hrest⟩
    · rw [if_neg he]
      by_cases hl : id < first.1
      · rw [if_pos hl]
        apply List.pairwise_cons.mpr
        refine ⟨fun point hm => ?_, h⟩
        rcases List.mem_cons.mp hm with rfl | hm
        · exact hl
        · exact UInt64.lt_trans hl (hfirst point hm)
      · rw [if_neg hl]
        apply List.pairwise_cons.mpr
        refine ⟨fun point hm => ?_, ih hrest⟩
        rcases mem_record hm with rfl | hm
        · exact Std.lt_of_le_of_ne (UInt64.not_lt.mp hl) (Ne.symm he)
        · exact hfirst point hm

theorem record_above {points : CommitPoints} {id : UInt64} (serial : UInt64)
    (h : ∀ point ∈ points, point.1 < id) : record id serial points = points ++ [(id, serial)] := by
  induction points with
  | nil => rfl
  | cons first rest ih =>
    have hfirst := h first List.mem_cons_self
    have hne : id ≠ first.1 := by
      rintro rfl
      exact UInt64.lt_irrefl _ hfirst
    have hlt : ¬ id < first.1 := UInt64.not_lt.mpr (UInt64.le_of_lt hfirst)
    rw [record, if_neg hne, if_neg hlt, ih fun point hm => h point (List.mem_cons_of_mem first hm)]
    rfl

theorem ofList_ascending {points : CommitPoints} (h : points.Ascending) :
    ofList points = points := by
  have hfold : ∀ rest known : CommitPoints, Ascending (known ++ rest) →
      rest.foldl (fun known point => record point.1 point.2 known) known = known ++ rest := by
    intro rest
    induction rest with
    | nil => simp
    | cons point rest ih =>
      intro known ha
      have hbelow : ∀ other ∈ known, other.1 < point.1 := by
        intro other hm
        exact (List.pairwise_append.mp ha).2.2 other hm point List.mem_cons_self
      rw [List.foldl_cons, record_above point.2 hbelow, ih]
      · simp
      · simpa using ha
  exact hfold points [] h

end CommitPoints

namespace Store

/-- Only giving a session back records a commit point. -/
theorem ascending_step {store : Store} (h : store.sessions.commitPoints.Ascending) (op : Op)
    (disk : Disk) : (step op (store, disk)).1.sessions.commitPoints.Ascending := by
  have hacquire : store.sessions.acquire.2.commitPoints.Ascending := by
    rw [SessionPool.acquire]
    split <;> exact h
  have hd := does_step op store disk
  generalize step op (store, disk) = after at hd ⊢
  cases hd with
  | written =>
    rw [evictIfFull]
    split <;> exact h
  | acquire => exact hacquire
  | release => exact CommitPoints.ascending_record h _ _
  | readChain => exact CommitPoints.ascending_record hacquire _ _
  | complete =>
    obtain ⟨log, captured, last, -, hsame⟩ := complete_same store disk
    rw [hsame]
    exact h
  | _ => exact h

theorem ascending_run {ops : List Op} {store : Store} {disk : Disk}
    (h : store.sessions.commitPoints.Ascending) :
    (run ops (store, disk)).1.sessions.commitPoints.Ascending := by
  induction ops generalizing store disk with
  | nil => exact h
  | cons op ops ih => exact ih (ascending_step h op disk)

end Store

end PredicateIndex
