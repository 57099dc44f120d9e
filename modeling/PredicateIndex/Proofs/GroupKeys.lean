import PredicateIndex.Group
import PredicateIndex.Proofs.ChainReads

/-!
# What an update writes

A composite key of a group puts a record on at most one chain for each ordinal.
An index tells for every chain the ids that it holds; writes change it one
after another, and the writes of an update take the old id off the chains that
are left and put the new one on those that are joined.
-/

set_option autoImplicit false

namespace PredicateIndex

namespace CompositeKey

theorem getElem?_ofOutputsFrom (n : Nat) (outputs : List (Option Bytes)) (i : Nat) :
    (ofOutputsFrom n outputs)[i]? =
      outputs[i]?.map fun output => { ordinal := UInt8.ofNat (n + i), key := output } := by
  induction outputs generalizing n i with
  | nil => rfl
  | cons output rest ih =>
    cases i with
    | zero => rfl
    | succ i =>
      rw [ofOutputsFrom, List.getElem?_cons_succ, List.getElem?_cons_succ, ih, Nat.add_right_comm,
        Nat.add_assoc]

theorem length_ofOutputs (outputs : List (Option Bytes)) :
    (ofOutputs outputs).length = outputs.length := by
  rw [ofOutputs]
  generalize 0 = n
  induction outputs generalizing n with
  | nil => rfl
  | cons output rest ih => rw [ofOutputsFrom, List.length_cons, ih, List.length_cons]

theorem getElem?_ofOutputs (outputs : List (Option Bytes)) (i : Nat) :
    (ofOutputs outputs)[i]? =
      outputs[i]?.map fun output => { ordinal := UInt8.ofNat i, key := output } := by
  rw [ofOutputs, getElem?_ofOutputsFrom, Nat.zero_add]

theorem ordered_ofOutputs (outputs : List (Option Bytes)) : (ofOutputs outputs).Ordered := by
  intro i slot hs
  rw [getElem?_ofOutputs, Option.map_eq_some_iff] at hs
  obtain ⟨output, -, rfl⟩ := hs
  rfl

def Fresh (key : CompositeKey) : Prop :=
  ∀ slot ∈ key, slot.unlinksOld = false ∧ slot.linksNew = false

theorem fresh_ofOutputs (outputs : List (Option Bytes)) : (ofOutputs outputs).Fresh := by
  intro slot hs
  obtain ⟨i, hi⟩ := List.mem_iff_getElem?.mp hs
  rw [getElem?_ofOutputs, Option.map_eq_some_iff] at hi
  obtain ⟨output, -, rfl⟩ := hi
  exact ⟨rfl, rfl⟩

theorem fits_ofOutputs {outputs : List (Option Bytes)} (hl : outputs.length ≤ 255)
    (hk : ∀ code, some code ∈ outputs → code.length < 65536) : (ofOutputs outputs).Fits := by
  refine ⟨by rwa [length_ofOutputs], fun slot hs => ?_⟩
  obtain ⟨i, hi⟩ := List.mem_iff_getElem?.mp hs
  rw [getElem?_ofOutputs, Option.map_eq_some_iff] at hi
  obtain ⟨output, ho, rfl⟩ := hi
  cases output with
  | none => exact Nat.zero_lt_succ _
  | some code => exact hk code (List.mem_of_getElem? ho)

theorem fits_map {key : CompositeKey} (h : key.Fits) {f : Slot → Slot}
    (hf : ∀ slot, (f slot).key = slot.key ∨ (f slot).key = none) : Fits (key.map f) := by
  refine ⟨?_, fun slot hs => ?_⟩
  · rw [List.length_map]
    exact h.1
  · obtain ⟨original, ho, rfl⟩ := List.mem_map.mp hs
    rcases hf original with hk | hk
    · rw [hk]
      exact h.2 original ho
    · rw [hk]
      exact Nat.zero_lt_succ _

theorem fits_retain {key : CompositeKey} (h : key.Fits) (keep : Slot → Bool) :
    (key.retain keep).Fits := by
  apply fits_map h
  intro slot
  show (if keep slot then slot.key else none) = slot.key ∨ _
  split
  · exact Or.inl rfl
  · rename_i hk
    exact Or.inr (by simp [Slot.copy, hk])

def keyAt? (key : CompositeKey) (ordinal : UInt8) : Option Bytes :=
  (key.slot? ordinal).bind Slot.key

theorem mem_chains_keyAt? {key : CompositeKey} (h : key.Ordered) (hl : key.length ≤ 255)
    (ordinal : UInt8) (name : Bytes) :
    chainKey ordinal name ∈ key.chains ↔ key.keyAt? ordinal = some name := by
  rw [mem_chains_iff h hl, keyAt?, Option.bind_eq_some_iff]

theorem nil_not_mem_chains (key : CompositeKey) : [] ∉ key.chains := by
  intro h
  obtain ⟨slot, -, hc⟩ := mem_chains.mp h
  obtain ⟨name, -, hn⟩ := Option.map_eq_some_iff.mp hc
  cases hn

theorem chains_of_unmatched {key : CompositeKey} (h : key.anyMatch = false) : key.chains = [] := by
  rw [chains, List.filterMap_eq_nil_iff]
  intro slot hs
  have hn := List.any_eq_false.mp h slot hs
  rw [Slot.chain?, Option.map_eq_none_iff]
  simpa [Slot.isNull] using hn

theorem getElem?_markChanges (before after : CompositeKey) (i : Nat) :
    (markChanges before after)[i]? = after[i]?.map fun new =>
      match before[i]? with
      | some old =>
        if old.key = new.key then new
        else { new with unlinksOld := !old.isNull, linksNew := !new.isNull }
      | none => new := by
  induction before generalizing after i with
  | nil => cases after <;> simp [markChanges]
  | cons old olds ih =>
    cases after with
    | nil => simp [markChanges]
    | cons new news =>
      cases i with
      | zero => rfl
      | succ i =>
        rw [markChanges, List.getElem?_cons_succ, ih]
        rfl

theorem length_markChanges (before after : CompositeKey) :
    (markChanges before after).length = after.length := by
  induction before generalizing after with
  | nil => cases after <;> rfl
  | cons old olds ih =>
    cases after with
    | nil => rfl
    | cons new news => rw [markChanges, List.length_cons, ih, List.length_cons]

theorem fits_markChanges (before : CompositeKey) {after : CompositeKey} (h : after.Fits) :
    (markChanges before after).Fits := by
  refine ⟨by rw [length_markChanges]; exact h.1, fun slot hs => ?_⟩
  obtain ⟨i, hi⟩ := List.mem_iff_getElem?.mp hs
  rw [getElem?_markChanges, Option.map_eq_some_iff] at hi
  obtain ⟨new, hn, rfl⟩ := hi
  have hk := h.2 new (List.mem_of_getElem? hn)
  split
  · split <;> exact hk
  · exact hk

theorem ordered_markChanges {before after : CompositeKey} (h : after.Ordered) :
    (markChanges before after).Ordered := by
  intro i slot hs
  rw [getElem?_markChanges, Option.map_eq_some_iff] at hs
  obtain ⟨new, hn, rfl⟩ := hs
  have ho := h i new hn
  split
  · split <;> exact ho
  · exact ho

theorem keyAt?_markChanges (before after : CompositeKey) (ordinal : UInt8) :
    (markChanges before after).keyAt? ordinal = after.keyAt? ordinal := by
  rw [keyAt?, keyAt?, slot?, slot?, getElem?_markChanges, Option.bind_map]
  congr 1
  funext new
  cases before[ordinal.toNat]? with
  | none => rfl
  | some old =>
    show Slot.key (if old.key = new.key then new else _) = new.key
    split <;> rfl

theorem ordered_retain {key : CompositeKey} (h : key.Ordered) (keep : Slot → Bool) :
    (key.retain keep).Ordered := ordered_map h fun _ => rfl

theorem keyAt?_retain (key : CompositeKey) (keep : Slot → Bool) (ordinal : UInt8) :
    (key.retain keep).keyAt? ordinal =
      (key.slot? ordinal).bind fun slot => if keep slot then slot.key else none := by
  rw [keyAt?, slot?, retain, List.getElem?_map, Option.bind_map]
  rfl

theorem anyMatch_eq_false_iff {key : CompositeKey} :
    key.anyMatch = false ↔ ∀ slot ∈ key, slot.key = none := by
  rw [anyMatch, List.any_eq_false]
  refine forall₂_congr fun slot _ => ?_
  simp [Slot.isNull]

theorem anyMatch_retain {key : CompositeKey} (h : key.anyMatch = false) (keep : Slot → Bool) :
    (key.retain keep).anyMatch = false := by
  rw [anyMatch_eq_false_iff] at h ⊢
  intro slot hs
  obtain ⟨source, hm, rfl⟩ := List.mem_map.mp hs
  simp [Slot.copy, h source hm]

theorem anyMatch_markChanges (before after : CompositeKey) :
    (before.markChanges after).anyMatch = after.anyMatch := by
  induction before generalizing after with
  | nil => cases after <;> rfl
  | cons old olds ih =>
    cases after with
    | nil => rfl
    | cons new news =>
      have hnew : (if old.key = new.key then new
          else { new with unlinksOld := !old.isNull, linksNew := !new.isNull }).isNull =
            new.isNull := by
        split <;> rfl
      have hrest : List.any (markChanges olds news) _ = List.any news _ := ih news
      rw [markChanges, anyMatch, anyMatch, List.any_cons, List.any_cons, hnew, hrest]

theorem keyAt?_of_unchanged {before after : CompositeKey} (hl : before.length = after.length)
    (h : before.changed after = false) (ordinal : UInt8) :
    before.keyAt? ordinal = after.keyAt? ordinal := by
  rw [keyAt?, keyAt?, slot?, slot?]
  generalize ordinal.toNat = i
  induction before generalizing after i with
  | nil =>
    cases after with
    | nil => rfl
    | cons => cases hl
  | cons old olds ih =>
    cases after with
    | nil => cases hl
    | cons new news =>
      simp only [changed, Bool.or_eq_false_iff, decide_eq_false_iff_not, Decidable.not_not] at h
      cases i with
      | zero => exact h.1
      | succ i => exact ih (Nat.succ.inj hl) h.2 i

end CompositeKey

abbrev Index := Bytes → RecordId → Bool

namespace IndexWrite

def mark (write : IndexWrite) (index : Index) : Index := fun chain id =>
  if chain ∈ write.key.chains ∧ write.id = id then !write.tombstone else index chain id

def markAll (writes : List IndexWrite) (index : Index) : Index :=
  writes.foldl (fun index write => write.mark index) index

def Fits (write : IndexWrite) : Prop := write.key.Fits ∧ write.key.Ordered

theorem mark_of_unmatched {write : IndexWrite} (h : write.key.anyMatch = false) (index : Index) :
    write.mark index = index := by
  funext chain id
  simp [mark, CompositeKey.chains_of_unmatched h]

theorem markAll_matching (writes : List IndexWrite) (index : Index) :
    markAll (UpdatePlan.matching writes) index = markAll writes index := by
  induction writes generalizing index with
  | nil => rfl
  | cons write rest ih =>
    rw [UpdatePlan.matching, List.filter_cons]
    split
    · exact ih (write.mark index)
    · rename_i h
      have hw : markAll (write :: rest) index = markAll rest index := by
        rw [markAll, List.foldl_cons, mark_of_unmatched (by simpa using h)]
        rfl
      rw [hw]
      exact ih index

end IndexWrite

def CompositeKey.DiffersAt (before after : CompositeKey) (ordinal : UInt8) : Prop :=
  ∃ old new, before.slot? ordinal = some old ∧ after.slot? ordinal = some new ∧ old.key ≠ new.key

namespace UpdatePlan

variable {before after : CompositeKey}

def left (before after : CompositeKey) : CompositeKey :=
  before.retain fun slot =>
    (((before.markChanges after).slot? slot.ordinal).map Slot.unlinksOld).getD false

def joined (before after : CompositeKey) : CompositeKey :=
  (before.markChanges after).retain Slot.linksNew

theorem slot?_markChanges {ordinal : UInt8} {old new : Slot} (ho : before.slot? ordinal = some old)
    (hn : after.slot? ordinal = some new) :
    (before.markChanges after).slot? ordinal = some (if old.key = new.key then new
      else { new with unlinksOld := !old.isNull, linksNew := !new.isNull }) := by
  rw [CompositeKey.slot?] at *
  rw [CompositeKey.getElem?_markChanges, ho, hn]
  rfl

theorem keyAt?_left_iff (hb : before.Ordered) (hf : after.Fresh) (ordinal : UInt8) (code : Bytes) :
    (left before after).keyAt? ordinal = some code ↔
      before.keyAt? ordinal = some code ∧ before.DiffersAt after ordinal := by
  rw [left, CompositeKey.keyAt?_retain, CompositeKey.keyAt?, CompositeKey.DiffersAt]
  cases ho : before.slot? ordinal with
  | none => simp
  | some old =>
    have hordinal : old.ordinal = ordinal := by
      have hp := hb _ _ ho
      rwa [UInt8.ofNat_toNat] at hp
    cases hn : after.slot? ordinal with
    | none =>
      have hm : (before.markChanges after).slot? ordinal = none := by
        rw [CompositeKey.slot?] at *
        rw [CompositeKey.getElem?_markChanges, hn]
        rfl
      simp [hordinal, hm]
    | some new =>
      have hfresh := hf new (List.mem_of_getElem? hn)
      simp only [hordinal, slot?_markChanges ho hn, Option.map_some, Option.getD_some,
        Option.bind_some]
      by_cases hk : old.key = new.key
      · simp [hk, hfresh.1]
      · cases hold : old.key with
        | none => simp
        | some found =>
          rw [hold] at hk
          simp [hk, Slot.isNull, hold]

theorem keyAt?_joined_iff (hf : after.Fresh) (ordinal : UInt8) (code : Bytes) :
    (joined before after).keyAt? ordinal = some code ↔
      after.keyAt? ordinal = some code ∧ before.DiffersAt after ordinal := by
  rw [joined, CompositeKey.keyAt?_retain, CompositeKey.keyAt?, CompositeKey.DiffersAt,
    CompositeKey.slot?, CompositeKey.getElem?_markChanges]
  cases hn : after[ordinal.toNat]? with
  | none => simp [CompositeKey.slot?, hn]
  | some new =>
    have hfresh := hf new (List.mem_of_getElem? hn)
    cases ho : before[ordinal.toNat]? with
    | none => simp [CompositeKey.slot?, ho, hn, hfresh.2]
    | some old =>
      by_cases hk : old.key = new.key
      · simp [CompositeKey.slot?, ho, hn, hk, hfresh.2]
      · cases hnew : new.key with
        | none =>
          rw [hnew] at hk
          simp [CompositeKey.slot?, ho, hn, hk, hnew]
        | some found =>
          rw [hnew] at hk
          simp [CompositeKey.slot?, ho, hn, hk, hnew, Slot.isNull]

theorem differsAt_iff (hl : before.length = after.length) (ordinal : UInt8) :
    before.DiffersAt after ordinal ↔ before.keyAt? ordinal ≠ after.keyAt? ordinal := by
  rw [CompositeKey.DiffersAt, CompositeKey.keyAt?, CompositeKey.keyAt?]
  cases ho : before.slot? ordinal with
  | none =>
    have hn : after.slot? ordinal = none := by
      rw [CompositeKey.slot?, List.getElem?_eq_none_iff] at ho ⊢
      exact hl ▸ ho
    simp [hn]
  | some old =>
    have hi : ordinal.toNat < after.length := hl ▸ (List.getElem?_eq_some_iff.mp ho).1
    obtain ⟨new, hn⟩ : ∃ new, after.slot? ordinal = some new := ⟨_, List.getElem?_eq_getElem hi⟩
    simp [hn]

theorem mem_chains_left (hb : before.Ordered) (ha : after.Ordered) (hf : after.Fresh)
    (hl : before.length = after.length) (hs : before.length ≤ 255) (chain : Bytes) :
    chain ∈ (left before after).chains ↔ chain ∈ before.chains ∧ chain ∉ after.chains := by
  have hleft : (left before after).Ordered := CompositeKey.ordered_retain hb _
  have hlength : (left before after).length ≤ 255 := by
    rw [left, CompositeKey.retain, List.length_map]
    exact hs
  cases chain with
  | nil => simp [CompositeKey.nil_not_mem_chains]
  | cons ordinal name =>
    show chainKey ordinal name ∈ (left before after).chains ↔
      chainKey ordinal name ∈ before.chains ∧ chainKey ordinal name ∉ after.chains
    rw [CompositeKey.mem_chains_keyAt? hleft hlength, CompositeKey.mem_chains_keyAt? hb hs,
      CompositeKey.mem_chains_keyAt? ha (hl ▸ hs), keyAt?_left_iff hb hf, differsAt_iff hl]
    exact and_congr_right fun ho => ho ▸ ne_comm

theorem mem_chains_joined (hb : before.Ordered) (ha : after.Ordered) (hf : after.Fresh)
    (hl : before.length = after.length) (hs : before.length ≤ 255) (chain : Bytes) :
    chain ∈ (joined before after).chains ↔ chain ∈ after.chains ∧ chain ∉ before.chains := by
  have hjoined : (joined before after).Ordered :=
    CompositeKey.ordered_retain (CompositeKey.ordered_markChanges ha) _
  have hlength : (joined before after).length ≤ 255 := by
    rw [joined, CompositeKey.retain, List.length_map, CompositeKey.length_markChanges, ← hl]
    exact hs
  cases chain with
  | nil => simp [CompositeKey.nil_not_mem_chains]
  | cons ordinal name =>
    show chainKey ordinal name ∈ (joined before after).chains ↔
      chainKey ordinal name ∈ after.chains ∧ chainKey ordinal name ∉ before.chains
    rw [CompositeKey.mem_chains_keyAt? hjoined hlength, CompositeKey.mem_chains_keyAt? hb hs,
      CompositeKey.mem_chains_keyAt? ha (hl ▸ hs), keyAt?_joined_iff hf, differsAt_iff hl]
    exact and_congr_right fun hn => hn ▸ Iff.rfl

theorem mem_chains_of_unchanged (hb : before.Ordered) (ha : after.Ordered)
    (hl : before.length = after.length) (hs : before.length ≤ 255)
    (hc : before.changed after = false) (chain : Bytes) :
    chain ∈ before.chains ↔ chain ∈ after.chains := by
  cases chain with
  | nil => simp [CompositeKey.nil_not_mem_chains]
  | cons ordinal name =>
    show chainKey ordinal name ∈ before.chains ↔ chainKey ordinal name ∈ after.chains
    rw [CompositeKey.mem_chains_keyAt? hb hs, CompositeKey.mem_chains_keyAt? ha (hl ▸ hs),
      CompositeKey.keyAt?_of_unchanged hl hc]

theorem fits_writes {kind : UpdateKind} {beforeId afterId : RecordId} {plan : UpdatePlan}
    (hb : before.Fits ∧ before.Ordered) (ha : after.Fits ∧ after.Ordered)
    (h : ofChange kind before after beforeId afterId = .ok plan) :
    ∀ write ∈ plan.writes, write.Fits := by
  have hmarked : (before.markChanges after).Fits ∧ (before.markChanges after).Ordered :=
    ⟨CompositeKey.fits_markChanges before ha.1, CompositeKey.ordered_markChanges ha.2⟩
  have hretain : ∀ {key : CompositeKey} (keep : Slot → Bool), key.Fits ∧ key.Ordered →
      (key.retain keep).Fits ∧ (key.retain keep).Ordered := fun keep hk =>
    ⟨CompositeKey.fits_retain hk.1 keep, CompositeKey.ordered_retain hk.2 keep⟩
  intro write hw
  cases kind with
  | inPlace =>
    obtain rfl := Except.ok.inj h
    rw [inPlace] at hw
    split at hw
    · have hm := (List.mem_filter.mp hw).1
      simp only [List.mem_cons, List.not_mem_nil, or_false] at hm
      rcases hm with rfl | rfl
      · exact hretain _ hb
      · exact hretain _ hmarked
    · cases hw
  | copy =>
    obtain rfl := Except.ok.inj h
    have hm := (List.mem_filter.mp hw).1
    simp only [List.mem_cons, List.not_mem_nil, or_false] at hm
    rcases hm with rfl | rfl
    · exact hb
    · exact hmarked
  | _ => cases h

/-- An update in place takes the id off the chains that only the old key is on and puts it on
those that only the new key is on. -/
theorem markAll_inPlace (hb : before.Ordered) (ha : after.Ordered) (hf : after.Fresh)
    (hl : before.length = after.length) (hs : before.length ≤ 255) (beforeId afterId : RecordId)
    (index : Index) (chain : Bytes) (id : RecordId) :
    IndexWrite.markAll (inPlace before after beforeId afterId).writes index chain id =
      if chain ∈ after.chains ∧ chain ∉ before.chains ∧ afterId = id then true
      else if chain ∈ before.chains ∧ chain ∉ after.chains ∧ beforeId = id then false
      else index chain id := by
  rw [inPlace]
  by_cases hc : before.changed after = true
  · have hw : IndexWrite.markAll (matching [⟨left before after, beforeId, true⟩,
        ⟨joined before after, afterId, false⟩]) index chain id =
        if chain ∈ (joined before after).chains ∧ afterId = id then true
        else if chain ∈ (left before after).chains ∧ beforeId = id then false
        else index chain id := by
      rw [IndexWrite.markAll_matching]
      rfl
    simp only [hc, if_true]
    refine hw.trans ?_
    simp only [mem_chains_left hb ha hf hl hs, mem_chains_joined hb ha hf hl hs, and_assoc]
  · have hsame := mem_chains_of_unchanged hb ha hl hs (by simpa using hc) chain
    simp only [hc, Bool.false_eq_true, if_false, hsame]
    rw [if_neg fun h => h.2.1 h.1, if_neg fun h => h.2.1 h.1]
    rfl

/-- A copying update takes the old id off all its chains and puts the new one on all of its own. -/
theorem markAll_copy (ha : after.Ordered) (hs : after.length ≤ 255) (beforeId afterId : RecordId)
    (index : Index) (chain : Bytes) (id : RecordId) :
    IndexWrite.markAll (copy before after beforeId afterId).writes index chain id =
      if chain ∈ after.chains ∧ afterId = id then true
      else if chain ∈ before.chains ∧ beforeId = id then false
      else index chain id := by
  have hmarked : chain ∈ (before.markChanges after).chains ↔ chain ∈ after.chains := by
    have hm : (before.markChanges after).Ordered := CompositeKey.ordered_markChanges ha
    have hl : (before.markChanges after).length ≤ 255 := by
      rwa [CompositeKey.length_markChanges]
    cases chain with
    | nil => simp [CompositeKey.nil_not_mem_chains]
    | cons ordinal name =>
      show chainKey ordinal name ∈ (before.markChanges after).chains ↔
        chainKey ordinal name ∈ after.chains
      rw [CompositeKey.mem_chains_keyAt? hm hl, CompositeKey.keyAt?_markChanges,
        CompositeKey.mem_chains_keyAt? ha hs]
  have hw : IndexWrite.markAll (copy before after beforeId afterId).writes index chain id =
      if chain ∈ (before.markChanges after).chains ∧ afterId = id then true
      else if chain ∈ before.chains ∧ beforeId = id then false
      else index chain id := by
    rw [copy, IndexWrite.markAll_matching]
    rfl
  rw [hw]
  simp only [hmarked]

theorem markAll_change (hb : before.Ordered) (ha : after.Ordered) (hf : after.Fresh)
    (hl : before.length = after.length) (hs : before.length ≤ 255) {beforeId afterId : RecordId}
    {plan : UpdatePlan} (hp : ofChange (if afterId = beforeId then .inPlace else .copy) before after
      beforeId afterId = .ok plan) {index : Index}
    (hold : ∀ chain, index chain beforeId = true ↔ chain ∈ before.chains)
    (hnew : afterId ≠ beforeId → ∀ chain, index chain afterId = false) (chain : Bytes)
    (id : RecordId) :
    IndexWrite.markAll plan.writes index chain id =
      if id = afterId then decide (chain ∈ after.chains)
      else if id = beforeId then false else index chain id := by
  have holdf : chain ∉ before.chains → index chain beforeId = false := fun hc =>
    Bool.eq_false_iff.mpr fun h => hc ((hold chain).mp h)
  by_cases hid : afterId = beforeId
  · subst hid
    rw [if_pos rfl] at hp
    obtain rfl := Except.ok.inj hp
    rw [markAll_inPlace hb ha hf hl hs]
    by_cases hi : id = afterId
    · subst hi
      by_cases hcb : chain ∈ before.chains <;> by_cases hca : chain ∈ after.chains
      · simp [hcb, hca, (hold chain).mpr hcb]
      · simp [hcb, hca]
      · simp [hcb, hca]
      · simp [hcb, hca, holdf hcb]
    · simp [hi, Ne.symm hi]
  · rw [if_neg hid] at hp
    obtain rfl := Except.ok.inj hp
    rw [markAll_copy ha (hl ▸ hs)]
    by_cases hi : id = afterId
    · subst hi
      by_cases hca : chain ∈ after.chains
      · simp [hca]
      · simp [hca, Ne.symm hid, hnew hid chain]
    · rw [if_neg fun h => hi h.2.symm, if_neg hi]
      by_cases hib : id = beforeId
      · subst hib
        by_cases hcb : chain ∈ before.chains
        · simp [hcb]
        · simp [hcb, holdf hcb]
      · rw [if_neg hib, if_neg fun h => hib h.2.symm]

end UpdatePlan

end PredicateIndex
