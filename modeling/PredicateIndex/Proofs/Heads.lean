import PredicateIndex.Store.Recovery
import PredicateIndex.Proofs.Lookup
import PredicateIndex.Proofs.RecordCodec

/-!
# Heads as a function of the log

Relinking looks only at the chains a composite key is on, so the heads are a
replay of the records. The list of heads stays in strictly ascending order,
which makes a snapshot its own restoration.

As a whole the heads are an ordered map. An entry that is set is found under its
chain and hides no other one (`lookup_set`); the entries ascend by their chains,
each of them once (`ascending_set`), and are the ones that are found
(`mem_iff_lookup`). No other list of entries does the same (`set_unique`).
-/

set_option autoImplicit false

namespace PredicateIndex

def CompositeKey.chains (key : CompositeKey) : List Bytes := key.filterMap Slot.chain?

namespace CompositeKey

theorem chains_map {key : CompositeKey} {f : Slot → Slot}
    (h : ∀ slot, (f slot).chain? = slot.chain?) :
    chains (key.map f) = chains key := by
  rw [chains, chains, List.filterMap_map]
  congr 1
  funext slot
  exact h slot

theorem mem_chains {key : CompositeKey} {chain : Bytes} :
    chain ∈ key.chains ↔ ∃ slot ∈ key, slot.chain? = some chain := List.mem_filterMap

theorem chains_stored (record : LogRecord) : record.stored.key.chains = record.key.chains :=
  chains_map fun _ => rfl

theorem chains_link (heads : ChainHeads) (key : CompositeKey) :
    (Store.link heads key).chains = key.chains := by
  apply chains_map
  intro slot
  cases hc : slot.chain? with
  | none => exact hc
  | some chain => exact hc

end CompositeKey

namespace ChainHeads

def Ascending (heads : ChainHeads) : Prop := heads.Pairwise fun a b => a.1 < b.1

theorem lookup_set (heads : ChainHeads) (chain other : Bytes) (address : UInt64) :
    (set chain address heads).lookup other =
      if other = chain then some address else heads.lookup other := by
  induction heads with
  | nil => rw [set, Lookup.cons_eq]
  | cons entry rest ih =>
    rw [set]
    split
    · rename_i h
      rw [Lookup.cons_eq, Lookup.cons_eq, h]
      split <;> rfl
    · rename_i h
      split
      · rw [Lookup.cons_eq]
      · rw [Lookup.cons_eq, Lookup.cons_eq, ih]
        split
        · rename_i ho
          rw [if_neg fun hc : other = chain => h (hc ▸ ho)]
        · rfl

theorem mem_set {heads : ChainHeads} {chain : Bytes} {address : UInt64} {entry : Bytes × UInt64}
    (h : entry ∈ set chain address heads) : entry = (chain, address) ∨ entry ∈ heads := by
  induction heads with
  | nil => simpa [set] using h
  | cons first rest ih =>
    rw [set] at h
    split at h
    · rcases List.mem_cons.mp h with rfl | h
      · exact Or.inl rfl
      · exact Or.inr (List.mem_cons_of_mem first h)
    · split at h
      · exact List.mem_cons.mp h
      · rcases List.mem_cons.mp h with rfl | h
        · exact Or.inr List.mem_cons_self
        · exact (ih h).imp_right (List.mem_cons_of_mem first)

theorem ascending_set {heads : ChainHeads} (chain : Bytes) (address : UInt64)
    (h : heads.Ascending) : (set chain address heads).Ascending := by
  induction heads with
  | nil => exact List.pairwise_singleton _ _
  | cons entry rest ih =>
    obtain ⟨hentry, hrest⟩ := List.pairwise_cons.mp h
    rw [set]
    split
    · rename_i he
      exact List.pairwise_cons.mpr ⟨fun e hm => he ▸ hentry e hm, hrest⟩
    · rename_i hne
      split
      · rename_i hlt
        refine List.pairwise_cons.mpr ⟨fun e hm => ?_, h⟩
        rcases List.mem_cons.mp hm with rfl | hm
        · exact hlt
        · exact List.lt_trans hlt (hentry e hm)
      · rename_i hlt
        refine List.pairwise_cons.mpr ⟨fun e hm => ?_, ih hrest⟩
        rcases mem_set hm with rfl | hm
        · exact Std.lt_of_le_of_ne (List.not_lt.mp hlt) (Ne.symm hne)
        · exact hentry e hm

theorem mem_iff_lookup {heads : ChainHeads} (h : heads.Ascending) {chain : Bytes}
    {address : UInt64} : (chain, address) ∈ heads ↔ heads.lookup chain = some address := by
  induction heads with
  | nil => simp
  | cons entry rest ih =>
    obtain ⟨hentry, hrest⟩ := List.pairwise_cons.mp h
    rw [List.mem_cons, Lookup.cons_eq, ih hrest]
    split
    · rename_i hc
      have hnone : rest.lookup chain ≠ some address := fun hl => by
        have hlt := hentry _ (Lookup.mem_of_eq_some hl)
        rw [hc] at hlt
        exact List.lt_irrefl _ hlt
      rw [or_iff_left hnone, Prod.ext_iff, Option.some.injEq]
      exact ⟨fun he => he.2.symm, fun he => ⟨hc, he.symm⟩⟩
    · rename_i hne
      exact or_iff_right fun he => hne (congrArg Prod.fst he)

theorem Ascending.ext {heads others : ChainHeads} (h : heads.Ascending) (ho : others.Ascending)
    (hl : ∀ chain, heads.lookup chain = others.lookup chain) : heads = others := by
  have hnodup : ∀ {heads : ChainHeads}, heads.Ascending → heads.Nodup := by
    intro heads h
    refine List.nodup_iff_pairwise_ne.mpr (h.imp ?_)
    rintro entry _ hlt rfl
    exact List.lt_irrefl entry.1 hlt
  have hmem : ∀ entry, entry ∈ heads ↔ entry ∈ others := fun entry => by
    rw [mem_iff_lookup h, mem_iff_lookup ho, hl]
  exact ((List.perm_ext_iff_of_nodup (hnodup h) (hnodup ho)).mpr hmem).eq_of_pairwise
    (fun a _ _ _ hab hba => (List.lt_irrefl a.1 (List.lt_trans hab hba)).elim) h ho

/-- Setting an entry of an ordered map leaves no choice of what comes out. -/
theorem set_unique {heads others : ChainHeads} (h : heads.Ascending) (ho : others.Ascending)
    {chain : Bytes} {address : UInt64} (hl : ∀ other, others.lookup other =
      if other = chain then some address else heads.lookup other) :
    others = set chain address heads :=
  ho.ext (ascending_set chain address h) fun other => by rw [hl, lookup_set]

theorem set_above {heads : ChainHeads} {chain : Bytes} (address : UInt64)
    (h : ∀ entry ∈ heads, entry.1 < chain) : set chain address heads = heads ++ [(chain, address)] := by
  induction heads with
  | nil => rfl
  | cons entry rest ih =>
    have he := h entry List.mem_cons_self
    have hne : chain ≠ entry.1 := fun hc => List.lt_irrefl chain (hc ▸ he)
    have hlt : ¬ chain < entry.1 := fun hc => List.lt_irrefl chain (List.lt_trans hc he)
    rw [set, if_neg hne, if_neg hlt, ih fun e hm => h e (List.mem_cons_of_mem entry hm)]
    rfl

theorem setAll_append (front rest : ChainHeads) (h : Ascending (front ++ rest)) :
    setAll front rest = front ++ rest := by
  induction rest generalizing front with
  | nil => rw [List.append_nil]; rfl
  | cons entry rest ih =>
    have hf : ∀ e ∈ front, e.1 < entry.1 := fun e he =>
      (List.pairwise_append.mp h).2.2 e he entry List.mem_cons_self
    have hs := set_above entry.2 hf
    show setAll (set entry.1 entry.2 front) rest = _
    rw [hs, ih, List.append_assoc, List.singleton_append]
    rwa [List.append_assoc, List.singleton_append]

theorem restore_ascending {heads : ChainHeads} (h : heads.Ascending) : restore heads = heads :=
  setAll_append [] heads h

end ChainHeads

namespace Store

theorem relink_eq (address : UInt64) (key : CompositeKey) (heads : ChainHeads) :
    relink address key heads =
      key.chains.foldl (fun heads chain => heads.set chain address) heads := by
  induction key generalizing heads with
  | nil => rfl
  | cons slot key ih =>
    rw [relink, List.foldl_cons, CompositeKey.chains, List.filterMap_cons]
    cases slot.chain? with
    | none => exact ih heads
    | some chain => exact ih (heads.set chain address)

theorem relink_congr {key other : CompositeKey} (h : key.chains = other.chains) (address : UInt64)
    (heads : ChainHeads) : relink address key heads = relink address other heads := by
  rw [relink_eq, relink_eq, h]

theorem lookup_relink (address : UInt64) (key : CompositeKey) (heads : ChainHeads) (chain : Bytes) :
    (relink address key heads).lookup chain =
      if chain ∈ key.chains then some address else heads.lookup chain := by
  rw [relink_eq]
  induction key.chains generalizing heads with
  | nil => simp
  | cons first rest ih =>
    rw [List.foldl_cons, ih, ChainHeads.lookup_set]
    by_cases hr : chain ∈ rest <;> by_cases hf : chain = first <;> simp [hr, hf]

theorem ascending_relink (address : UInt64) (key : CompositeKey) {heads : ChainHeads}
    (h : heads.Ascending) : (relink address key heads).Ascending := by
  rw [relink_eq]
  induction key.chains generalizing heads with
  | nil => exact h
  | cons chain rest ih => exact ih (ChainHeads.ascending_set chain address h)

theorem replay_append (front back : List (Nat × LogRecord)) (heads : ChainHeads) :
    replay (front ++ back) heads = replay back (replay front heads) := List.foldl_append

theorem replay_snoc (front : List (Nat × LogRecord)) (entry : Nat × LogRecord)
    (heads : ChainHeads) :
    replay (front ++ [entry]) heads =
      relink (UInt64.ofNat entry.1) entry.2.key (replay front heads) := by
  rw [replay_append]
  rfl

theorem ascending_replay (entries : List (Nat × LogRecord)) {heads : ChainHeads}
    (h : heads.Ascending) : (replay entries heads).Ascending := by
  induction entries generalizing heads with
  | nil => exact h
  | cons entry entries ih => exact ih (ascending_relink _ _ h)

end Store

end PredicateIndex
