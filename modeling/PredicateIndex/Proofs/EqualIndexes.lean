import PredicateIndex.Proofs.AppendedRecords
import PredicateIndex.Proofs.ManagerAnswers

/-!
# Logs that stand for one index

The records of two logs can come in different orders, at other addresses and in
other numbers. If they are on the same chains and stand for the same index, all
chains read alike, and so managers with such logs answer all queries alike. What
writes make of an index is told by the last one for each id on each chain: so it
does not matter if they are carried out again, or which writes for other ids
come between them.
-/

set_option autoImplicit false

namespace PredicateIndex

variable {D : Type}

namespace IndexWrite

def verdict (writes : List IndexWrite) (chain : Bytes) (id : RecordId) : Option Bool :=
  (writes.reverse.find? fun write => chain ∈ write.key.chains ∧ write.id = id).map
    fun write => !write.tombstone

theorem markAll_eq (writes : List IndexWrite) (index : Index) (chain : Bytes) (id : RecordId) :
    markAll writes index chain id = (verdict writes chain id).getD (index chain id) := by
  induction writes generalizing index with
  | nil => rfl
  | cons write rest ih =>
    have hrest : markAll (write :: rest) index = markAll rest (write.mark index) := rfl
    rw [hrest, ih, verdict, verdict, List.reverse_cons, List.find?_append]
    cases rest.reverse.find? fun write => chain ∈ write.key.chains ∧ write.id = id with
    | some last => rfl
    | none =>
      rw [mark, Option.none_or, List.find?_singleton]
      by_cases h : chain ∈ write.key.chains ∧ write.id = id <;> simp [h]

theorem markAll_append (front back : List IndexWrite) (index : Index) :
    markAll (front ++ back) index = markAll back (markAll front index) := List.foldl_append

theorem markAll_again (writes : List IndexWrite) (index : Index) :
    markAll writes (markAll writes index) = markAll writes index := by
  funext chain id
  rw [markAll_eq, markAll_eq]
  cases verdict writes chain id <;> rfl

/-- Nor does it matter how often they are repeated. -/
theorem markAll_repeated (count : Nat) (writes : List IndexWrite) (index : Index) :
    markAll ((List.replicate count writes).flatten ++ writes) index = markAll writes index := by
  induction count generalizing index with
  | zero => rfl
  | succ count ih =>
    rw [List.replicate_succ, List.flatten_cons, List.append_assoc, markAll_append, ih,
      markAll_again]

theorem verdict_filter (writes : List IndexWrite) (chain : Bytes) (id : RecordId) :
    verdict (writes.filter fun write => write.id = id) chain id = verdict writes chain id := by
  rw [verdict, verdict, ← List.filter_reverse, List.find?_filter]
  congr 2
  funext write
  by_cases h : write.id = id <;> simp [h]

/-- Only the order of writes for the same id matters. -/
theorem markAll_congr {writes others : List IndexWrite}
    (h : ∀ id, (others.filter fun write => write.id = id) = writes.filter fun write => write.id = id)
    (index : Index) : markAll others index = markAll writes index := by
  funext chain id
  rw [markAll_eq, markAll_eq, ← verdict_filter others, h, verdict_filter]

end IndexWrite

namespace Store

variable {store after : Store} {place opened : Path} {disk other : Disk}
  {history others : List LogRecord}

theorem readChain_cancelled (store : Store) (ordinal : UInt8) (key : Bytes) (disk : Disk)
    (dead : DeadRecords) : (store.readChain ordinal key true disk dead).1 =
      .ok (if store.heads.head (chainKey ordinal key) = noAddress then some [] else none) := by
  rw [readChain, acquire]
  dsimp only
  rw [walk.eq_def]
  simp only [if_true]
  split <;> rfl

theorem Keeps.head_eq_noAddress_iff (h : store.Keeps disk place history) (hf : store.log.Fits)
    (chain : Bytes) : store.heads.head chain = noAddress ↔
      ¬ ∃ record ∈ history, chain ∈ record.key.chains := by
  rw [h.heads, ChainHeads.head, lookup_headsOf]
  cases hl : (onChain chain (Log.addressed Log.origin history)).getLast? with
  | none =>
    have hnone := List.getLast?_eq_none_iff.mp hl
    refine iff_of_true rfl ?_
    rintro ⟨record, hm, hc⟩
    rw [← Log.map_addressed Log.origin history] at hm
    obtain ⟨entry, he, rfl⟩ := List.mem_map.mp hm
    have hon : entry ∈ onChain chain (Log.addressed Log.origin history) :=
      List.mem_filter.mpr ⟨he, decide_eq_true hc⟩
    rw [hnone] at hon
    cases hon
  | some entry =>
    obtain ⟨he, hc⟩ := List.mem_filter.mp (List.mem_of_getLast? hl)
    have hbounds := Log.addressed_bounds he
    have htail := h.tail_eq
    have hfits := hf.tail
    have hlength := entry.2.encodedLength_ge
    refine iff_of_false (fun hz => ?_) fun hn =>
      hn ⟨entry.2, Log.mem_of_addressed he, of_decide_eq_true hc⟩
    have hnat := congrArg UInt64.toNat hz
    rw [Option.map_some, Option.getD_some, UInt64.toNat_ofNat_of_lt' (by omega)] at hnat
    have horigin : Log.origin = 64 := rfl
    have hno : noAddress.toNat = 0 := rfl
    omega

structure SameIndex (history others : List LogRecord) : Prop where
  index : indexOf others = indexOf history
  chains : ∀ chain, (∃ record ∈ others, chain ∈ record.key.chains) ↔
    ∃ record ∈ history, chain ∈ record.key.chains

/-- Two stores with such logs read alike. -/
theorem SameIndex.readChain (hsame : SameIndex history others)
    (h : store.Keeps disk place history) (ha : after.Keeps other opened others)
    (hf : store.log.Fits) (hfa : after.log.Fits) (ho : ∀ record ∈ history, record.key.Ordered)
    (hoa : ∀ record ∈ others, record.key.Ordered) (ordinal : UInt8) (key : Bytes)
    (cancelled : Bool) (dead : DeadRecords) :
    (after.readChain ordinal key cancelled other dead).1 =
      (store.readChain ordinal key cancelled disk dead).1 := by
  cases cancelled with
  | true =>
    rw [readChain_cancelled, readChain_cancelled]
    simp only [h.head_eq_noAddress_iff hf, ha.head_eq_noAddress_iff hfa, hsame.chains]
  | false =>
    obtain ⟨ids, hread, hascending, hids⟩ := h.readChain_indexOf hf ho ordinal key dead
    obtain ⟨found, hfound, hafter, hmem⟩ := ha.readChain_indexOf hfa hoa ordinal key dead
    have hequal : found = ids := hafter.ext hascending fun id => by
      rw [hmem, hids, hsame.index]
    rw [hread, hfound, hequal]

end Store

structure Group.SameReads (group : Group D) (disk : Disk) (changed : Group D) (other : Disk) :
    Prop where
  id : changed.id = group.id
  predicates : changed.predicates = group.predicates
  reads : ∀ ordinal key cancelled dead, (changed.readChain ordinal key cancelled other dead).1 =
    (group.readChain ordinal key cancelled disk dead).1

theorem Group.Appends.sameReads {group first second : Group D} {place : Path}
    {disk other final : Disk} {writes others : List IndexWrite} (hl : group.Legible place disk)
    (h : group.Appends place disk writes first other)
    (hs : group.Appends place disk others second final)
    (hmarks : ∀ index, IndexWrite.markAll others index = IndexWrite.markAll writes index)
    (hchains : ∀ chain, (∃ write ∈ others, chain ∈ write.key.chains) ↔
      ∃ write ∈ writes, chain ∈ write.key.chains)
    (hf : first.store.log.Fits) (hfs : second.store.log.Fits) :
    first.SameReads other second final := by
  obtain ⟨history, hk, ho⟩ := hl.records
  obtain ⟨added, hadded, htold, hordered⟩ := h.records history hk
  obtain ⟨more, hmore, hsaid, hlater⟩ := hs.records history hk
  have hsame : Store.SameIndex (history ++ added) (history ++ more) := by
    refine ⟨?_, fun chain => ?_⟩
    · rw [Store.indexOf_append history hsaid, Store.indexOf_append history htold, hmarks]
    · have hfirst := Store.exists_record_iff htold fun _ _ chains => chain ∈ chains
      have hsecond := Store.exists_record_iff hsaid fun _ _ chains => chain ∈ chains
      simp only [List.mem_append, or_and_right, exists_or]
      exact or_congr_right (hsecond.trans ((hchains chain).trans hfirst.symm))
  exact ⟨hs.id.trans h.id.symm, hs.predicates.trans h.predicates.symm,
    fun ordinal key cancelled dead => hsame.readChain hadded hmore hf hfs (hordered ho) (hlater ho)
      ordinal key cancelled dead⟩

namespace Manager

variable {manager after : Manager D} {disk other : Disk}

theorem find?_pair {pairs : Group D → Group D → Prop}
    (hid : ∀ group changed, pairs group changed → changed.id = group.id)
    {groups others : List (Group D)} (h : List.Forall₂ pairs groups others) (id : Nat) :
    (groups.find? (fun group => group.id = id) = none ∧
      others.find? (fun group => group.id = id) = none) ∨
    ∃ group changed, groups.find? (fun group => group.id = id) = some group ∧
      others.find? (fun group => group.id = id) = some changed ∧ pairs group changed := by
  induction h with
  | nil => exact .inl ⟨rfl, rfl⟩
  | @cons group changed _ _ hfirst _ ih =>
    rw [List.find?_cons, List.find?_cons, hid group changed hfirst]
    by_cases he : group.id = id
    · simp only [he, decide_true]
      exact .inr ⟨group, changed, rfl, rfl, hfirst⟩
    · simp only [he, decide_false]
      exact ih

theorem answersAlike_of_groups
    (h : List.Forall₂ (fun group changed => group.SameReads disk changed other) manager.groups
      after.groups) : manager.AnswersAlike disk after other := by
  have hfind := find?_pair (fun _ _ hpair => hpair.id) h
  constructor
  · intro id
    rcases hfind id with ⟨hg, hc⟩ | ⟨group, changed, hg, hc, hpair⟩
    · rw [hg, hc]
    · rw [hg, hc, Option.map_some, Option.map_some, Group.names, Group.names, hpair.predicates]
  · intro source key cancelled
    rw [Manager.readChain, Manager.readChain]
    rcases hfind source.group with ⟨hg, hc⟩ | ⟨group, changed, hg, hc, hpair⟩
    · rw [hg, hc]
    · rw [hg, hc]
      exact hpair.reads source.ordinal key cancelled []

end Manager

end PredicateIndex
