import PredicateIndex.Proofs.RecordOrder
import PredicateIndex.Query.Paging

/-!
# Merging streams

A join looks only at the fronts of its streams. Where the streams ascend, the
least front is the least id that is left, and a stream holds this id just if it
has it at its front. A join therefore goes through the ids of all its streams in
ascending order, each once, and gives those that match.
-/

set_option autoImplicit false

namespace PredicateIndex

namespace MergeJoin

open RecordId (Ascending)

variable {ω : Type}

structure Judges (calls : Callbacks ω) (judge : Indicators → Bool) (calm : ω → Prop) : Prop where
  matched : ∀ indicators world, calm world →
    (calls.matched indicators world).1 = judge indicators ∧ calm (calls.matched indicators world).2
  stopsAt : ∀ row column world, calm world →
    (calls.stopsAt row column world).1 = false ∧ calm (calls.stopsAt row column world).2
  isCancelled : ∀ world, calm world → calls.isCancelled world = false

def Occurs (id : RecordId) (streams : List (List (List RecordId))) : Prop :=
  ∃ row ∈ streams, ∃ stream ∈ row, id ∈ stream

def present (id : RecordId) (streams : List (List (List RecordId))) : Indicators :=
  streams.map fun row => row.map fun stream => decide (id ∈ stream)

def skip (id : RecordId) (stream : List RecordId) : List RecordId :=
  if stream.head? = some id then stream.tail else stream

def AllAscend (streams : List (List (List RecordId))) : Prop :=
  ∀ row ∈ streams, ∀ stream ∈ row, Ascending stream

/-! ## The least id -/

theorem lesser_cases (id : RecordId) (other : Option RecordId) :
    (lesser id other = id ∨ other = some (lesser id other)) ∧ ¬ id < lesser id other ∧
      ∀ found, other = some found → ¬ found < lesser id other := by
  cases other with
  | none => simp [lesser, RecordId.lt_irrefl]
  | some other =>
    rw [lesser]
    split
    · rename_i h
      refine ⟨Or.inr rfl, fun hc => RecordId.lt_irrefl _ (RecordId.lt_trans h hc), ?_⟩
      rintro found ⟨⟩
      exact RecordId.lt_irrefl _
    · rename_i h
      refine ⟨Or.inl rfl, RecordId.lt_irrefl _, ?_⟩
      rintro found ⟨⟩
      exact h

theorem least?_eq_none {streams : List (List RecordId)} (h : least? streams = none) :
    ∀ stream ∈ streams, stream = [] := by
  induction streams with
  | nil => simp
  | cons stream rest ih =>
    cases stream with
    | nil => simpa using ih h
    | cons id stream => cases h

theorem least?_eq_some {streams : List (List RecordId)} {id : RecordId}
    (h : least? streams = some id) : (∃ stream ∈ streams, stream.head? = some id) ∧
      ∀ stream ∈ streams, ∀ front, stream.head? = some front → ¬ front < id := by
  induction streams generalizing id with
  | nil => cases h
  | cons stream rest ih =>
    cases stream with
    | nil => simpa using ih h
    | cons first stream =>
      obtain rfl := Option.some.inj h
      obtain ⟨hfrom, hfirst, hother⟩ := lesser_cases first (least? rest)
      constructor
      · rcases hfrom with he | he
        · exact ⟨first :: stream, List.mem_cons_self, by rw [he]; rfl⟩
        · obtain ⟨found, hf, hh⟩ := (ih he).1
          exact ⟨found, List.mem_cons_of_mem _ hf, hh⟩
      · intro found hf front hfront
        rcases List.mem_cons.mp hf with rfl | hf
        · obtain rfl := Option.some.inj hfront
          exact hfirst
        · cases hl : least? rest with
          | none =>
            rw [least?_eq_none hl found hf] at hfront
            cases hfront
          | some least =>
            have hle := (ih hl).2 found hf front hfront
            have hlt := hother least hl
            rw [hl] at hlt
            intro hc
            by_cases he : front = least
            · exact hlt (he ▸ hc)
            · exact hlt (RecordId.lt_trans (RecordId.lt_of_not_lt_of_ne hle he) hc)

theorem not_lt_of_head? {stream : List RecordId} (ha : Ascending stream) {id : RecordId}
    (h : ∀ front, stream.head? = some front → ¬ front < id) : ∀ x ∈ stream, ¬ x < id := by
  cases stream with
  | nil => simp
  | cons front rest =>
    have hfront := h front rfl
    intro x hx hlt
    rcases List.mem_cons.mp hx with rfl | hx
    · exact hfront hlt
    · exact hfront (RecordId.lt_trans ((List.pairwise_cons.mp ha).1 x hx) hlt)

/-! ## Streams behind their least id -/

section Skip

variable {stream : List RecordId} {id : RecordId}

theorem head?_eq_iff_mem (ha : Ascending stream) (hl : ∀ x ∈ stream, ¬ x < id) :
    stream.head? = some id ↔ id ∈ stream := by
  cases stream with
  | nil => simp
  | cons front rest =>
    have hfront := hl front List.mem_cons_self
    simp only [List.head?_cons, Option.some.injEq, List.mem_cons]
    constructor
    · exact fun h => Or.inl h.symm
    · rintro (rfl | h)
      · rfl
      · exact (hfront ((List.pairwise_cons.mp ha).1 id h)).elim

theorem mem_skip (ha : Ascending stream) (hl : ∀ x ∈ stream, ¬ x < id) (x : RecordId) :
    x ∈ skip id stream ↔ x ∈ stream ∧ x ≠ id := by
  have hhead := head?_eq_iff_mem ha hl
  rw [skip]
  split
  · rename_i h
    cases stream with
    | nil => cases h
    | cons front rest =>
      obtain rfl := Option.some.inj h
      have hne : ∀ y ∈ rest, y ≠ front := by
        rintro y hy rfl
        exact RecordId.lt_irrefl y ((List.pairwise_cons.mp ha).1 y hy)
      simp only [List.tail_cons, List.mem_cons]
      constructor
      · exact fun hx => ⟨Or.inr hx, hne x hx⟩
      · exact fun hx => hx.1.resolve_left hx.2
  · rename_i h
    constructor
    · rintro hx
      refine ⟨hx, ?_⟩
      rintro rfl
      exact h (hhead.mpr hx)
    · exact And.left

theorem ascending_skip (ha : Ascending stream) (id : RecordId) : Ascending (skip id stream) := by
  rw [skip]
  split
  · exact List.Pairwise.tail ha
  · exact ha

theorem length_skip_le (id : RecordId) (stream : List RecordId) :
    (skip id stream).length ≤ stream.length := by
  rw [skip]
  split
  · simp
  · exact Nat.le_refl _

end Skip

theorem length_skip_lt {streams : List (List RecordId)} {id : RecordId}
    (h : ∃ stream ∈ streams, stream.head? = some id) :
    (streams.map (skip id)).flatten.length < streams.flatten.length := by
  have hle : ∀ streams : List (List RecordId),
      (streams.map (skip id)).flatten.length ≤ streams.flatten.length := by
    intro streams
    induction streams with
    | nil => simp
    | cons stream rest ih =>
      have hs := length_skip_le id stream
      simp only [List.map_cons, List.flatten_cons, List.length_append]
      omega
  induction streams with
  | nil => simp at h
  | cons stream rest ih =>
    simp only [List.map_cons, List.flatten_cons, List.length_append]
    by_cases hs : stream.head? = some id
    · have hlt : (skip id stream).length < stream.length := by
        cases stream with
        | nil => cases hs
        | cons front rest => simp [skip, hs]
      have hrest := hle rest
      omega
    · obtain ⟨found, hf, hh⟩ := h
      rcases List.mem_cons.mp hf with rfl | hf
      · exact (hs hh).elim
      · have hlt := ih ⟨found, hf, hh⟩
        have hs := length_skip_le id stream
        omega

/-- What is left of some streams behind an id: the greater ids, in the streams that held them. -/
structure Behind (id : RecordId) (streams rest : List (List (List RecordId))) : Prop where
  ascend : AllAscend rest
  occurs : ∀ x, Occurs x rest ↔ Occurs x streams ∧ id < x
  present : ∀ x, id < x → present x rest = present x streams

section Candidate

variable {streams : List (List (List RecordId))} {id : RecordId}

theorem occurs_iff_flatten : Occurs id streams ↔ ∃ stream ∈ streams.flatten, id ∈ stream := by
  simp only [Occurs, List.mem_flatten]
  grind

theorem not_occurs_of_candidate? (h : candidate? streams = none) (id : RecordId) :
    ¬ Occurs id streams := by
  rw [occurs_iff_flatten]
  rintro ⟨stream, hs, hm⟩
  rw [least?_eq_none h stream hs] at hm
  cases hm

theorem occurs_of_candidate? (h : candidate? streams = some id) : Occurs id streams := by
  obtain ⟨stream, hs, hh⟩ := (least?_eq_some h).1
  exact occurs_iff_flatten.mpr ⟨stream, hs, List.mem_of_head? hh⟩

variable (ha : AllAscend streams) (h : candidate? streams = some id)

include ha h

theorem not_lt_of_candidate? : ∀ row ∈ streams, ∀ stream ∈ row, ∀ x ∈ stream, ¬ x < id := by
  intro row hr stream hs
  have hm : stream ∈ streams.flatten := List.mem_flatten.mpr ⟨row, hr, hs⟩
  exact not_lt_of_head? (ha row hr stream hs) ((least?_eq_some h).2 stream hm)

/-- The streams with the candidate at their front are those that hold it. -/
theorem indicators_candidate : indicators id streams = present id streams := by
  apply List.map_congr_left
  intro row hr
  apply List.map_congr_left
  intro stream hs
  exact decide_eq_decide.mpr
    (head?_eq_iff_mem (ha row hr stream hs) (not_lt_of_candidate? ha h row hr stream hs))

theorem behind_candidate : Behind id streams (streams.map (·.map (skip id))) := by
  have hl := not_lt_of_candidate? ha h
  have hmem : ∀ row ∈ streams, ∀ stream ∈ row, ∀ x, x ∈ skip id stream ↔ x ∈ stream ∧ x ≠ id :=
    fun row hr stream hs => mem_skip (ha row hr stream hs) (hl row hr stream hs)
  have hne : ∀ {x}, id < x → x ≠ id := by
    rintro x hx rfl
    exact RecordId.lt_irrefl x hx
  refine ⟨?_, fun x => ?_, fun x hx => ?_⟩
  · intro row hr stream hs
    obtain ⟨row, hrow, rfl⟩ := List.mem_map.mp hr
    obtain ⟨stream, hstream, rfl⟩ := List.mem_map.mp hs
    exact ascending_skip (ha row hrow stream hstream) id
  · constructor
    · rintro ⟨row, hr, stream, hs, hx⟩
      obtain ⟨row, hrow, rfl⟩ := List.mem_map.mp hr
      obtain ⟨stream, hstream, rfl⟩ := List.mem_map.mp hs
      obtain ⟨hm, hx⟩ := (hmem row hrow stream hstream x).mp hx
      exact ⟨⟨row, hrow, stream, hstream, hm⟩,
        RecordId.lt_of_not_lt_of_ne (hl row hrow stream hstream x hm) hx⟩
    · rintro ⟨⟨row, hr, stream, hs, hx⟩, hlt⟩
      exact ⟨_, List.mem_map_of_mem hr, _, List.mem_map_of_mem hs,
        (hmem row hr stream hs x).mpr ⟨hx, hne hlt⟩⟩
  · rw [MergeJoin.present, MergeJoin.present, List.map_map]
    apply List.map_congr_left
    intro row hr
    rw [Function.comp, List.map_map]
    apply List.map_congr_left
    intro stream hs
    simp [hmem row hr stream hs, hne hx]

end Candidate

/-! ## Steps of a join -/

def loadedWith (join : MergeJoin) (streams : List (List (List RecordId))) : MergeJoin :=
  { join with streams, loaded := true, done := false }

variable {calls : Callbacks ω} {join : MergeJoin} {streams : List (List (List RecordId))} {world : ω}

variable (join) in
theorem remaining_skip_lt {id : RecordId} (hc : candidate? streams = some id) :
    (join.loadedWith (streams.map (·.map (skip id)))).remaining <
      (join.loadedWith streams).remaining := by
  have hflat : (streams.map (·.map (skip id))).flatten = streams.flatten.map (skip id) :=
    List.map_flatten.symm
  simp only [remaining, loadedWith, hflat]
  exact length_skip_lt (least?_eq_some hc).1

/-! ## The whole sequence -/

def Yields (calls : Callbacks ω) : List RecordId → MergeJoin → ω → Prop
  | [], join, world => (next calls join world).1 = .ok none
  | id :: ids, join, world => ∃ rest after,
      next calls join world = (.ok (some id), rest, after) ∧ Yields calls ids rest after

theorem Yields.take {ids : List RecordId} (h : Yields calls ids join world) (count : Nat) :
    (MergeJoin.take calls count join world).1 = .ok (ids.take count) := by
  induction ids generalizing join world count with
  | nil =>
    cases count with
    | zero => rfl
    | succ count =>
      rcases hn : next calls join world with ⟨result, rest⟩
      have hnone : result = .ok none := by simpa [Yields, hn] using h
      simp [MergeJoin.take, hn, hnone]
  | cons id ids ih =>
    obtain ⟨rest, after, hn, hrest⟩ := h
    cases count with
    | zero => rfl
    | succ count =>
      have ht := ih hrest count
      rcases hr : MergeJoin.take calls count rest after with ⟨result, state⟩
      rw [hr] at ht
      simp only at ht
      subst ht
      simp [MergeJoin.take, hn, hr]

theorem next_loadedWith (calls : Callbacks ω) (join : MergeJoin)
    (streams : List (List (List RecordId))) (world : ω) :
    next calls (join.loadedWith streams) world =
      (.ok (pull calls ((join.loadedWith streams).remaining + 1) (join.loadedWith streams) world).1,
        (pull calls ((join.loadedWith streams).remaining + 1) (join.loadedWith streams) world).2) := by
  simp [next, load, loadedWith]

/-! ## Loading -/

def readAll (calls : Callbacks ω) (sources : List (List ChainSource)) (world : ω) :
    Except Fault (Option (List (List (List (List RecordId))))) × ω :=
  gather (gather fun source => gather (calls.readChain source) source.keys) sources world

def merged (startAfter : Option RecordId) (chains : List (List RecordId)) : List RecordId :=
  (RecordId.dedup (RecordId.mergeAll chains)).filter (isAfter startAfter)

theorem gather_map {α β γ : Type} {step : α → ω → Except Fault (Option β) × ω}
    {mapped : α → ω → Except Fault (Option γ) × ω} (f : β → γ)
    (h : ∀ item world, mapped item world =
      ((step item world).1.map (Option.map f), (step item world).2)) (items : List α) (world : ω) :
    gather mapped items world =
      ((gather step items world).1.map (Option.map (List.map f)), (gather step items world).2) := by
  induction items generalizing world with
  | nil => rfl
  | cons item rest ih =>
    rw [gather, gather, h]
    rcases step item world with ⟨fault | none | first, middle⟩
    · rfl
    · rfl
    · simp only [Except.map, Option.map_some, ih]
      rcases gather step rest middle with ⟨fault | none | others, after⟩ <;> rfl

theorem loadStreams_eq (calls : Callbacks ω) (join : MergeJoin) (world : ω) :
    loadStreams calls join world = ((readAll calls join.sources world).1.map
      (Option.map (List.map (List.map (merged join.startAfter)))),
      (readAll calls join.sources world).2) := by
  apply gather_map
  intro row world
  apply gather_map
  intro source world
  rw [loadStream]
  rcases gather (calls.readChain source) source.keys world with ⟨fault | none | chains, after⟩ <;> rfl

theorem collect_error {sources : List (List ChainSource)} (startAfter : Option RecordId)
    {fault : Fault} (h : (readAll calls sources world).1 = .error fault) :
    (collect calls (ofSources sources startAfter) world).1 = .error fault := by
  have hstreams := loadStreams_eq calls (ofSources sources startAfter) world
  rw [show (ofSources sources startAfter).sources = sources from rfl, h] at hstreams
  rw [collect, load, if_neg (by simp [ofSources]), hstreams]
  rfl

theorem load_loadedWith (calls : Callbacks ω) (join : MergeJoin)
    (streams : List (List (List RecordId))) (world : ω) :
    load calls (join.loadedWith streams) world = (.ok (), join.loadedWith streams, world) := by
  simp [load, loadedWith]

theorem Yields.ofLoad {ids : List RecordId} {loaded : MergeJoin} {after : ω}
    (hl : load calls join world = (.ok (), loaded, after))
    (hsame : load calls loaded after = (.ok (), loaded, after))
    (h : Yields calls ids loaded after) : Yields calls ids join world := by
  have hnext : next calls join world = next calls loaded after := by
    rw [next, next, hl, hsame]
  cases ids with
  | nil => rwa [Yields, hnext]
  | cons id ids => rwa [Yields, hnext]

theorem mem_merged {startAfter : Option RecordId} {chains : List (List RecordId)} {id : RecordId} :
    id ∈ merged startAfter chains ↔
      (∃ chain ∈ chains, id ∈ chain) ∧ ∀ bound, startAfter = some bound → bound < id := by
  rw [merged, List.mem_filter, RecordId.mem_dedup, RecordId.mem_mergeAll]
  cases startAfter <;> simp [isAfter]

theorem ascending_merged (startAfter : Option RecordId) {chains : List (List RecordId)}
    (h : ∀ chain ∈ chains, Ascending chain) : Ascending (merged startAfter chains) :=
  List.Pairwise.filter _ (RecordId.ascending_dedup (RecordId.sorted_mergeAll h))

theorem occurs_merged {startAfter : Option RecordId}
    {chains : List (List (List (List RecordId)))} {id : RecordId} :
    Occurs id (chains.map (List.map (merged startAfter))) ↔
      (∀ bound, startAfter = some bound → bound < id) ∧
        ∃ row ∈ chains, ∃ source ∈ row, ∃ chain ∈ source, id ∈ chain := by
  constructor
  · rintro ⟨row, hr, stream, hs, hx⟩
    obtain ⟨row, hrow, rfl⟩ := List.mem_map.mp hr
    obtain ⟨source, hsource, rfl⟩ := List.mem_map.mp hs
    obtain ⟨hchain, hb⟩ := mem_merged.mp hx
    exact ⟨hb, row, hrow, source, hsource, hchain⟩
  · rintro ⟨hb, row, hrow, source, hsource, hchain⟩
    exact ⟨_, List.mem_map_of_mem hrow, _, List.mem_map_of_mem hsource, mem_merged.mpr ⟨hchain, hb⟩⟩

theorem present_merged {startAfter : Option RecordId} {id : RecordId}
    (hb : ∀ bound, startAfter = some bound → bound < id)
    (chains : List (List (List (List RecordId)))) :
    present id (chains.map (List.map (merged startAfter))) =
      chains.map fun row => row.map fun source => decide (∃ chain ∈ source, id ∈ chain) := by
  rw [present, List.map_map]
  apply List.map_congr_left
  intro row _
  rw [Function.comp, List.map_map]
  apply List.map_congr_left
  intro source _
  apply decide_eq_decide.mpr
  rw [mem_merged]
  exact and_iff_left hb

end MergeJoin

end PredicateIndex
