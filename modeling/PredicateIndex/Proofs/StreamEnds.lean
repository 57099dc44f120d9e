import PredicateIndex.Proofs.StreamMerge

/-!
# Streams whose end is the end of a query

A caller may select streams whose end ends the query. The join then takes the
candidates that it would take anyway, up to the first one that uses up a
selected stream; this one is still given if it matches. So the ids that come out
are those that lie behind the end of no selected stream, and there are none if
a selected stream is empty from the start.
-/

set_option autoImplicit false

namespace PredicateIndex

namespace MergeJoin

open RecordId (Ascending)

variable {ω : Type}

def cell? {α : Type} (table : List (List α)) (row column : Nat) : Option α :=
  table[row]?.bind fun cells => cells[column]?

structure Selects (calls : Callbacks ω) (judge : Indicators → Bool) (selected : Nat → Nat → Bool)
    (calm : ω → Prop) : Prop where
  matched : ∀ indicators world, calm world →
    (calls.matched indicators world).1 = judge indicators ∧ calm (calls.matched indicators world).2
  stopsAt : ∀ row column world, calm world →
    (calls.stopsAt row column world).1 = selected row column ∧
      calm (calls.stopsAt row column world).2
  isCancelled : ∀ world, calm world → calls.isCancelled world = false

def Within (selected : Nat → Nat → Bool) (streams : List (List (List RecordId))) (id : RecordId) :
    Prop :=
  ∀ row column stream, selected row column = true → cell? streams row column = some stream →
    ∃ last ∈ stream, ¬ last < id

def Selected (selected : Nat → Nat → Bool) (streams : List (List (List RecordId)))
    (ids : List RecordId) : Prop :=
  ∃ row column, selected row column = true ∧ cell? streams row column = some ids

def leftWith (join : MergeJoin) (streams : List (List (List RecordId))) (done : Bool) : MergeJoin :=
  { join with streams, loaded := true, done }

/-! ## Tables -/

section Cells

variable {α β : Type} {table : List (List α)} {row column : Nat}

theorem cell?_map (f : α → β) (table : List (List α)) (row column : Nat) :
    cell? (table.map (·.map f)) row column = (cell? table row column).map f := by
  rw [cell?, cell?, List.getElem?_map]
  cases table[row]? with
  | none => rfl
  | some line => exact List.getElem?_map ..

theorem mem_of_cell? {item : α} (h : cell? table row column = some item) :
    ∃ line ∈ table, item ∈ line := by
  obtain ⟨line, hl, hi⟩ := Option.bind_eq_some_iff.mp h
  exact ⟨line, List.mem_of_getElem? hl, List.mem_of_getElem? hi⟩

end Cells

/-! ## Streams that end at a candidate -/

section Candidate

variable {selected : Nat → Nat → Bool} {streams : List (List (List RecordId))} {id : RecordId}

theorem skip_eq_nil_iff {stream : List RecordId} : skip id stream = [] ↔ stream = [] ∨ stream = [id] := by
  rw [skip]
  cases stream with
  | nil => simp
  | cons front rest =>
    by_cases hf : front = id
    · simp [hf]
    · simp [hf]

variable (ha : AllAscend streams) (hc : candidate? streams = some id)

include ha hc

theorem within_candidate (hn : ¬ Selected selected streams []) : Within selected streams id := by
  intro row column stream hs hcell
  obtain ⟨line, hl, hm⟩ := mem_of_cell? hcell
  cases stream with
  | nil => exact (hn ⟨row, column, hs, hcell⟩).elim
  | cons front rest =>
    exact ⟨front, List.mem_cons_self,
      not_lt_of_candidate? ha hc line hl _ hm front List.mem_cons_self⟩

theorem within_skip {x : RecordId} (hx : id < x) :
    Within selected (streams.map (·.map (skip id))) x ↔ Within selected streams x := by
  have hkept : ∀ row column stream, cell? streams row column = some stream →
      ((∃ last ∈ skip id stream, ¬ last < x) ↔ ∃ last ∈ stream, ¬ last < x) := by
    intro row column stream hcell
    obtain ⟨line, hl, hm⟩ := mem_of_cell? hcell
    have hmem := mem_skip (ha line hl stream hm) (not_lt_of_candidate? ha hc line hl stream hm)
    constructor
    · rintro ⟨last, hlast, hlt⟩
      exact ⟨last, ((hmem last).mp hlast).1, hlt⟩
    · rintro ⟨last, hlast, hlt⟩
      exact ⟨last, (hmem last).mpr ⟨hlast, fun he => hlt (he ▸ hx)⟩, hlt⟩
  constructor
  · intro h row column stream hs hcell
    refine (hkept row column stream hcell).mp (h row column _ hs ?_)
    rw [cell?_map, hcell, Option.map_some]
  · intro h row column stream hs hcell
    rw [cell?_map] at hcell
    obtain ⟨whole, hwhole, rfl⟩ := Option.map_eq_some_iff.mp hcell
    exact (hkept row column whole hwhole).mpr (h row column whole hs hwhole)

omit ha hc in
theorem not_within_of_end (h : Selected selected streams [id]) {x : RecordId} (hx : id < x) :
    ¬ Within selected streams x := by
  obtain ⟨row, column, hs, hcell⟩ := h
  intro hw
  obtain ⟨last, hlast, hlt⟩ := hw row column [id] hs hcell
  exact hlt (List.mem_singleton.mp hlast ▸ hx)

omit ha hc in
theorem selected_skip_nil (h : Selected selected (streams.map (·.map (skip id))) []) :
    Selected selected streams [] ∨ Selected selected streams [id] := by
  obtain ⟨row, column, hs, hcell⟩ := h
  rw [cell?_map] at hcell
  obtain ⟨stream, hstream, hskip⟩ := Option.map_eq_some_iff.mp hcell
  rcases skip_eq_nil_iff.mp hskip with rfl | rfl
  · exact .inl ⟨row, column, hs, hstream⟩
  · exact .inr ⟨row, column, hs, hstream⟩

end Candidate

/-! ## Steps of a join -/

section Steps

variable {calls : Callbacks ω} {judge : Indicators → Bool} {selected : Nat → Nat → Bool}
  {calm : ω → Prop} {join : MergeJoin} {streams : List (List (List RecordId))} {world : ω}

theorem advanceRow_streams (calls : Callbacks ω) (id : RecordId) (row column : Nat)
    (streams : List (List RecordId)) (world : ω) :
    (advanceRow calls id row column streams world).1 = streams.map (skip id) := by
  induction streams generalizing column world with
  | nil => rfl
  | cons stream rest ih =>
    rw [advanceRow]
    split
    · rename_i hs
      simp only [ih, List.map_cons, skip, if_pos hs]
    · rename_i hs
      simp only [ih, List.map_cons, skip, if_neg hs]

theorem advance_streams (calls : Callbacks ω) (id : RecordId) (row : Nat)
    (streams : List (List (List RecordId))) (world : ω) :
    (advance calls id row streams world).1 = streams.map (·.map (skip id)) := by
  induction streams generalizing row world with
  | nil => rfl
  | cons first rest ih =>
    rw [advance]
    simp only [ih, advanceRow_streams, List.map_cons]

theorem pull_fuel (calls : Callbacks ω) {fuel other : Nat} (join : MergeJoin) (world : ω)
    (hf : join.remaining < fuel) (ho : join.remaining < other) :
    pull calls fuel join world = pull calls other join world := by
  induction fuel generalizing other join world with
  | zero => omega
  | succ fuel ih =>
    cases other with
    | zero => omega
    | succ other =>
      rw [pull, pull]
      split
      · rfl
      · split
        · rfl
        · split
          · rfl
          · rename_i id hc
            have hless := remaining_skip_lt join hc
            simp only [advance_streams]
            simp only [remaining, loadedWith] at hless hf ho
            split
            · rfl
            · apply ih <;>
              · simp only [remaining]
                omega

theorem advanceRow_selected (h : Selects calls judge selected calm) (id : RecordId)
    (row column : Nat) (streams : List (List RecordId)) (hw : calm world) :
    ∃ stops after, advanceRow calls id row column streams world =
        (streams.map (skip id), stops, after) ∧ calm after ∧
      (stops = true ↔ ∃ n, selected row (column + n) = true ∧ streams[n]? = some [id]) := by
  induction streams generalizing column world with
  | nil => exact ⟨false, world, rfl, hw, by simp⟩
  | cons stream rest ih =>
    by_cases hs : stream.head? = some id
    · obtain ⟨ends, asked, hasked, hcalm, hends⟩ : ∃ ends asked,
          (if stream.tail = [] then calls.stopsAt row column world else (false, world)) =
            (ends, asked) ∧ calm asked ∧
          (ends = true ↔ selected row column = true ∧ stream = [id]) := by
        cases stream with
        | nil => cases hs
        | cons front rest =>
          obtain rfl := Option.some.inj hs
          by_cases ht : rest = []
          · obtain ⟨he, hcalm⟩ := h.stopsAt row column world hw
            exact ⟨_, _, if_pos ht, hcalm, by simp [he, ht]⟩
          · exact ⟨_, _, if_neg ht, hw, by simp [ht]⟩
      obtain ⟨later, after, hr, hafter, hlater⟩ := ih (column + 1) hcalm
      refine ⟨ends || later, after, by simp [advanceRow, skip, hs, hasked, hr], hafter, ?_⟩
      rw [Bool.or_eq_true, hends, hlater]
      refine Iff.trans ?_ Nat.or_exists_add_one
      exact or_congr (by simp) (by simp [Nat.add_assoc, Nat.add_comm 1])
    · obtain ⟨later, after, hr, hafter, hlater⟩ := ih (column + 1) hw
      refine ⟨later, after, by simp [advanceRow, skip, hs, hr], hafter, ?_⟩
      have hne : stream ≠ [id] := by
        rintro rfl
        exact hs rfl
      rw [hlater]
      refine Iff.trans ?_ Nat.or_exists_add_one
      exact (or_iff_right (by simp [hne])).symm.trans (or_congr_right
        (by simp [Nat.add_assoc, Nat.add_comm 1]))

theorem advance_selected (h : Selects calls judge selected calm) (id : RecordId) (row : Nat)
    (streams : List (List (List RecordId))) (hw : calm world) :
    ∃ stops after, advance calls id row streams world =
        (streams.map (·.map (skip id)), stops, after) ∧ calm after ∧
      (stops = true ↔ ∃ n column, selected (row + n) column = true ∧
        cell? streams n column = some [id]) := by
  induction streams generalizing row world with
  | nil => exact ⟨false, world, rfl, hw, by simp [cell?]⟩
  | cons first rest ih =>
    obtain ⟨ends, middle, hfirst, hcalm, hends⟩ := advanceRow_selected h id row 0 first hw
    obtain ⟨later, after, hrest, hafter, hlater⟩ := ih (row + 1) hcalm
    refine ⟨ends || later, after, by simp [advance, hfirst, hrest], hafter, ?_⟩
    rw [Bool.or_eq_true, hends, hlater]
    refine Iff.trans ?_ Nat.or_exists_add_one
    exact or_congr (by simp [cell?]) (by simp [cell?, Nat.add_assoc, Nat.add_comm 1])

theorem next_of_loaded (calls : Callbacks ω) {join : MergeJoin} (hl : join.loaded = true) (world : ω)
    {fuel : Nat} (hf : join.remaining < fuel) :
    next calls join world =
      (.ok (pull calls fuel join world).1, (pull calls fuel join world).2) := by
  rw [next, load, hl, Bool.true_or, if_pos rfl,
    pull_fuel calls join world hf (Nat.lt_succ_self join.remaining)]

/-- A candidate that matches is given, one that does not is passed over; after one that uses up a
selected stream the join has ended. -/
theorem next_selected (join : MergeJoin) (h : Selects calls judge selected calm) (hw : calm world)
    {id : RecordId} (hc : candidate? streams = some id) :
    ∃ stops after, calm after ∧ (stops = true ↔ Selected selected streams [id]) ∧
      next calls (join.loadedWith streams) world =
        if judge (indicators id streams) then
          (.ok (some id), join.leftWith (streams.map (·.map (skip id))) stops, after)
        else next calls (join.leftWith (streams.map (·.map (skip id))) stops) after := by
  obtain ⟨hm, hcalm⟩ := h.matched (indicators id streams) world hw
  obtain ⟨stops, after, ha, hafter, hstops⟩ := advance_selected h id 0 streams hcalm
  refine ⟨stops, after, hafter, by simpa [Selected] using hstops, ?_⟩
  have hless : (join.leftWith (streams.map (·.map (skip id))) stops).remaining <
      (join.loadedWith streams).remaining := remaining_skip_lt join hc
  rw [next_loadedWith, pull, if_neg (by simp [loadedWith]),
    if_neg (by simp [h.isCancelled world hw]), next_of_loaded calls rfl after hless]
  simp only [loadedWith, hc, hm, ha]
  split <;> rfl

theorem next_done (calls : Callbacks ω) {join : MergeJoin} (hd : join.done = true) (world : ω) :
    next calls join world = (.ok none, join, world) := by
  rw [next, load, hd, Bool.or_true, if_pos rfl]
  simp [pull, hd]

theorem Yields.congr {ids : List RecordId} {other : MergeJoin} {later : ω}
    (he : next calls join world = next calls other later) (h : Yields calls ids other later) :
    Yields calls ids join world := by
  cases ids with
  | nil => rwa [Yields, he]
  | cons id ids => rwa [Yields, he]

variable (join) in
/-- A loaded join gives, in ascending order, just the ids that occur in its streams, match, and lie
behind the end of no selected stream. -/
theorem yields_selected (h : Selects calls judge selected calm) (ha : AllAscend streams)
    (hn : ¬ Selected selected streams []) (hw : calm world) :
    ∃ ids, Ascending ids ∧
      (∀ id, id ∈ ids ↔ (Occurs id streams ∧ judge (present id streams) = true) ∧
        Within selected streams id) ∧
      ids.length ≤ (join.loadedWith streams).remaining ∧
      Yields calls ids (join.loadedWith streams) world := by
  -- every candidate takes at least one id from a stream
  induction hr : (join.loadedWith streams).remaining using Nat.strongRecOn
    generalizing streams world with
  | ind count ih =>
    subst hr
    cases hc : candidate? streams with
    | none =>
      refine ⟨[], List.Pairwise.nil, fun id => ?_, Nat.zero_le _, ?_⟩
      · exact iff_of_false List.not_mem_nil fun hm => not_occurs_of_candidate? hc id hm.1.1
      · rw [Yields, next_loadedWith, pull, if_neg (by simp [loadedWith]),
          if_neg (by simp [h.isCancelled world hw])]
        simp [loadedWith, hc]
    | some id =>
      obtain ⟨stops, after, hafter, hstops, hnext⟩ := next_selected join h hw hc
      have hless := remaining_skip_lt join hc
      have hbehind := behind_candidate ha hc
      have hoccurs := occurs_of_candidate? hc
      have hwithin := within_candidate ha hc hn
      rw [indicators_candidate ha hc] at hnext
      -- what the join gives after the candidate are the greater ids that come out at all
      obtain ⟨ids, hids, hmem, hlength, hyields⟩ : ∃ ids, Ascending ids ∧
          (∀ x, x ∈ ids ↔ id < x ∧ (Occurs x streams ∧ judge (present x streams) = true) ∧
            Within selected streams x) ∧
          ids.length < (join.loadedWith streams).remaining ∧
          Yields calls ids (join.leftWith (streams.map (·.map (skip id))) stops) after := by
        cases stops with
        | true =>
          refine ⟨[], List.Pairwise.nil, fun x => ?_, Nat.zero_lt_of_lt hless, ?_⟩
          · exact iff_of_false List.not_mem_nil fun hm =>
              not_within_of_end (hstops.mp rfl) hm.1 hm.2.2
          · rw [Yields, next_done calls rfl]
        | false =>
          have hlater : ¬ Selected selected (streams.map (·.map (skip id))) [] := fun hl =>
            (selected_skip_nil hl).elim hn fun he => Bool.false_ne_true (hstops.mpr he)
          obtain ⟨ids, hids, hmem, hlength, hyields⟩ :=
            ih _ hless hbehind.ascend hlater hafter rfl
          refine ⟨ids, hids, fun x => ?_, Nat.lt_of_le_of_lt hlength hless, hyields⟩
          rw [hmem, hbehind.occurs]
          constructor
          · rintro ⟨⟨⟨ho, hx⟩, hj⟩, hx'⟩
            exact ⟨hx, ⟨ho, hbehind.present x hx ▸ hj⟩, (within_skip ha hc hx).mp hx'⟩
          · rintro ⟨hx, ⟨ho, hj⟩, hx'⟩
            exact ⟨⟨⟨ho, hx⟩, (hbehind.present x hx).symm ▸ hj⟩, (within_skip ha hc hx).mpr hx'⟩
      have hleast : ∀ x, Occurs x streams → x = id ∨ id < x := by
        rintro x ⟨row, hrow, stream, hs, hx⟩
        by_cases he : x = id
        · exact .inl he
        · exact .inr (RecordId.lt_of_not_lt_of_ne
            (not_lt_of_candidate? ha hc row hrow stream hs x hx) he)
      by_cases hj : judge (present id streams) = true
      · rw [if_pos hj] at hnext
        refine ⟨id :: ids, ?_, fun x => ?_, hlength, _, after, hnext, hyields⟩
        · exact List.pairwise_cons.mpr ⟨fun x hx => ((hmem x).mp hx).1, hids⟩
        · rw [List.mem_cons, hmem]
          constructor
          · rintro (rfl | hx)
            · exact ⟨⟨hoccurs, hj⟩, hwithin⟩
            · exact hx.2
          · exact fun hx => (hleast x hx.1.1).imp_right fun hlt => ⟨hlt, hx⟩
      · rw [if_neg hj] at hnext
        refine ⟨ids, hids, fun x => ?_, Nat.le_of_lt hlength, hyields.congr hnext⟩
        rw [hmem]
        refine and_iff_right_of_imp fun hx => (hleast x hx.1.1).resolve_left ?_
        rintro rfl
        exact hj hx.1.2

end Steps

/-! ## Loading -/

section Loading

variable {calls : Callbacks ω} {judge : Indicators → Bool} {selected : Nat → Nat → Bool}
  {calm : ω → Prop} {world read : ω} {startAfter : Option RecordId}
  {sources : List (List ChainSource)} {chains : List (List (List (List RecordId)))}

theorem emptyStopsRow_selected (h : Selects calls judge selected calm) (row column : Nat)
    (streams : List (List RecordId)) (hw : calm world) :
    ∃ stops after, emptyStopsRow calls row column streams world = (stops, after) ∧ calm after ∧
      (stops = true ↔ ∃ n, selected row (column + n) = true ∧ streams[n]? = some []) := by
  induction streams generalizing column world with
  | nil => exact ⟨false, world, rfl, hw, by simp⟩
  | cons stream rest ih =>
    cases stream with
    | cons id stream =>
      obtain ⟨stops, after, hr, hafter, hstops⟩ := ih (column + 1) hw
      refine ⟨stops, after, hr, hafter, hstops.trans (Iff.trans ?_ Nat.or_exists_add_one)⟩
      exact (or_iff_right (by simp)).symm.trans (or_congr_right
        (by simp [Nat.add_assoc, Nat.add_comm 1]))
    | nil =>
      obtain ⟨he, hcalm⟩ := h.stopsAt row column world hw
      rcases hs : calls.stopsAt row column world with ⟨ends, asked⟩
      rw [hs] at he hcalm
      dsimp only at he hcalm
      cases ends with
      | true =>
        exact ⟨true, asked, by simp only [emptyStopsRow, hs], hcalm,
          iff_of_true rfl ⟨0, he.symm, rfl⟩⟩
      | false =>
        obtain ⟨stops, after, hr, hafter, hstops⟩ := ih (column + 1) hcalm
        refine ⟨stops, after, by simp only [emptyStopsRow, hs, hr], hafter,
          hstops.trans (Iff.trans ?_ Nat.or_exists_add_one)⟩
        exact (or_iff_right (by simp [← he])).symm.trans (or_congr_right
          (by simp [Nat.add_assoc, Nat.add_comm 1]))

theorem emptyStops_selected (h : Selects calls judge selected calm) (row : Nat)
    (streams : List (List (List RecordId))) (hw : calm world) :
    ∃ stops after, emptyStops calls row streams world = (stops, after) ∧ calm after ∧
      (stops = true ↔ ∃ n column, selected (row + n) column = true ∧
        cell? streams n column = some []) := by
  induction streams generalizing row world with
  | nil => exact ⟨false, world, rfl, hw, by simp [cell?]⟩
  | cons first rest ih =>
    obtain ⟨ends, asked, hfirst, hcalm, hends⟩ := emptyStopsRow_selected h row 0 first hw
    cases ends with
    | true =>
      obtain ⟨column, hs, hcell⟩ := hends.mp rfl
      exact ⟨true, asked, by simp only [emptyStops, hfirst], hcalm,
        iff_of_true rfl ⟨0, column, by simpa using hs, hcell⟩⟩
    | false =>
      obtain ⟨stops, after, hrest, hafter, hstops⟩ := ih (row + 1) hcalm
      refine ⟨stops, after, by simp only [emptyStops, hfirst, hrest], hafter,
        hstops.trans (Iff.trans ?_ Nat.or_exists_add_one)⟩
      refine (or_iff_right ?_).symm.trans (or_congr_right
        (by simp [cell?, Nat.add_assoc, Nat.add_comm 1]))
      rintro ⟨column, hs, hcell⟩
      exact Bool.false_ne_true (hends.mpr ⟨column, by simpa using hs, hcell⟩)

theorem load_selected (startAfter : Option RecordId) (h : Selects calls judge selected calm)
    (hr : readAll calls sources world = (.ok (some chains), read)) (hc : calm read) :
    ∃ stops after, calm after ∧
      (stops = true ↔ Selected selected (chains.map (List.map (merged startAfter))) []) ∧
      load calls (ofSources sources startAfter) world =
        (.ok (), (ofSources sources startAfter).leftWith
          (chains.map (List.map (merged startAfter))) stops, after) := by
  obtain ⟨stops, after, he, hafter, hstops⟩ :=
    emptyStops_selected h 0 (chains.map (List.map (merged startAfter))) hc
  refine ⟨stops, after, hafter, by simpa [Selected] using hstops, ?_⟩
  have hstreams := loadStreams_eq calls (ofSources sources startAfter) world
  rw [show (ofSources sources startAfter).sources = sources from rfl, hr] at hstreams
  rw [load, if_neg (by simp [ofSources]), hstreams]
  simp only [Except.map, Option.map_some]
  rw [show (ofSources sources startAfter).startAfter = startAfter from rfl, he]
  rfl

def ChainsAscend (chains : List (List (List (List RecordId)))) : Prop :=
  ∀ row ∈ chains, ∀ source ∈ row, ∀ chain ∈ source, Ascending chain

theorem ascend_merged (startAfter : Option RecordId)
    {chains : List (List (List (List RecordId)))} (ha : ChainsAscend chains) :
    AllAscend (chains.map (List.map (merged startAfter))) := by
  intro row hrow stream hs
  obtain ⟨row, hread, rfl⟩ := List.mem_map.mp hrow
  obtain ⟨source, hsource, rfl⟩ := List.mem_map.mp hs
  exact ascending_merged startAfter (ha row hread source hsource)

/-- A query gives just the ids that occur in its streams, match, and lie behind the end of no
selected stream. -/
theorem yields_streams (startAfter : Option RecordId) (h : Selects calls judge selected calm)
    (hr : readAll calls sources world = (.ok (some chains), read)) (hc : calm read)
    (ha : ChainsAscend chains) :
    ∃ ids, Ascending ids ∧
      (∀ id, id ∈ ids ↔ (Occurs id (chains.map (List.map (merged startAfter))) ∧
          judge (present id (chains.map (List.map (merged startAfter)))) = true) ∧
        Within selected (chains.map (List.map (merged startAfter))) id) ∧
      Yields calls ids (ofSources sources startAfter) world ∧
      (collect calls (ofSources sources startAfter) world).1 = .ok ids := by
  obtain ⟨stops, after, hafter, hstops, hload⟩ := load_selected startAfter h hr hc
  cases stops with
  | true =>
    have hnone : ∀ id, ¬ Within selected (chains.map (List.map (merged startAfter))) id := by
      intro id hw
      obtain ⟨row, column, hs, hcell⟩ := hstops.mp rfl
      obtain ⟨last, hlast, -⟩ := hw row column [] hs hcell
      cases hlast
    refine ⟨[], List.Pairwise.nil, fun id => ?_, ?_, ?_⟩
    · exact iff_of_false List.not_mem_nil fun hm => hnone id hm.2
    · simp [Yields, next, hload, pull, leftWith]
    · rw [collect, hload]
      simp [take, next_done, leftWith]
  | false =>
    have hn : ¬ Selected selected (chains.map (List.map (merged startAfter))) [] := fun he =>
      Bool.false_ne_true (hstops.mpr he)
    obtain ⟨ids, hids, hmem, hlength, hyields⟩ := yields_selected
      (ofSources sources startAfter) h (ascend_merged startAfter ha) hn hafter
    refine ⟨ids, hids, hmem, hyields.ofLoad hload (load_loadedWith ..), ?_⟩
    have ht := hyields.take (((ofSources sources startAfter).loadedWith
      (chains.map (List.map (merged startAfter)))).remaining + 1)
    rw [collect, hload]
    rwa [List.take_of_length_le (by omega)] at ht

def Reaches (selected : Nat → Nat → Bool) (chains : List (List (List (List RecordId))))
    (id : RecordId) : Prop :=
  ∀ row column source, selected row column = true → cell? chains row column = some source →
    ∃ chain ∈ source, ∃ last ∈ chain, ¬ last < id

theorem within_merged {id : RecordId} (hb : ∀ bound, startAfter = some bound → bound < id) :
    Within selected (chains.map (List.map (merged startAfter))) id ↔
      Reaches selected chains id := by
  have hstream : ∀ source : List (List RecordId),
      (∃ last ∈ merged startAfter source, ¬ last < id) ↔
        ∃ chain ∈ source, ∃ last ∈ chain, ¬ last < id := by
    intro source
    constructor
    · rintro ⟨last, hlast, hlt⟩
      obtain ⟨⟨chain, hchain, hm⟩, -⟩ := mem_merged.mp hlast
      exact ⟨chain, hchain, last, hm, hlt⟩
    · rintro ⟨chain, hchain, last, hm, hlt⟩
      refine ⟨last, mem_merged.mpr ⟨⟨chain, hchain, hm⟩, fun bound hbound => ?_⟩, hlt⟩
      by_cases he : last = id
      · exact he ▸ hb bound hbound
      · exact RecordId.lt_trans (hb bound hbound) (RecordId.lt_of_not_lt_of_ne hlt he)
  constructor
  · intro h row column source hs hcell
    refine (hstream source).mp (h row column _ hs ?_)
    rw [cell?_map, hcell, Option.map_some]
  · intro h row column stream hs hcell
    rw [cell?_map] at hcell
    obtain ⟨source, hsource, rfl⟩ := Option.map_eq_some_iff.mp hcell
    exact (hstream source).mpr (h row column source hs hsource)

/-- A query gives just the ids behind its start that are in a chain it read, whose chains match,
and up to which every selected source reaches. -/
theorem yields_chains (startAfter : Option RecordId) (h : Selects calls judge selected calm)
    (hr : readAll calls sources world = (.ok (some chains), read)) (hc : calm read)
    (ha : ChainsAscend chains) :
    ∃ ids, Ascending ids ∧
      (∀ id, id ∈ ids ↔ (∀ bound, startAfter = some bound → bound < id) ∧
        ((∃ row ∈ chains, ∃ source ∈ row, ∃ chain ∈ source, id ∈ chain) ∧
          judge (chains.map fun row => row.map fun source =>
            decide (∃ chain ∈ source, id ∈ chain)) = true) ∧
        Reaches selected chains id) ∧
      Yields calls ids (ofSources sources startAfter) world ∧
      (collect calls (ofSources sources startAfter) world).1 = .ok ids := by
  obtain ⟨ids, hids, hmem, hyields, hcollect⟩ := yields_streams startAfter h hr hc ha
  refine ⟨ids, hids, fun id => ?_, hyields, hcollect⟩
  rw [hmem, occurs_merged]
  constructor
  · rintro ⟨⟨⟨hb, ho⟩, hj⟩, hw⟩
    exact ⟨hb, ⟨ho, present_merged hb chains ▸ hj⟩, (within_merged hb).mp hw⟩
  · rintro ⟨hb, ⟨ho, hj⟩, hw⟩
    exact ⟨⟨⟨hb, ho⟩, (present_merged hb chains).symm ▸ hj⟩, (within_merged hb).mpr hw⟩

theorem Judges.selects (h : Judges calls judge calm) :
    Selects calls judge (fun _ _ => false) calm :=
  ⟨h.matched, h.stopsAt, h.isCancelled⟩

theorem yields_read (startAfter : Option RecordId) (h : Judges calls judge calm)
    (hr : readAll calls sources world = (.ok (some chains), read)) (hc : calm read)
    (ha : ChainsAscend chains) :
    ∃ ids, Ascending ids ∧
      (∀ id, id ∈ ids ↔ (∀ bound, startAfter = some bound → bound < id) ∧
        (∃ row ∈ chains, ∃ source ∈ row, ∃ chain ∈ source, id ∈ chain) ∧
        judge (chains.map fun row => row.map fun source =>
          decide (∃ chain ∈ source, id ∈ chain)) = true) ∧
      Yields calls ids (ofSources sources startAfter) world ∧
      (collect calls (ofSources sources startAfter) world).1 = .ok ids := by
  obtain ⟨ids, hids, hmem, hyields, hcollect⟩ := yields_chains startAfter h.selects hr hc ha
  have hreaches : ∀ id, Reaches (fun _ _ => false) chains id := fun id _ _ _ hs =>
    (Bool.false_ne_true hs).elim
  exact ⟨ids, hids, fun id => by rw [hmem, and_iff_left (hreaches id)], hyields, hcollect⟩

end Loading

end MergeJoin

end PredicateIndex
