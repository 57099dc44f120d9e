import PredicateIndex.Query.Paging

/-!
# Joins in two worlds

A join learns of the world only what its callbacks tell. If two worlds tell the
same and stay related, the join does the same in both: it reads the same chains,
judges the same candidates, asks about the same streams and ends at the same
point, whether because a stream has ended or because somebody cancelled it.
-/

set_option autoImplicit false

namespace PredicateIndex

variable {ω υ : Type}

def Together {α : Type} (related : ω → υ → Prop) (here : α × ω) (there : α × υ) : Prop :=
  here.1 = there.1 ∧ related here.2 there.2

theorem Together.cases {α : Type} {related : ω → υ → Prop} {here : α × ω} {there : α × υ}
    (h : Together related here there) :
    ∃ result world other, here = (result, world) ∧ there = (result, other) ∧ related world other :=
  ⟨here.1, here.2, there.2, rfl, Prod.ext h.1.symm rfl, h.2⟩

structure Callbacks.Simulates (calls : Callbacks ω) (others : Callbacks υ)
    (related : ω → υ → Prop) : Prop where
  readChain : ∀ source key world other, related world other →
    Together related (calls.readChain source key world) (others.readChain source key other)
  matched : ∀ indicators world other, related world other →
    Together related (calls.matched indicators world) (others.matched indicators other)
  stopsAt : ∀ row column world other, related world other →
    Together related (calls.stopsAt row column world) (others.stopsAt row column other)
  isCancelled : ∀ world other, related world other →
    calls.isCancelled world = others.isCancelled other

variable {related : ω → υ → Prop} {world : ω} {other : υ}

theorem gather_together {α β : Type} {step : α → ω → Except Fault (Option β) × ω}
    {follow : α → υ → Except Fault (Option β) × υ}
    (h : ∀ item world other, related world other →
      Together related (step item world) (follow item other))
    (items : List α) (hr : related world other) :
    Together related (gather step items world) (gather follow items other) := by
  induction items generalizing world other with
  | nil => exact ⟨rfl, hr⟩
  | cons item rest ih =>
    obtain ⟨result, after, later, hs, hf, hr⟩ := (h item world other hr).cases
    rw [gather, gather, hs, hf]
    rcases result with fault | _ | first
    · exact ⟨rfl, hr⟩
    · exact ⟨rfl, hr⟩
    · obtain ⟨others, last, final, hs, hf, hr⟩ := (ih hr).cases
      dsimp only
      rw [hs, hf]
      rcases others with fault | _ | others <;> exact ⟨rfl, hr⟩

namespace MergeJoin

variable {calls : Callbacks ω} {others : Callbacks υ} (h : calls.Simulates others related)

include h in
theorem loadStream_together (startAfter : Option RecordId) (source : ChainSource)
    (hr : related world other) : Together related (loadStream calls startAfter source world)
      (loadStream others startAfter source other) := by
  have hall := gather_together (h.readChain source) source.keys hr
  obtain ⟨result, after, later, hs, hf, hr⟩ := hall.cases
  rw [loadStream, loadStream, hs, hf]
  rcases result with fault | _ | chains <;> exact ⟨rfl, hr⟩

include h in
theorem loadStreams_together (join : MergeJoin) (hr : related world other) :
    Together related (loadStreams calls join world) (loadStreams others join other) :=
  gather_together (fun row _ _ hr => gather_together
    (fun source _ _ hr => loadStream_together h join.startAfter source hr) row hr) join.sources hr

include h in
theorem emptyStopsRow_together (row column : Nat) (streams : List (List RecordId))
    (hr : related world other) : Together related (emptyStopsRow calls row column streams world)
      (emptyStopsRow others row column streams other) := by
  induction streams generalizing column world other with
  | nil => exact ⟨rfl, hr⟩
  | cons stream rest ih =>
    cases stream with
    | cons id ids => exact ih (column + 1) hr
    | nil =>
      obtain ⟨stops, after, later, hs, hf, hr⟩ := (h.stopsAt row column world other hr).cases
      rw [emptyStopsRow, emptyStopsRow, hs, hf]
      cases stops with
      | true => exact ⟨rfl, hr⟩
      | false => exact ih (column + 1) hr

include h in
theorem emptyStops_together (row : Nat) (streams : List (List (List RecordId)))
    (hr : related world other) : Together related (emptyStops calls row streams world)
      (emptyStops others row streams other) := by
  induction streams generalizing row world other with
  | nil => exact ⟨rfl, hr⟩
  | cons first rest ih =>
    obtain ⟨stops, after, later, hs, hf, hr⟩ := (emptyStopsRow_together h row 0 first hr).cases
    rw [emptyStops, emptyStops, hs, hf]
    cases stops with
    | true => exact ⟨rfl, hr⟩
    | false => exact ih (row + 1) hr

include h in
theorem load_together (join : MergeJoin) (hr : related world other) :
    Together (Together related) (load calls join world) (load others join other) := by
  rw [load, load]
  split
  · exact ⟨rfl, rfl, hr⟩
  · obtain ⟨result, after, later, hs, hf, hr⟩ := (loadStreams_together h join hr).cases
    rw [hs, hf]
    rcases result with fault | _ | streams
    · exact ⟨rfl, rfl, hr⟩
    · exact ⟨rfl, rfl, hr⟩
    · obtain ⟨stops, last, final, hs, hf, hr⟩ := (emptyStops_together h 0 streams hr).cases
      dsimp only
      rw [hs, hf]
      exact ⟨rfl, rfl, hr⟩

include h in
theorem advanceRow_together (id : RecordId) (row column : Nat) (streams : List (List RecordId))
    (hr : related world other) :
    Together (Together related) (advanceRow calls id row column streams world)
      (advanceRow others id row column streams other) := by
  induction streams generalizing column world other with
  | nil => exact ⟨rfl, rfl, hr⟩
  | cons stream rest ih =>
    rw [advanceRow, advanceRow]
    split
    · have hend : Together related
          (if stream.tail = [] then calls.stopsAt row column world else (false, world))
          (if stream.tail = [] then others.stopsAt row column other else (false, other)) := by
        split
        · exact h.stopsAt row column world other hr
        · exact ⟨rfl, hr⟩
      obtain ⟨stops, after, later, hs, hf, hr⟩ := hend.cases
      rw [hs, hf]
      obtain ⟨left, ended, hr⟩ := ih (column + 1) hr
      exact ⟨congrArg (stream.tail :: ·) left, congrArg (stops || ·) ended, hr⟩
    · obtain ⟨left, ended, hr⟩ := ih (column + 1) hr
      exact ⟨congrArg (stream :: ·) left, ended, hr⟩

include h in
theorem advance_together (id : RecordId) (row : Nat) (streams : List (List (List RecordId)))
    (hr : related world other) : Together (Together related) (advance calls id row streams world)
      (advance others id row streams other) := by
  induction streams generalizing row world other with
  | nil => exact ⟨rfl, rfl, hr⟩
  | cons first rest ih =>
    obtain ⟨left, ended, hr⟩ := advanceRow_together h id row 0 first hr
    obtain ⟨others, later, hr⟩ := ih (row + 1) hr
    rw [advance, advance]
    exact ⟨by simp only [left, others], by simp only [ended, later], hr⟩

include h in
theorem pull_together (fuel : Nat) (join : MergeJoin) (hr : related world other) :
    Together (Together related) (pull calls fuel join world) (pull others fuel join other) := by
  induction fuel generalizing join world other with
  | zero => exact ⟨rfl, rfl, hr⟩
  | succ fuel ih =>
    rw [pull, pull, h.isCancelled world other hr]
    split
    · exact ⟨rfl, rfl, hr⟩
    · split
      · exact ⟨rfl, rfl, hr⟩
      · split
        · exact ⟨rfl, rfl, hr⟩
        · rename_i id _
          obtain ⟨isMatch, after, later, hs, hf, hr⟩ :=
            (h.matched (indicators id join.streams) world other hr).cases
          rw [hs, hf]
          obtain ⟨left, ended, hr⟩ := advance_together h id 0 join.streams hr
          dsimp only
          rw [left, ended]
          cases isMatch with
          | true => exact ⟨rfl, rfl, hr⟩
          | false => exact ih _ hr

include h in
theorem next_together (join : MergeJoin) (hr : related world other) :
    Together (Together related) (next calls join world) (next others join other) := by
  obtain ⟨result, after, later, hs, hf, rest⟩ := (load_together h join hr).cases
  obtain ⟨loaded, last, final, rfl, rfl, hr⟩ := rest.cases
  rw [next, next, hs, hf]
  cases result with
  | error fault => exact ⟨rfl, rfl, hr⟩
  | ok =>
    obtain ⟨found, hr⟩ := pull_together h (loaded.remaining + 1) loaded hr
    exact ⟨congrArg Except.ok found, hr⟩

include h in
theorem take_together (count : Nat) (join : MergeJoin) (hr : related world other) :
    Together (Together related) (take calls count join world) (take others count join other) := by
  induction count generalizing join world other with
  | zero => exact ⟨rfl, rfl, hr⟩
  | succ count ih =>
    obtain ⟨result, after, later, hs, hf, rest⟩ := (next_together h join hr).cases
    obtain ⟨left, last, final, rfl, rfl, hr⟩ := rest.cases
    rw [take, take, hs, hf]
    rcases result with fault | _ | id
    · exact ⟨rfl, rfl, hr⟩
    · exact ⟨rfl, rfl, hr⟩
    · obtain ⟨ids, after, later, hs, hf, rest⟩ := (ih left hr).cases
      obtain ⟨left, last, final, rfl, rfl, hr⟩ := rest.cases
      dsimp only
      rw [hs, hf]
      cases ids <;> exact ⟨rfl, rfl, hr⟩

include h in
/-- All that is left of a join comes out the same. -/
theorem collect_together (join : MergeJoin) (hr : related world other) :
    Together (Together related) (collect calls join world) (collect others join other) := by
  obtain ⟨result, after, later, hs, hf, rest⟩ := (load_together h join hr).cases
  obtain ⟨loaded, last, final, rfl, rfl, hr⟩ := rest.cases
  rw [collect, collect, hs, hf]
  cases result with
  | error fault => exact ⟨rfl, rfl, hr⟩
  | ok => exact take_together h (loaded.remaining + 1) loaded hr

end MergeJoin

end PredicateIndex
