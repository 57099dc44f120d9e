import PredicateIndex.Proofs.PagedQueries

/-!
# Joins in two worlds, one of which may be cancelled

A join in a world that may be cancelled does what it does in an undisturbed
world up to the point where it is cancelled. The step in which this happens
gives what the undisturbed one gives or no id, and no later step gives an id.
-/

set_option autoImplicit false

namespace PredicateIndex

variable {ω υ : Type}

def Callbacks.Follows (calls : Callbacks ω) {α : Type} (related : ω → υ → Prop) (here : α × ω)
    (there : α × υ) : Prop :=
  Together related here there ∨ calls.isCancelled here.2 = true

/-- Whatever is called back, the first world answers as the second one does and stays related to
it, or it is cancelled, and then remains so. Matches are judged alike even if they cancel it. -/
structure Callbacks.Shadows (calls : Callbacks ω) (others : Callbacks υ)
    (related : ω → υ → Prop) : Prop where
  readChain : ∀ source key world other, related world other →
    calls.Follows related (calls.readChain source key world) (others.readChain source key other)
  matched : ∀ indicators world other, related world other →
    (calls.matched indicators world).1 = (others.matched indicators other).1 ∧
      calls.Follows related (calls.matched indicators world) (others.matched indicators other)
  stopsAt : ∀ row column world other, related world other →
    calls.Follows related (calls.stopsAt row column world) (others.stopsAt row column other)
  isCancelled : ∀ world other, related world other →
    calls.isCancelled world = others.isCancelled other
  keeps : calls.Keep fun world => calls.isCancelled world = true

variable {calls : Callbacks ω} {others : Callbacks υ} {related : ω → υ → Prop} {world : ω}
  {other : υ}

theorem Callbacks.Shadows.self (h : calls.Keep fun world => calls.isCancelled world = true) :
    calls.Shadows calls fun world other => world = other where
  readChain := by
    rintro source key world _ rfl
    exact .inl ⟨rfl, rfl⟩
  matched := by
    rintro indicators world _ rfl
    exact ⟨rfl, .inl ⟨rfl, rfl⟩⟩
  stopsAt := by
    rintro row column world _ rfl
    exact .inl ⟨rfl, rfl⟩
  isCancelled := by
    rintro world _ rfl
    rfl
  keeps := h

theorem gather_cancelled {α β : Type} {step : α → ω → Except Fault (Option β) × ω}
    (h : ∀ item world, calls.isCancelled world = true →
      calls.isCancelled (step item world).2 = true)
    (items : List α) (hw : calls.isCancelled world = true) :
    calls.isCancelled (gather step items world).2 = true := by
  have hstep : ∀ item (world other : ω), other = world ∧ calls.isCancelled world = true →
      Together (fun world other => other = world ∧ calls.isCancelled world = true)
        (step item world) (step item other) := by
    rintro item world other ⟨rfl, hw⟩
    exact ⟨rfl, rfl, h item other hw⟩
  exact (gather_together hstep items ⟨rfl, hw⟩).2.2

theorem gather_follows {α β : Type} {step : α → ω → Except Fault (Option β) × ω}
    {follow : α → υ → Except Fault (Option β) × υ}
    (h : ∀ item world other, related world other →
      calls.Follows related (step item world) (follow item other))
    (hkeeps : ∀ item world, calls.isCancelled world = true →
      calls.isCancelled (step item world).2 = true)
    (items : List α) (hr : related world other) :
    calls.Follows related (gather step items world) (gather follow items other) := by
  induction items generalizing world other with
  | nil => exact .inl ⟨rfl, hr⟩
  | cons item rest ih =>
    rw [gather, gather]
    rcases h item world other hr with hsame | hcancelled
    · obtain ⟨result, after, later, hs, hf, hr⟩ := hsame.cases
      rw [hs, hf]
      rcases result with fault | _ | first
      · exact .inl ⟨rfl, hr⟩
      · exact .inl ⟨rfl, hr⟩
      · dsimp only
        rcases ih hr with hsame | hcancelled
        · obtain ⟨results, last, final, hs, hf, hr⟩ := hsame.cases
          rw [hs, hf]
          rcases results with fault | _ | results <;> exact .inl ⟨rfl, hr⟩
        · right
          rcases hg : gather step rest after with ⟨fault | _ | results, last⟩ <;>
          · rw [hg] at hcancelled
            exact hcancelled
    · right
      rcases hs : step item world with ⟨fault | _ | first, after⟩ <;> rw [hs] at hcancelled
      · exact hcancelled
      · exact hcancelled
      · have hrest := gather_cancelled hkeeps rest hcancelled
        dsimp only
        rcases hg : gather step rest after with ⟨fault | _ | results, last⟩ <;>
        · rw [hg] at hrest
          exact hrest

namespace MergeJoin

/-! ## After the cancellation -/

section Cancelled

variable (hkeeps : calls.Keep fun world => calls.isCancelled world = true)
  (hw : calls.isCancelled world = true)

include hkeeps hw

theorem load_cancelled (join : MergeJoin) : calls.isCancelled (load calls join world).2.2 = true :=
  (load_together hkeeps.simulates join ⟨rfl, hw⟩).2.2.2

theorem advance_cancelled (id : RecordId) (row : Nat) (streams : List (List (List RecordId))) :
    calls.isCancelled (advance calls id row streams world).2.2 = true :=
  (advance_together hkeeps.simulates id row streams ⟨rfl, hw⟩).2.2.2

omit hkeeps in
theorem pull_cancelled (fuel : Nat) (join : MergeJoin) :
    (pull calls fuel join world).1 = none ∧
      calls.isCancelled (pull calls fuel join world).2.2 = true := by
  cases fuel with
  | zero => exact ⟨rfl, hw⟩
  | succ fuel =>
    rw [pull]
    split
    · exact ⟨rfl, hw⟩
    · exact ⟨rfl, hw⟩

theorem next_cancelled (join : MergeJoin) :
    (∀ id, (next calls join world).1 ≠ .ok (some id)) ∧
      calls.isCancelled (next calls join world).2.2 = true := by
  have hloaded := load_cancelled hkeeps hw join
  rw [next]
  rcases hl : load calls join world with ⟨fault | _, loaded, after⟩ <;> rw [hl] at hloaded
  · exact ⟨by simp, hloaded⟩
  · obtain ⟨hnone, hafter⟩ := pull_cancelled hloaded (loaded.remaining + 1) loaded
    exact ⟨by simp [hnone], hafter⟩

end Cancelled

/-! ## Up to the cancellation -/

variable (h : calls.Shadows others related)

include h in
theorem loadStreams_follows (join : MergeJoin) (hr : related world other) :
    calls.Follows related (loadStreams calls join world) (loadStreams others join other) := by
  have hread : calls.Follows related (readAll calls join.sources world)
      (readAll others join.sources other) := by
    refine gather_follows (fun row world other hr => ?_) (fun row world hw => ?_) join.sources hr
    · refine gather_follows (fun source world other hr => ?_) (fun source world hw => ?_) row hr
      · exact gather_follows (h.readChain source) (h.keeps.readChain source) source.keys hr
      · exact gather_cancelled (h.keeps.readChain source) source.keys hw
    · exact gather_cancelled (fun source world hw =>
        gather_cancelled (h.keeps.readChain source) source.keys hw) row hw
  rw [loadStreams_eq, loadStreams_eq]
  exact hread.imp_left fun hsame => ⟨by rw [hsame.1], hsame.2⟩

include h in
theorem emptyStopsRow_follows (row column : Nat) (streams : List (List RecordId))
    (hr : related world other) :
    calls.Follows related (emptyStopsRow calls row column streams world)
      (emptyStopsRow others row column streams other) := by
  induction streams generalizing column world other with
  | nil => exact .inl ⟨rfl, hr⟩
  | cons stream rest ih =>
    cases stream with
    | cons id ids => exact ih (column + 1) hr
    | nil =>
      rw [emptyStopsRow, emptyStopsRow]
      rcases h.stopsAt row column world other hr with hsame | hcancelled
      · obtain ⟨stops, after, later, hs, hf, hr⟩ := hsame.cases
        rw [hs, hf]
        cases stops with
        | true => exact .inl ⟨rfl, hr⟩
        | false => exact ih (column + 1) hr
      · right
        rcases hs : calls.stopsAt row column world with ⟨_ | _, after⟩ <;> rw [hs] at hcancelled
        · exact (emptyStopsRow_together h.keeps.simulates row (column + 1) rest
            ⟨rfl, hcancelled⟩).2.2
        · exact hcancelled

include h in
theorem emptyStops_follows (row : Nat) (streams : List (List (List RecordId)))
    (hr : related world other) :
    calls.Follows related (emptyStops calls row streams world)
      (emptyStops others row streams other) := by
  induction streams generalizing row world other with
  | nil => exact .inl ⟨rfl, hr⟩
  | cons first rest ih =>
    rw [emptyStops, emptyStops]
    rcases emptyStopsRow_follows h row 0 first hr with hsame | hcancelled
    · obtain ⟨stops, after, later, hs, hf, hr⟩ := hsame.cases
      rw [hs, hf]
      cases stops with
      | true => exact .inl ⟨rfl, hr⟩
      | false => exact ih (row + 1) hr
    · right
      rcases hs : emptyStopsRow calls row 0 first world with ⟨_ | _, after⟩ <;> rw [hs] at hcancelled
      · exact (emptyStops_together h.keeps.simulates (row + 1) rest ⟨rfl, hcancelled⟩).2.2
      · exact hcancelled

include h in
theorem load_follows (join : MergeJoin) (hr : related world other) :
    Together (Together related) (load calls join world) (load others join other) ∨
      calls.isCancelled (load calls join world).2.2 = true := by
  rw [load, load]
  split
  · exact .inl ⟨rfl, rfl, hr⟩
  · rcases loadStreams_follows h join hr with hsame | hcancelled
    · obtain ⟨result, after, later, hs, hf, hr⟩ := hsame.cases
      rw [hs, hf]
      rcases result with fault | _ | streams
      · exact .inl ⟨rfl, rfl, hr⟩
      · exact .inl ⟨rfl, rfl, hr⟩
      · dsimp only
        rcases emptyStops_follows h 0 streams hr with hsame | hcancelled
        · obtain ⟨stops, last, final, hs, hf, hr⟩ := hsame.cases
          rw [hs, hf]
          exact .inl ⟨rfl, rfl, hr⟩
        · exact .inr hcancelled
    · right
      rcases hs : loadStreams calls join world with ⟨fault | _ | streams, after⟩ <;>
        rw [hs] at hcancelled
      · exact hcancelled
      · exact hcancelled
      · exact (emptyStops_together h.keeps.simulates 0 streams ⟨rfl, hcancelled⟩).2.2

include h in
theorem advanceRow_follows (id : RecordId) (row column : Nat) (streams : List (List RecordId))
    (hr : related world other) :
    Together (Together related) (advanceRow calls id row column streams world)
        (advanceRow others id row column streams other) ∨
      calls.isCancelled (advanceRow calls id row column streams world).2.2 = true := by
  induction streams generalizing column world other with
  | nil => exact .inl ⟨rfl, rfl, hr⟩
  | cons stream rest ih =>
    rw [advanceRow, advanceRow]
    split
    · have hend : calls.Follows related
          (if stream.tail = [] then calls.stopsAt row column world else (false, world))
          (if stream.tail = [] then others.stopsAt row column other else (false, other)) := by
        split
        · exact h.stopsAt row column world other hr
        · exact .inl ⟨rfl, hr⟩
      rcases hend with hsame | hcancelled
      · obtain ⟨stops, after, later, hs, hf, hr⟩ := hsame.cases
        rw [hs, hf]
        refine (ih (column + 1) hr).imp_left ?_
        rintro ⟨left, ended, hr⟩
        exact ⟨congrArg (stream.tail :: ·) left, congrArg (stops || ·) ended, hr⟩
      · exact .inr (advanceRow_together h.keeps.simulates id row (column + 1) rest
          ⟨rfl, hcancelled⟩).2.2.2
    · refine (ih (column + 1) hr).imp_left ?_
      rintro ⟨left, ended, hr⟩
      exact ⟨congrArg (stream :: ·) left, ended, hr⟩

include h in
theorem advance_follows (id : RecordId) (row : Nat) (streams : List (List (List RecordId)))
    (hr : related world other) :
    Together (Together related) (advance calls id row streams world)
        (advance others id row streams other) ∨
      calls.isCancelled (advance calls id row streams world).2.2 = true := by
  induction streams generalizing row world other with
  | nil => exact .inl ⟨rfl, rfl, hr⟩
  | cons first rest ih =>
    rw [advance, advance]
    rcases advanceRow_follows h id row 0 first hr with ⟨left, ended, hr⟩ | hcancelled
    · refine (ih (row + 1) hr).imp_left ?_
      rintro ⟨others, later, hr⟩
      exact ⟨by simp only [left, others], by simp only [ended, later], hr⟩
    · exact .inr (advance_cancelled h.keeps hcancelled id (row + 1) rest)

include h in
/-- The candidate that is being judged when a join is cancelled may still be given. -/
theorem pull_follows (fuel : Nat) (join : MergeJoin) (hr : related world other) :
    Together (Together related) (pull calls fuel join world) (pull others fuel join other) ∨
      calls.isCancelled (pull calls fuel join world).2.2 = true ∧
        ((pull calls fuel join world).1 = (pull others fuel join other).1 ∨
          (pull calls fuel join world).1 = none) := by
  induction fuel generalizing join world other with
  | zero => exact .inl ⟨rfl, rfl, hr⟩
  | succ fuel ih =>
    rw [pull, pull, h.isCancelled world other hr]
    split
    · exact .inl ⟨rfl, rfl, hr⟩
    · split
      · exact .inl ⟨rfl, rfl, hr⟩
      · split
        · exact .inl ⟨rfl, rfl, hr⟩
        · rename_i id _
          obtain ⟨hmatch, hfollows⟩ := h.matched (indicators id join.streams) world other hr
          rcases hm : calls.matched (indicators id join.streams) world with ⟨isMatch, after⟩
          rcases ho : others.matched (indicators id join.streams) other with ⟨judged, later⟩
          rw [hm, ho] at hmatch hfollows
          dsimp only at hmatch ⊢
          subst hmatch
          have hadvance : Together (Together related) (advance calls id 0 join.streams after)
                (advance others id 0 join.streams later) ∨
              calls.isCancelled (advance calls id 0 join.streams after).2.2 = true := by
            rcases hfollows with ⟨-, hr⟩ | hcancelled
            · exact advance_follows h id 0 join.streams hr
            · exact .inr (advance_cancelled h.keeps hcancelled id 0 join.streams)
          rcases hadvance with ⟨left, ended, hr⟩ | hcancelled
          · rw [left, ended]
            cases isMatch with
            | true => exact .inl ⟨rfl, rfl, hr⟩
            | false => exact ih _ hr
          · right
            cases isMatch with
            | true => exact ⟨hcancelled, .inl rfl⟩
            | false =>
              obtain ⟨hnone, hafter⟩ := pull_cancelled hcancelled fuel _
              exact ⟨hafter, .inr hnone⟩

include h in
theorem next_follows (join : MergeJoin) (hr : related world other) :
    Together (Together related) (next calls join world) (next others join other) ∨
      calls.isCancelled (next calls join world).2.2 = true ∧
        ((next calls join world).1 = (next others join other).1 ∨
          ∀ id, (next calls join world).1 ≠ .ok (some id)) := by
  rcases load_follows h join hr with hsame | hcancelled
  · obtain ⟨result, after, later, hs, hf, rest⟩ := hsame.cases
    obtain ⟨loaded, last, final, rfl, rfl, hr⟩ := rest.cases
    rw [next, next, hs, hf]
    cases result with
    | error fault => exact .inl ⟨rfl, rfl, hr⟩
    | ok =>
      rcases pull_follows h (loaded.remaining + 1) loaded hr with ⟨found, hr⟩ |
        ⟨hcancelled, hgiven⟩
      · exact .inl ⟨congrArg Except.ok found, hr⟩
      · refine .inr ⟨hcancelled, hgiven.imp (congrArg Except.ok) fun hnone => ?_⟩
        simp [hnone]
  · right
    rw [next]
    rcases hl : load calls join world with ⟨fault | _, loaded, after⟩ <;> rw [hl] at hcancelled
    · exact ⟨hcancelled, .inr (by simp)⟩
    · obtain ⟨hnone, hafter⟩ := pull_cancelled hcancelled (loaded.remaining + 1) loaded
      exact ⟨hafter, .inr (by simp [hnone])⟩

end MergeJoin

end PredicateIndex
