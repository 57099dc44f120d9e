import PredicateIndex.Proofs.EndedQueries
import PredicateIndex.Proofs.QueryShadows

/-!
# Queries that are cancelled while they run

A caller asks a running query for its matches one after the other, and at any
time somebody may cancel it: between two calls, or within a call before any
chain is read or any candidate is judged. Up to that point the run is the
undisturbed one. After it no id is given, and a run that has answered without
an id, whether it has ended, failed or been cancelled, has ended for good.
-/

set_option autoImplicit false

namespace PredicateIndex

open MergeJoin

variable {ω υ : Type}

/-- Cancelling a world is seen by the query, lasts, and does not change which candidates match. -/
structure Callbacks.Cancellable (calls : Callbacks ω) (cancel : ω → ω) : Prop where
  cancels : ∀ world, calls.isCancelled (cancel world) = true
  keeps : calls.Keep fun world => calls.isCancelled world = true
  judges : ∀ indicators world,
    (calls.matched indicators (cancel world)).1 = (calls.matched indicators world).1

def interrupt (cancel : ω → ω) : ω × Option Nat → ω × Option Nat
  | (world, some 0) => (cancel world, none)
  | (world, some (due + 1)) => (world, some due)
  | (world, none) => (world, none)

def Callbacks.interruptible (calls : Callbacks ω) (cancel : ω → ω) : Callbacks (ω × Option Nat) where
  readChain source key state :=
    let (world, due) := interrupt cancel state
    let (ids, world) := calls.readChain source key world
    (ids, world, due)
  matched indicators state :=
    let (world, due) := interrupt cancel state
    let (isMatch, world) := calls.matched indicators world
    (isMatch, world, due)
  stopsAt row column state :=
    let (world, due) := interrupt cancel state
    let (stops, world) := calls.stopsAt row column world
    (stops, world, due)
  isCancelled state := calls.isCancelled state.1

inductive RunEvent where
  /-- The caller asks for the next match; with a number, somebody cancels the query after that many
  callbacks of this call. -/
  | next (due : Option Nat)
  | cancel
  deriving DecidableEq, Repr

namespace MergeJoin

def run (calls : Callbacks ω) (cancel : ω → ω) : List RunEvent → MergeJoin → ω →
    List (Except Fault (Option RecordId)) × MergeJoin × ω
  | [], join, world => ([], join, world)
  | .cancel :: events, join, world => run calls cancel events join (cancel world)
  | .next due :: events, join, world =>
    let (answer, join, world, _) := next (calls.interruptible cancel) join (world, due)
    let (answers, join, world) := run calls cancel events join world
    (answer :: answers, join, world)

def yielded (answers : List (Except Fault (Option RecordId))) : List RecordId :=
  answers.filterMap fun
    | .ok found => found
    | .error _ => none

theorem yielded_eq_nil {answers : List (Except Fault (Option RecordId))}
    (h : ∀ answer ∈ answers, ∀ id, answer ≠ .ok (some id)) : yielded answers = [] := by
  refine List.filterMap_eq_nil_iff.mpr fun answer ha => ?_
  rcases answer with fault | _ | id
  · rfl
  · rfl
  · exact (h _ ha id rfl).elim

theorem yielded_cons_some (id : RecordId) (answers : List (Except Fault (Option RecordId))) :
    yielded (.ok (some id) :: answers) = id :: yielded answers := rfl

/-! ## Joins that have ended -/

section Ended

variable {calls : Callbacks ω} {join : MergeJoin} {world : ω}

/-- A step of a join ends it, or it takes an id from the streams and gives this id or goes on. -/
theorem pull_cases (calls : Callbacks ω) (fuel : Nat) (join : MergeJoin) (world : ω) :
    (∃ rest after, pull calls (fuel + 1) join world = (none, rest, after) ∧ rest.done = true) ∨
    ∃ id rest after, (pull calls (fuel + 1) join world = (some id, rest, after) ∨
        pull calls (fuel + 1) join world = pull calls fuel rest after) ∧
      rest.remaining < join.remaining ∧ rest.loaded = join.loaded := by
  rw [pull]
  split
  · rename_i hd
    exact .inl ⟨join, world, rfl, hd⟩
  · split
    · exact .inl ⟨_, world, rfl, rfl⟩
    · split
      · exact .inl ⟨_, world, rfl, rfl⟩
      · rename_i id hc
        simp only [advance_streams]
        split
        · exact .inr ⟨id, _, _, .inl rfl, remaining_skip_lt join hc, rfl⟩
        · exact .inr ⟨id, _, _, .inr rfl, remaining_skip_lt join hc, rfl⟩

theorem remaining_pull_lt {fuel : Nat} {id : RecordId} {rest : MergeJoin} {after : ω}
    (h : pull calls fuel join world = (some id, rest, after)) :
    rest.remaining < join.remaining ∧ rest.loaded = join.loaded := by
  induction fuel generalizing join world with
  | zero => cases h
  | succ fuel ih =>
    rcases pull_cases calls fuel join world with ⟨ended, _, hp, -⟩ |
      ⟨found, left, later, hp | hp, hless, hloaded⟩
    · cases hp.symm.trans h
    · cases hp.symm.trans h
      exact ⟨hless, hloaded⟩
    · obtain ⟨hrest, hsame⟩ := ih (hp.symm.trans h)
      exact ⟨Nat.lt_trans hrest hless, hsame.trans hloaded⟩

theorem pull_done {fuel : Nat} (hf : join.remaining < fuel)
    (h : (pull calls fuel join world).1 = none) : (pull calls fuel join world).2.1.done = true := by
  induction fuel generalizing join world with
  | zero => omega
  | succ fuel ih =>
    rcases pull_cases calls fuel join world with ⟨ended, _, hp, hd⟩ |
      ⟨found, left, later, hp | hp, hless, -⟩
    · rw [hp]
      exact hd
    · rw [hp] at h
      cases h
    · rw [hp] at h ⊢
      exact ih (by omega) h

theorem next_ends (h : ∀ id, (next calls join world).1 ≠ .ok (some id)) :
    (next calls join world).2.1.done = true := by
  rw [next] at h ⊢
  rcases hl : load calls join world with ⟨fault | _, loaded, after⟩
  · rw [load] at hl
    split at hl
    · cases hl
    · split at hl
      · cases hl
        rfl
      · cases hl
      · cases hl
  · rw [hl] at h
    dsimp only at h ⊢
    refine pull_done (Nat.lt_succ_self _) ?_
    rcases hp : (pull calls (loaded.remaining + 1) loaded after).1 with _ | id
    · rfl
    · exact (h id (by rw [hp])).elim

theorem run_done (calls : Callbacks ω) (cancel : ω → ω) (events : List RunEvent)
    (hd : join.done = true) (world : ω) :
    ∀ answer ∈ (run calls cancel events join world).1, answer = .ok none := by
  induction events generalizing world with
  | nil => simp [run]
  | cons event events ih =>
    cases event with
    | cancel => exact ih (cancel world)
    | next due =>
      rw [run, next_done _ hd]
      intro answer ha
      rcases List.mem_cons.mp ha with rfl | ha
      · rfl
      · exact ih world answer ha

theorem run_fused (calls : Callbacks ω) (cancel : ω → ω) (events : List RunEvent)
    (join : MergeJoin) (world : ω) :
    (run calls cancel events join world).1.Pairwise fun earlier later =>
      (∀ id, earlier ≠ .ok (some id)) → later = .ok none := by
  induction events generalizing join world with
  | nil => exact List.Pairwise.nil
  | cons event events ih =>
    cases event with
    | cancel => exact ih join (cancel world)
    | next due =>
      rw [run]
      refine List.pairwise_cons.mpr ⟨fun later hl hnone => ?_, ih _ _⟩
      exact run_done calls cancel events (next_ends hnone) _ later hl

end Ended

theorem failures_le_one {answers : List (Except Fault (Option RecordId))}
    (h : answers.Pairwise fun earlier later =>
      (∀ id, earlier ≠ .ok (some id)) → later = .ok none) :
    (answers.filter fun answer => answer.toOption.isNone).length ≤ 1 := by
  induction answers with
  | nil => simp
  | cons answer rest ih =>
    obtain ⟨hlater, hrest⟩ := List.pairwise_cons.mp h
    rcases answer with fault | found
    · have hend : ∀ later ∈ rest, ¬ later.toOption.isNone = true := by
        intro later hl
        rw [hlater later hl (by simp)]
        simp [Except.toOption]
      rw [List.filter_cons_of_pos (by simp [Except.toOption]),
        List.filter_eq_nil_iff.mpr hend]
      exact Nat.le_refl 1
    · rw [List.filter_cons_of_neg (by simp [Except.toOption])]
      exact ih hrest

/-! ## What a whole run gives -/

section Whole

variable (calls : Callbacks ω)

theorem exists_yields {join : MergeJoin} (hj : (join.loaded || join.done) = true) (world : ω) :
    ∃ ids, ids.length ≤ join.remaining ∧ Yields calls ids join world := by
  induction hn : join.remaining using Nat.strongRecOn generalizing join world with
  | ind count ih =>
    subst hn
    have hnext : next calls join world = (.ok (pull calls (join.remaining + 1) join world).1,
        (pull calls (join.remaining + 1) join world).2) := by
      rw [next, load, if_pos hj]
    rcases hp : pull calls (join.remaining + 1) join world with ⟨_ | id, rest, after⟩
    · refine ⟨[], Nat.zero_le _, ?_⟩
      rw [Yields, hnext, hp]
    · obtain ⟨hless, hloaded⟩ := remaining_pull_lt hp
      by_cases hd : join.done = true
      · have hnone : (pull calls (join.remaining + 1) join world).1 = none := by
          rw [pull, if_pos hd]
        rw [hp] at hnone
        cases hnone
      · have hrest : (rest.loaded || rest.done) = true := by
          rw [Bool.eq_false_iff.mpr hd, Bool.or_false] at hj
          rw [hloaded, hj, Bool.true_or]
        obtain ⟨ids, hlength, hyields⟩ := ih rest.remaining hless hrest after rfl
        refine ⟨id :: ids, ?_, rest, after, ?_, hyields⟩
        · rw [List.length_cons]
          omega
        · rw [hnext, hp]

theorem loaded_of_load {join loaded : MergeJoin} {world after : ω}
    (h : load calls join world = (.ok (), loaded, after)) :
    (loaded.loaded || loaded.done) = true := by
  rw [load] at h
  split at h
  · rename_i hj
    cases h
    exact hj
  · split at h
    · cases h
    · cases h
      exact Bool.or_true _
    · cases h
      exact Bool.true_or _

def Gives (ids : List RecordId) (join : MergeJoin) (world : ω) : Prop :=
  Yields calls ids join world ∨ ids = [] ∧ ∀ id, (next calls join world).1 ≠ .ok (some id)

theorem gives_collect (join : MergeJoin) (world : ω) :
    Gives calls ((collect calls join world).1.toOption.getD []) join world := by
  rcases hl : load calls join world with ⟨fault | _, loaded, after⟩
  · rw [collect, hl]
    exact .inr ⟨rfl, by simp [next, hl]⟩
  · have hj := loaded_of_load calls hl
    obtain ⟨ids, hlength, hyields⟩ := exists_yields calls hj after
    have hcollect : (collect calls join world).1 = .ok ids := by
      rw [collect, hl]
      dsimp only
      rw [hyields.take, List.take_of_length_le (by omega)]
    rw [hcollect]
    exact .inl (hyields.ofLoad hl (by rw [load, if_pos hj]))

variable {calls}

theorem Gives.of_next {join rest : MergeJoin} {world after : ω} {ids : List RecordId} {id : RecordId}
    (h : Gives calls ids join world) (hn : next calls join world = (.ok (some id), rest, after)) :
    ∃ tail, ids = id :: tail ∧ Yields calls tail rest after := by
  rcases h with hyields | ⟨-, hnone⟩
  · cases ids with
    | nil =>
      rw [Yields, hn] at hyields
      cases hyields
    | cons first tail =>
      obtain ⟨left, later, hf, hyields⟩ := hyields
      cases hf.symm.trans hn
      exact ⟨tail, rfl, hyields⟩
  · exact (hnone id (by rw [hn])).elim

end Whole

/-! ## Cancelled runs -/

section Cancelled

variable {calls : Callbacks ω} {others : Callbacks υ} {cancel : ω → ω} {related : ω → υ → Prop}

theorem interruptible_keeps (hc : calls.Cancellable cancel) :
    (calls.interruptible cancel).Keep
      fun state => (calls.interruptible cancel).isCancelled state = true := by
  have hkept : ∀ state : ω × Option Nat, calls.isCancelled state.1 = true →
      calls.isCancelled (interrupt cancel state).1 = true := by
    rintro ⟨world, _ | _ | due⟩ hw
    · exact hw
    · exact hc.cancels world
    · exact hw
  exact ⟨fun source key state hs => hc.keeps.readChain source key _ (hkept state hs),
    fun indicators state hs => hc.keeps.matched indicators _ (hkept state hs),
    fun row column state hs => hc.keeps.stopsAt row column _ (hkept state hs)⟩

/-- A query that somebody may cancel at any time shadows what the undisturbed one shadows. -/
theorem shadows_interruptible (h : calls.Shadows others related) (hc : calls.Cancellable cancel) :
    (calls.interruptible cancel).Shadows others fun state other => related state.1 other where
  readChain source key state other hr := by
    rcases state with ⟨world, _ | _ | due⟩
    · exact h.readChain source key world other hr
    · exact .inr (hc.keeps.readChain source key _ (hc.cancels world))
    · exact h.readChain source key world other hr
  matched indicators state other hr := by
    rcases state with ⟨world, _ | _ | due⟩
    · exact h.matched indicators world other hr
    · exact ⟨(hc.judges indicators world).trans (h.matched indicators world other hr).1,
        .inr (hc.keeps.matched indicators _ (hc.cancels world))⟩
    · exact h.matched indicators world other hr
  stopsAt row column state other hr := by
    rcases state with ⟨world, _ | _ | due⟩
    · exact h.stopsAt row column world other hr
    · exact .inr (hc.keeps.stopsAt row column _ (hc.cancels world))
    · exact h.stopsAt row column world other hr
  isCancelled state other hr := h.isCancelled state.1 other hr
  keeps := interruptible_keeps hc

theorem run_cancelled (hc : calls.Cancellable cancel) (events : List RunEvent) (join : MergeJoin)
    {world : ω} (hw : calls.isCancelled world = true) :
    ∀ answer ∈ (run calls cancel events join world).1, ∀ id, answer ≠ .ok (some id) := by
  induction events generalizing join world with
  | nil => simp [run]
  | cons event events ih =>
    cases event with
    | cancel => exact ih join (hc.cancels world)
    | next due =>
      have hcancelled : (calls.interruptible cancel).isCancelled (world, due) = true := hw
      obtain ⟨hnone, hafter⟩ := next_cancelled (interruptible_keeps hc) hcancelled join
      rw [run]
      intro answer ha
      rcases List.mem_cons.mp ha with rfl | ha
      · exact hnone
      · exact ih _ hafter answer ha

theorem run_append (calls : Callbacks ω) (cancel : ω → ω) (before later : List RunEvent)
    (join : MergeJoin) (world : ω) :
    (run calls cancel (before ++ later) join world).1 =
      (run calls cancel before join world).1 ++
        (run calls cancel later (run calls cancel before join world).2.1
          (run calls cancel before join world).2.2).1 := by
  induction before generalizing join world with
  | nil => rfl
  | cons event before ih =>
    cases event with
    | cancel => exact ih join (cancel world)
    | next due =>
      simp only [List.cons_append, run, ih]

theorem yielded_ended {answer : Except Fault (Option RecordId)}
    (hnone : ∀ id, answer ≠ .ok (some id)) (events : List RunEvent) {rest : MergeJoin}
    (hd : rest.done = true) (after : ω) :
    yielded (answer :: (run calls cancel events rest after).1) = [] := by
  refine yielded_eq_nil (List.forall_mem_cons.mpr ⟨hnone, fun late hl id => ?_⟩)
  rw [run_done calls cancel events hd after late hl]
  simp

/-- What a run gives that may be cancelled is a front of what the undisturbed run gives. -/
theorem yielded_front (h : calls.Shadows others related) (hc : calls.Cancellable cancel)
    (events : List RunEvent) {join : MergeJoin} {world : ω} {other : υ} {ids : List RecordId}
    (hr : related world other) (hids : Gives others ids join other) :
    yielded (run calls cancel events join world).1 <+: ids := by
  induction events generalizing join world other ids with
  | nil => exact List.nil_prefix
  | cons event events ih =>
    cases event with
    | cancel =>
      rw [run, yielded_eq_nil (run_cancelled hc events join (hc.cancels world))]
      exact List.nil_prefix
    | next due =>
      rw [run]
      have hpair : related (world, due).1 other := hr
      have hfollows := next_follows (shadows_interruptible h hc) join hpair
      rcases hn : next (calls.interruptible cancel) join (world, due) with
        ⟨answer, rest, after, left⟩
      dsimp only
      by_cases hid : ∃ id, answer = .ok (some id)
      · obtain ⟨id, rfl⟩ := hid
        rw [hn] at hfollows
        rw [yielded_cons_some]
        rcases hfollows with hsame | ⟨hcancelled, hgiven⟩
        · rcases hf : next others join other with ⟨found, again, later⟩
          rw [hf] at hsame
          obtain ⟨rfl, rfl, hr⟩ : .ok (some id) = found ∧ rest = again ∧ related after later := hsame
          obtain ⟨tail, rfl, hyields⟩ := hids.of_next hf
          exact List.cons_prefix_cons.mpr ⟨rfl, ih hr (.inl hyields)⟩
        · have hf := hgiven.resolve_right fun hnone => hnone id rfl
          obtain ⟨tail, rfl, -⟩ := hids.of_next (Prod.ext hf.symm rfl)
          rw [yielded_eq_nil (run_cancelled hc events rest hcancelled)]
          exact List.cons_prefix_cons.mpr ⟨rfl, List.nil_prefix⟩
      · have hnone : ∀ id, answer ≠ .ok (some id) := fun id he => hid ⟨id, he⟩
        have hended : (next (calls.interruptible cancel) join (world, due)).2.1.done = true := by
          refine next_ends ?_
          rw [hn]
          exact hnone
        rw [hn] at hended
        rw [yielded_ended hnone events hended]
        exact List.nil_prefix

end Cancelled

end MergeJoin

namespace Query

def answers (query : Query ω) (cancel : ω → ω) (events : List RunEvent) (world : ω) :
    List (Except Fault (Option RecordId)) :=
  (run query.calls cancel events (query.start none) world).1

def worldAfter (query : Query ω) (cancel : ω → ω) (events : List RunEvent) (world : ω) : ω :=
  (run query.calls cancel events (query.start none) world).2.2

/-- What a run that may be cancelled answers, next to all the ids of the undisturbed run. -/
structure Interrupted (query : Query ω) (cancel : ω → ω) (world : ω) (whole : List RecordId)
    (events : List RunEvent) : Prop where
  front : yielded (query.answers cancel events world) <+: whole
  /-- No call gives an id that comes after the query has been cancelled between two calls. -/
  silent : ∀ before later, events = before ++ .cancel :: later →
    ∃ late, query.answers cancel events world = query.answers cancel before world ++ late ∧
      yielded late = []
  /-- Nor does one that comes after the query has been cancelled within a call. -/
  stopped : ∀ before later, events = before ++ later →
    query.calls.isCancelled (query.worldAfter cancel before world) = true →
    ∃ late, query.answers cancel events world = query.answers cancel before world ++ late ∧
      yielded late = []
  failsOnce : ((query.answers cancel events world).filter
    fun answer => answer.toOption.isNone).length ≤ 1
  fused : (query.answers cancel events world).Pairwise fun earlier later =>
    (∀ id, earlier ≠ .ok (some id)) → later = .ok none

theorem interrupted_of_shadows {query : Query ω} {undisturbed : Query υ} {cancel : ω → ω}
    {related : ω → υ → Prop} (hsources : undisturbed.sources = query.sources)
    (hstart : undisturbed.startAfter = query.startAfter)
    (h : query.calls.Shadows undisturbed.calls related) (hc : query.calls.Cancellable cancel)
    {world : ω} {other : υ} (hr : related world other) (events : List RunEvent) :
    query.Interrupted cancel world ((undisturbed.collect other).1.toOption.getD []) events where
  front := by
    have hsame : undisturbed.start none = query.start none := by
      rw [start, start, hsources, hstart]
    rw [collect, hsame]
    exact yielded_front h hc events hr (gives_collect undisturbed.calls (query.start none) other)
  silent before later he := by
    subst he
    rw [answers, run_append]
    refine ⟨_, rfl, yielded_eq_nil ?_⟩
    rw [run]
    exact run_cancelled hc later _ (hc.cancels _)
  stopped before later he hw := by
    subst he
    rw [answers, run_append]
    exact ⟨_, rfl, yielded_eq_nil (run_cancelled hc later _ hw)⟩
  failsOnce := failures_le_one (run_fused query.calls cancel events (query.start none) world)
  fused := run_fused query.calls cancel events (query.start none) world

end Query

namespace Manager

variable {D : Type}

def interruptWorld (world : QueryWorld D) : QueryWorld D :=
  { world with trace := world.trace.cancel }

theorem cancellable_callbacks (combinator : Option (Indicators → Bool)) (settings : QuerySettings) :
    (callbacks (D := D) combinator settings).Cancellable interruptWorld where
  cancels _ := rfl
  keeps := by
    refine ⟨fun _ _ _ hw => hw, fun indicators world hw => ?_, fun row column world hw => ?_⟩
    · cases combinator with
      | none => exact hw
      | some judge => exact Bool.or_eq_true_iff.mpr (.inl hw)
    · simp only [callbacks, Trace.stopsAt]
      split <;> exact hw
  judges _ _ := by cases combinator <;> rfl

structure Alike (world other : QueryWorld D) : Prop where
  manager : other.manager = world.manager
  disk : other.disk = world.disk
  going : world.trace.cancelled = false
  stillGoing : other.trace.cancelled = false

theorem shadows_callbacks (combinator : Option (Indicators → Bool)) (settings : QuerySettings) :
    (callbacks (D := D) combinator settings).Shadows
      (callbacks combinator { settings with cancelAt := none }) Alike where
  readChain source key world other hr := by
    refine .inl ⟨?_, ?_, hr.disk, hr.going, hr.stillGoing⟩ <;>
    · simp only [callbacks, hr.manager, hr.disk, hr.going, hr.stillGoing]
  matched indicators world other hr := by
    cases combinator with
    | none => exact ⟨rfl, .inl ⟨rfl, hr⟩⟩
    | some judge =>
      refine ⟨rfl, ?_⟩
      by_cases hc : settings.cancelAt = some (world.trace.judged + 1)
      · exact .inr (Bool.or_eq_true_iff.mpr (.inr (decide_eq_true hc)))
      · refine .inl ⟨rfl, hr.manager, hr.disk, ?_, ?_⟩
        · simp [callbacks, Trace.judge, hr.going, hc]
        · simp [callbacks, Trace.judge, hr.stillGoing]
  stopsAt row column world other hr := by
    rcases settings with ⟨startAfter, _ | _ | selected, cancelAt⟩
    · exact .inl ⟨rfl, hr⟩
    · exact .inl ⟨rfl, hr⟩
    · exact .inl ⟨rfl, hr.manager, hr.disk, hr.going, hr.stillGoing⟩
  isCancelled world other hr := hr.going.trans hr.stillGoing.symm
  keeps := (cancellable_callbacks combinator settings).keeps

end Manager

/-- However the calls for a next match and the cancellation of a query interleave, and whether or
not a chain can be read: the ids that are given are a front of those of the undisturbed query, no
call after the cancellation gives one, at most one call fails, and after an answer without an id
all others say that there is no more. -/
theorem interrupted_runs :
    (∀ (ω : Type) (query : Query ω) (cancel : ω → ω) (world : ω) (events : List RunEvent),
      query.calls.Cancellable cancel →
      query.Interrupted cancel world ((query.collect world).1.toOption.getD []) events) ∧
    ∀ (D : Type) (manager : Manager D) (terms : List QueryTerms)
        (combinator : Option (Indicators → Bool)) (settings : QuerySettings)
        (query : Query (QueryWorld D)),
      manager.prepare terms combinator settings = .ok query →
      ∃ undisturbed,
        manager.prepare terms combinator { settings with cancelAt := none } = .ok undisturbed ∧
        ∀ world events, world.trace.cancelled = false →
          query.Interrupted Manager.interruptWorld world
            ((undisturbed.collect world).1.toOption.getD []) events := by
  constructor
  · intro ω query cancel world events hc
    exact Query.interrupted_of_shadows rfl rfl (.self hc.keeps) hc rfl events
  · intro D manager terms combinator settings query hprepared
    obtain ⟨hshape, -⟩ := Manager.prepare_ok hprepared
    refine ⟨_, Manager.prepare_settings hprepared _, fun world events hgoing => ?_⟩
    have hcalls : query.calls = Manager.callbacks combinator settings := by rw [hshape]
    have hshadows : query.calls.Shadows
        (Manager.callbacks combinator { settings with cancelAt := none }) Manager.Alike := by
      rw [hcalls]
      exact Manager.shadows_callbacks combinator settings
    have hcancellable : query.calls.Cancellable Manager.interruptWorld := by
      rw [hcalls]
      exact Manager.cancellable_callbacks combinator settings
    have hworld : Manager.Alike world world := ⟨rfl, rfl, hgoing, hgoing⟩
    refine Query.interrupted_of_shadows ?_ ?_ hshadows hcancellable hworld events
    · rfl
    · rw [hshape]

def haltingChains : Callbacks Bool where
  readChain source key halted :=
    (if halted then .ok none else ((endingChains fun _ => true).readChain source key ()).1, halted)
  matched _ halted := (true, halted)
  stopsAt _ _ halted := (false, halted)
  isCancelled halted := halted

def haltingQuery : Query Bool := ⟨endingQuery.sources, none, haltingChains⟩

/-- A run that is cancelled before it reads the second chain, one that is cancelled while it judges
its second candidate, and the odd and the large numbers, cancelled after the first of them. -/
theorem interrupted_runs_of_two_chains :
    (haltingQuery.Interrupted (fun _ => true) false
        [⟨1, 1⟩, ⟨3, 1⟩, ⟨4, 1⟩, ⟨5, 1⟩, ⟨6, 1⟩, ⟨7, 1⟩] [.next (some 1), .next none] ∧
      haltingQuery.Interrupted (fun _ => true) false
        [⟨1, 1⟩, ⟨3, 1⟩, ⟨4, 1⟩, ⟨5, 1⟩, ⟨6, 1⟩, ⟨7, 1⟩] [.next none, .next (some 0), .next none] ∧
      haltingQuery.answers (fun _ => true) [.next (some 1), .next none] false =
        [.ok none, .ok none] ∧
      haltingQuery.answers (fun _ => true) [.next none, .next (some 0), .next none] false =
        [.ok (some ⟨1, 1⟩), .ok (some ⟨3, 1⟩), .ok none]) ∧
    ∃ manager disk even large query, Manager.evenAndLarge = some (manager, disk, even, large) ∧
      manager.prepare (oddOrLarge even large) none { endRule := .streams [(0, 0)] } = .ok query ∧
      query.Interrupted Manager.interruptWorld { manager, disk }
        [⟨1, 1⟩, ⟨3, 1⟩, ⟨4, 1⟩, ⟨5, 1⟩] [.next none, .cancel, .next none] := by
  have hkeeps : haltingQuery.calls.Keep fun world => haltingQuery.calls.isCancelled world = true :=
    ⟨fun _ _ _ hw => hw, fun _ _ hw => hw, fun _ _ _ hw => hw⟩
  have hcancellable : haltingQuery.calls.Cancellable fun _ => true :=
    ⟨fun _ => rfl, hkeeps, fun _ _ => rfl⟩
  constructor
  · exact ⟨interrupted_runs.1 Bool haltingQuery (fun _ => true) false _ hcancellable,
      interrupted_runs.1 Bool haltingQuery (fun _ => true) false _ hcancellable, by rfl, by rfl⟩
  · obtain ⟨manager, disk, even, large, endless, query, hmanager, -, hquery, -, hcollect⟩ :=
      oddOrLarge_runs
    obtain ⟨undisturbed, hundisturbed, hruns⟩ := interrupted_runs.2 Nat manager
      (oddOrLarge even large) none { endRule := .streams [(0, 0)] } query hquery
    obtain rfl := Except.ok.inj (hundisturbed.symm.trans hquery)
    have hrun := hruns { manager, disk } [.next none, .cancel, .next none] rfl
    rw [hcollect] at hrun
    exact ⟨manager, disk, even, large, undisturbed, hmanager, hquery, hrun⟩

end PredicateIndex
