import PredicateIndex.Proofs.CheckpointMoments

/-!
# The checkpoints of a run

A course is a run of a store with notes: it remembers the store and the disk at
the time a checkpoint was captured, and which of these checkpoints were
completed. The checkpoint directory then has exactly the parts of the completed
ones, and the log on disk reaches up to where each of their log parts ends.
-/

set_option autoImplicit false

namespace PredicateIndex

open CheckpointDir

structure Course where
  store : Store
  disk : Disk
  taken : Option Moment := none
  completed : List Moment := []

def Store.Op.token? : Store.Op → Option Token
  | take _ token => some token
  | _ => none

theorem Store.captured_upsert (store : Store) (session : Session) (key : CompositeKey)
    (id : RecordId) (tombstone : Bool) (disk : Disk) :
    (Store.step (.upsert session key id tombstone) (store, disk)).1.captured = store.captured := by
  cases hr : store.awaitingRecovery with
  | true => rw [step_upsert_awaiting hr]
  | false =>
    rw [step_upsert hr, evictIfFull]
    split <;> rfl

theorem Store.captured_abort {store : Store} {taken : Option Moment}
    (h : store.captured = taken.map Moment.captured) (token : Token) :
    (store.abort token).captured =
      (taken.filter fun moment => moment.token ≠ token).map Moment.captured := by
  rw [abort, h]
  cases taken with
  | none => exact h
  | some moment =>
    have hm : moment.captured.token = moment.token := rfl
    by_cases ht : moment.token = token
    · simp [hm, ht, Option.filter]
    · simp [hm, ht, h, Option.filter]

namespace Course

def step (op : Store.Op) (course : Course) : Course :=
  let (store, disk) := Store.step op (course.store, course.disk)
  match op with
  | .take kind token =>
    match course.store.take kind token with
    | .ok (true, _) =>
      { course with store, disk, taken := some ⟨kind, token, course.store, course.disk⟩ }
    | _ => { course with store, disk }
  | .abort token =>
    { course with store, disk, taken := course.taken.filter fun moment => moment.token ≠ token }
  | .complete =>
    match (course.store.complete course.disk).1 with
    | .ok (some _) =>
      { store, disk, completed := course.taken.toList ++ course.completed }
    | _ => { course with store, disk }
  | _ => { course with store, disk }

def run : List Store.Op → Course → Course
  | [], course => course
  | op :: ops, course => run ops (course.step op)

def moments (course : Course) : List Moment := course.taken.toList ++ course.completed

theorem moments_taken {course : Course} {moment : Moment} (h : course.taken = some moment) :
    course.moments = moment :: course.completed := by
  rw [moments, h]
  rfl

theorem step_state (op : Store.Op) (course : Course) :
    ((course.step op).store, (course.step op).disk) = Store.step op (course.store, course.disk) := by
  rw [step]
  cases op with
  | take kind token => dsimp only; split <;> rfl
  | complete => dsimp only; split <;> rfl
  | _ => rfl

theorem run_state (ops : List Store.Op) (course : Course) :
    ((course.run ops).store, (course.run ops).disk) = Store.run ops (course.store, course.disk) := by
  induction ops generalizing course with
  | nil => rfl
  | cons op ops ih => rw [run, ih, step_state, Store.run]

theorem dir_run (ops : List Store.Op) (course : Course) :
    (course.run ops).store.dir = course.store.dir := by
  have hsame := Store.run_same ops course.store course.disk
  rw [← run_state] at hsame
  exact hsame.dir

def Ascends (moments : List Moment) (ops : List Store.Op) : Prop :=
  (ops.filterMap Store.Op.token?).Pairwise (fun a b => a.value < b.value) ∧
    ∀ token ∈ ops.filterMap Store.Op.token?, ∀ moment ∈ moments, moment.token.value < token.value

instance (moments : List Moment) (ops : List Store.Op) : Decidable (Ascends moments ops) :=
  inferInstanceAs (Decidable (_ ∧ _))

structure Sound (course : Course) (place : Path) (history : List LogRecord) : Prop where
  logs : course.store.Logs course.disk place history
  tends : course.store.Tends course.disk place
  captured : course.store.captured = course.taken.map Moment.captured
  parts : Lists course.disk place course.completed
  flushed : ∀ moment ∈ course.completed, moment.kind.hasLog = true →
    moment.store.log.tail ≤ course.store.log.flushed
  tailed : ∀ moment, course.taken = some moment → moment.store.log.tail ≤ course.store.log.tail
  newestFirst : Moment.NewestFirst course.moments

variable {course : Course} {place : Path} {history : List LogRecord}

theorem Sound.quiet (h : course.Sound place history) (op : Store.Op) (hc : op ≠ .complete)
    {store : Store} {disk : Disk} {taken : Option Moment}
    (hs : Store.step op (course.store, course.disk) = (store, disk))
    (hcaptured : store.captured = taken.map Moment.captured)
    (htaken : ∀ moment, taken = some moment → course.taken = some moment) :
    Sound ⟨store, disk, taken, course.completed⟩ place (history ++ course.store.adds op) := by
  have hlogs := (h.logs.step op).1
  obtain ⟨htends, hparts⟩ := h.tends.step h.logs hc
  have hflushed := h.logs.flushed_step op
  rw [hs] at hlogs htends hparts hflushed
  refine ⟨hlogs, htends, hcaptured, h.parts.congr hparts, fun moment hm hk => ?_,
    fun moment hm => ?_, ?_⟩
  · exact Nat.le_trans (h.flushed moment hm hk) hflushed
  · have htail := h.tailed moment (htaken moment hm)
    have hbefore := h.logs.tail_eq
    have hafter : store.log.tail = _ := hlogs.tail_eq
    rw [Log.image_append, List.length_append] at hafter
    show moment.store.log.tail ≤ store.log.tail
    omega
  · apply List.Pairwise.sublist _ h.newestFirst
    cases taken with
    | none => exact List.sublist_append_right _ _
    | some moment =>
      simp only [moments, htaken moment rfl, List.Sublist.refl]

theorem Sound.take (h : course.Sound place history) (kind : CheckpointKind) (token : Token)
    (ht : ∀ moment ∈ course.moments, moment.token.value < token.value) :
    (course.step (.take kind token)).Sound place history := by
  have hsame := h.captured
  rcases Store.take_cases course.store kind token with ⟨fault, hk⟩ | hk | ⟨hnone, hk⟩
  · have hstep : course.step (.take kind token) = course := by
      simp only [Course.step, Store.step, hk]
    rwa [hstep]
  · have hstep : course.step (.take kind token) = course := by
      simp only [Course.step, Store.step, hk]
    rwa [hstep]
  · have hstep : course.step (.take kind token) = { course with
        store := { course.store with captured := some (course.store.capture kind token) }
        taken := some ⟨kind, token, course.store, course.disk⟩ } := by
      simp only [Course.step, Store.step, hk]
    have hfree : course.taken = none := by
      cases hc : course.taken with
      | none => rfl
      | some moment =>
        rw [hnone, hc] at hsame
        cases hsame
    rw [hstep]
    refine ⟨h.logs.congr rfl rfl, h.tends.congr rfl rfl, rfl, h.parts, h.flushed,
      fun moment hm => ?_, ?_⟩
    · obtain rfl := Option.some.inj hm
      exact Nat.le_refl _
    · rw [moments, Option.toList_some, List.singleton_append, Moment.newestFirst_cons]
      constructor
      · intro moment hm
        refine ⟨ht moment (List.mem_append_right _ hm), fun hk => ?_⟩
        exact Nat.le_trans (h.flushed moment hm hk) h.logs.holds.flushed_le
      · have hp := h.newestFirst
        rw [moments, hfree] at hp
        exact hp

theorem Sound.captured_some (h : course.Sound place history) {moment : Moment}
    (ht : course.taken = some moment) : course.store.captured = some moment.captured := by
  rw [h.captured, ht]
  rfl

theorem Sound.step_complete (h : course.Sound place history) {moment : Moment}
    (ht : course.taken = some moment) :
    (course.store.complete course.disk).1 = .ok (some moment.token) ∧
      course.step .complete = ⟨(course.store.complete course.disk).2.1,
        (course.store.complete course.disk).2.2, none, moment :: course.completed⟩ := by
  obtain ⟨other, hcomplete, -⟩ := h.tends.complete_ok h.logs (h.captured_some ht)
  refine ⟨by rw [hcomplete]; rfl, ?_⟩
  simp only [Course.step, Store.step, hcomplete, ht]
  rfl

theorem Sound.complete (h : course.Sound place history) :
    (course.step .complete).Sound place history := by
  cases hc : course.taken with
  | none =>
    have hnone : course.store.captured = none := by rw [h.captured, hc]; rfl
    have hstep : course.step .complete = course := by
      simp only [Course.step, Store.step, Store.complete_none hnone]
    rwa [hstep]
  | some moment =>
    obtain ⟨other, hcomplete, htends, hindex, hlog⟩ :=
      h.tends.complete_ok h.logs (h.captured_some hc)
    have hlogs := h.logs.complete.1
    have hp := h.newestFirst
    rw [moments_taken hc] at hp
    have hstore := congrArg (·.2.1) hcomplete
    have hother : (course.store.complete course.disk).2.2 = other := by rw [hcomplete]
    rw [(h.step_complete hc).2, hother]
    rw [hother] at hlogs
    refine ⟨hlogs, htends, ?_, h.parts.add hp.fresh hindex hlog, fun earlier hm hk => ?_,
      fun _ hm => (Option.some_ne_none _ hm.symm).elim, hp⟩
    · exact congrArg Store.captured hstore
    · rcases List.mem_cons.mp hm with rfl | hm
      · have hpart : earlier.captured.log.isSome := by
          rw [Moment.captured, Store.capture, if_pos hk]
          rfl
        have htail := h.tailed earlier hc
        show _ ≤ (course.store.complete course.disk).2.1.log.flushed
        rw [hcomplete, if_pos hpart]
        exact htail
      · have hgrown := h.logs.flushed_step .complete
        exact Nat.le_trans (h.flushed earlier hm hk) hgrown

/-- Every operation keeps the notes in agreement with the store and its directory. -/
theorem Sound.step (h : course.Sound place history) {op : Store.Op}
    (ht : ∀ token, op.token? = some token → ∀ moment ∈ course.moments,
      moment.token.value < token.value) :
    (course.step op).Sound place (history ++ course.store.adds op) := by
  cases op with
  | take kind token =>
    rw [Store.adds_eq_nil course.store rfl, List.append_nil]
    exact h.take kind token (ht token rfl)
  | complete =>
    rw [Store.adds_eq_nil course.store rfl, List.append_nil]
    exact h.complete
  | abort token =>
    refine h.quiet (.abort token) (by simp) rfl ?_ fun moment hm => ?_
    · exact Store.captured_abort h.captured token
    · exact (Option.filter_eq_some_iff.mp hm).1
  | upsert session key id tombstone =>
    apply h.quiet (.upsert session key id tombstone) (by simp) rfl
    · exact (Store.captured_upsert ..).trans h.captured
    · exact fun _ hm => hm
  | _ => exact h.quiet _ (by simp) rfl h.captured fun _ hm => hm

theorem mem_moments_step {op : Store.Op} {moment : Moment}
    (hm : moment ∈ (course.step op).moments) :
    moment ∈ course.moments ∨
      ∃ kind token, op = .take kind token ∧ moment = ⟨kind, token, course.store, course.disk⟩ := by
  cases op with
  | take kind token =>
    rw [step] at hm
    dsimp only at hm
    split at hm
    · rcases List.mem_cons.mp hm with rfl | hm
      · exact Or.inr ⟨kind, token, rfl, rfl⟩
      · exact Or.inl (List.mem_append_right _ hm)
    · exact Or.inl hm
  | abort token =>
    rcases List.mem_append.mp hm with hm | hm
    · have htaken := (Option.filter_eq_some_iff.mp (Option.mem_toList.mp hm)).1
      exact Or.inl (List.mem_append_left _ (Option.mem_toList.mpr htaken))
    · exact Or.inl (List.mem_append_right _ hm)
  | complete =>
    rw [step] at hm
    dsimp only at hm
    split at hm <;> exact Or.inl hm
  | _ => exact Or.inl hm

theorem mem_moments_run {ops : List Store.Op} {moment : Moment}
    (hm : moment ∈ (course.run ops).moments) :
    moment ∈ course.moments ∨
      ∃ front back, ops = front ++ .take moment.kind moment.token :: back ∧
        (moment.store, moment.disk) = Store.run front (course.store, course.disk) := by
  induction ops generalizing course with
  | nil => exact Or.inl hm
  | cons op ops ih =>
    rcases ih hm with hm | ⟨front, back, rfl, hs⟩
    · rcases mem_moments_step hm with hm | ⟨kind, token, rfl, rfl⟩
      · exact Or.inl hm
      · exact Or.inr ⟨[], ops, rfl, rfl⟩
    · refine Or.inr ⟨op :: front, back, rfl, ?_⟩
      rw [hs, step_state, Store.run]

theorem logs_of_run (h : course.store.Logs course.disk place history) {ops : List Store.Op}
    {moment : Moment} (hm : moment ∈ (course.run ops).moments) :
    moment ∈ course.moments ∨ ∃ front, moment.store.Logs moment.disk place front ∧
      front <+: history ++ Store.added ops (course.store, course.disk) := by
  rcases mem_moments_run hm with hm | ⟨front, back, rfl, hs⟩
  · exact Or.inl hm
  · have hlogs := h.run front
    rw [← hs] at hlogs
    refine Or.inr ⟨_, hlogs, ?_⟩
    rw [Store.added_append, ← List.append_assoc]
    exact List.prefix_append _ _

theorem Ascends.step {op : Store.Op} {ops : List Store.Op}
    (h : Ascends course.moments (op :: ops)) :
    Ascends (course.step op).moments ops := by
  obtain ⟨hp, hb⟩ := h
  have hsublist : (ops.filterMap Store.Op.token?).Sublist ((op :: ops).filterMap Store.Op.token?) :=
    (List.sublist_cons_self op ops).filterMap _
  refine ⟨hp.sublist hsublist, fun token ht moment hm => ?_⟩
  rcases mem_moments_step hm with hm | ⟨kind, taken, rfl, rfl⟩
  · exact hb token (hsublist.subset ht) moment hm
  · rw [List.filterMap_cons_some (show Store.Op.token? (.take kind taken) = some taken from rfl)] at hp
    exact (List.pairwise_cons.mp hp).1 token ht

theorem Ascends.split {moments : List Moment} {ops rest : List Store.Op}
    (h : Ascends moments (ops ++ rest)) : Ascends moments ops ∧ ∀ {after : List Moment},
      (∀ moment ∈ after, moment ∈ moments ∨ moment.token ∈ ops.filterMap Store.Op.token?) →
        Ascends after rest := by
  obtain ⟨hp, hb⟩ := h
  rw [List.filterMap_append] at hp hb
  obtain ⟨hfirst, hrest, hcross⟩ := List.pairwise_append.mp hp
  constructor
  · exact ⟨hfirst, fun token ht => hb token (List.mem_append_left _ ht)⟩
  · intro after ha
    refine ⟨hrest, fun token ht moment hm => ?_⟩
    rcases ha moment hm with hm | hm
    · exact hb token (List.mem_append_right _ ht) moment hm
    · exact hcross moment.token hm token ht

/-- Completed checkpoints stay, and newer ones come before them. -/
theorem completed_run (ops : List Store.Op) (course : Course) :
    course.completed <:+ (course.run ops).completed := by
  induction ops generalizing course with
  | nil => exact List.suffix_refl _
  | cons op ops ih =>
    apply List.IsSuffix.trans _ (ih (course.step op))
    cases op with
    | take kind token =>
      rw [Course.step]
      dsimp only
      split <;> exact List.suffix_refl _
    | complete =>
      rw [Course.step]
      dsimp only
      split
      · exact List.suffix_append _ _
      · exact List.suffix_refl _
    | _ => exact List.suffix_refl _

theorem Sound.run (h : course.Sound place history) {ops : List Store.Op}
    (ht : Ascends course.moments ops) :
    (course.run ops).Sound place (history ++ Store.added ops (course.store, course.disk)) := by
  induction ops generalizing course history with
  | nil =>
    rw [Store.added, List.append_nil]
    exact h
  | cons op ops ih =>
    have hstep := h.step fun token htoken =>
      ht.2 token (List.mem_filterMap.mpr ⟨op, List.mem_cons_self, htoken⟩)
    have hrun := ih hstep ht.step
    rw [List.append_assoc, step_state] at hrun
    exact hrun

end Course

end PredicateIndex
