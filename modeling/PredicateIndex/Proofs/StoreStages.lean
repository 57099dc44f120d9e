import PredicateIndex.Proofs.Generations

/-!
# Stages in the life of a store

A store that can be opened works or awaits recovery. It stays at its stage
whatever it is asked to do, and what it leaves behind can be opened again. If
the newest log part belongs to a full checkpoint, recovering that one replays
nothing, so it succeeds, and the store works with the records of the checkpoint.
-/

set_option autoImplicit false

namespace PredicateIndex

open CheckpointDir

namespace Store

theorem recover_congr {store : Store} {disk : Disk} {index log other bound : Option Token}
    (h : store.recoverySource index log disk = store.recoverySource other bound disk) :
    store.recover index log disk = store.recover other bound disk := by
  rw [recover, recover, h]

namespace Reopened

variable {store : Store} {disk : Disk} {place : Path} {completed : List Moment}
  {index log : Option Token} {moment : Moment}

theorem source_full (h : store.Reopened disk place completed)
    (hn : completed.find? (·.kind.hasLog) = some moment) (hk : moment.kind = .full)
    (hf : moment.Fits) (hi : ∀ token ∈ index, token = moment.token)
    (hl : ∀ token ∈ log, token = moment.token) :
    store.recoverySource index log disk =
      .ok ⟨moment.token, moment.log, moment.store.heads, moment.index.logTail.toNat⟩ := by
  have hm := List.mem_of_find?_eq_some hn
  have hlogged := List.find?_some hn
  have hindexed : moment.kind.hasIndex = true := by rw [hk]; rfl
  have hlog : store.chooseLog log disk = .ok moment.token := by
    cases log with
    | none => exact h.chooseLog_newest hn
    | some token => rw [← hl token rfl]; rfl
  have hindex : store.chooseIndex index moment.token disk = .ok (some moment.token) := by
    cases index with
    | none =>
      have hfind : completed.find? (Moment.hasIndexUpTo moment.token) = some moment := by
        refine (Moment.newest_iff_find? h.newestFirst).mp ⟨hm, ?_, fun other _ ho => ?_⟩
        · simp [Moment.hasIndexUpTo, hindexed]
        · rw [Moment.hasIndexUpTo, Bool.and_eq_true, decide_eq_true_eq] at ho
          exact ho.2
      rw [h.chooseIndex_newest, hfind]
      rfl
    | some token => rw [← hi token rfl]; rfl
  rw [h.source_index hm hlogged hf hlog hm hindexed hf hindex, if_neg]
  exact UInt64.lt_irrefl _

theorem recover_full (h : store.Reopened disk place completed)
    (hfits : ∀ moment ∈ completed, moment.Fits)
    (hn : completed.find? (·.kind.hasLog) = some moment) (hk : moment.kind = .full)
    (hi : ∀ token ∈ index, token = moment.token) (hl : ∀ token ∈ log, token = moment.token)
    {history : List LogRecord} (hlogs : moment.store.Logs moment.disk place history) :
    ∃ recovered other, store.recover index log disk = (.ok moment.token, recovered, other) ∧
      recovered.awaitingRecovery = false ∧
      recovered.sessions = store.sessions.restore moment.store.sessions.commitPoints ∧
      Course.Sound { store := recovered, disk := other, completed } place history := by
  have hm := List.mem_of_find?_eq_some hn
  have hlogged := List.find?_some hn
  have hf := hfits moment hm
  have hsource := h.source_full hn hk hf hi hl
  have hdefault : store.recoverySource none none disk =
      .ok ⟨moment.token, moment.log, moment.store.heads, moment.index.logTail.toNat⟩ :=
    h.source_full hn hk hf (by simp) (by simp)
  have htail : moment.index.logTail.toNat = moment.store.log.tail :=
    UInt64.toNat_ofNat_of_lt' hf.tail
  have hread : moment.store.recordsFrom moment.disk moment.index.logTail.toNat = .ok [] := by
    rw [hlogs.recordsFrom_eq, htail, hlogs.tail_eq, Nat.add_sub_cancel_left, List.drop_length]
    rfl
  rcases h.recover_source hm hlogged hf hlogs hsource rfl rfl
    (by rw [htail]; exact hlogs.origin_le_tail) (Nat.le_of_eq htail) with
    ⟨fault, hfault, -⟩ | ⟨rest, other, hrest, hrecover, -⟩
  · cases hfault.symm.trans hread
  · obtain ⟨recovered, final, hsame, -, hsound⟩ := h.sound_recover hfits hn hlogs hdefault rfl
    rw [← recover_congr (hsource.trans hdefault.symm), hrecover] at hsame
    cases hsame
    exact ⟨_, _, hrecover, rfl, rfl, hsound⟩

end Reopened

end Store

namespace Course

/-- A store works with these records, which all log parts are from, or it awaits recovery. -/
inductive Stage (course : Course) (place : Path) (history : List LogRecord) : Prop where
  | working (sound : course.Sound place history)
      (ready : course.store.awaitingRecovery = false)
      (within : ∀ moment ∈ course.moments, moment.kind.hasLog = true → ∃ front,
        moment.store.Logs moment.disk place front ∧ Log.image front <+: Log.image history)
  | waiting (reopened : course.store.Reopened course.disk place course.completed)
      (awaits : course.store.awaitingRecovery = true) (untaken : course.taken = none)
      (nothing : history = [])

variable {course : Course} {place : Path} {history : List LogRecord}

theorem Stage.logs (h : course.Stage place history) :
    course.store.Logs course.disk place history := by
  cases h with
  | working sound => exact sound.logs
  | waiting reopened awaits untaken nothing => exact nothing ▸ reopened.keeps.toLogs

/-- What a store is asked to do leaves it at its stage. -/
theorem Stage.step (h : course.Stage place history) {op : Store.Op}
    (ht : ∀ token, op.token? = some token → ∀ moment ∈ course.moments,
      moment.token.value < token.value) :
    (course.step op).Stage place (history ++ course.store.adds op) := by
  have hsame := Store.step_same op course.store course.disk
  rw [← step_state] at hsame
  cases h with
  | working sound ready within =>
    have hafter := sound.step ht
    refine .working hafter (hsame.awaitingRecovery.trans ready) fun moment hm hk => ?_
    rcases mem_moments_step hm with hm | ⟨kind, token, -, rfl⟩
    · obtain ⟨front, hfront, himage⟩ := within moment hm hk
      refine ⟨front, hfront, himage.trans ?_⟩
      rw [Log.image_append]
      exact List.prefix_append _ _
    · refine ⟨history, sound.logs, ?_⟩
      rw [Log.image_append]
      exact List.prefix_append _ _
  | waiting reopened awaits untaken nothing =>
    obtain ⟨store, disk, taken, completed⟩ := course
    dsimp only at untaken awaits
    obtain ⟨other, hstep, hre, hawaits, -⟩ := reopened.step_awaiting awaits op
    have hadds : store.adds op = [] := by
      cases op with
      | upsert => exact if_pos awaits
      | _ => rfl
    subst untaken
    rw [hstep]
    exact .waiting hre hawaits rfl (by rw [nothing, hadds, List.append_nil])

/-- At any time the store may be closed. -/
theorem Stage.left (h : course.Stage place history) :
    Store.Left (course.store.close course.disk) course.store.dir place course.completed := by
  cases h with
  | working sound ready within =>
    exact (sound.leaves fun moment hm => within moment (List.mem_append_right _ hm)).left
  | waiting reopened => exact reopened.close

theorem Stage.opened {disk : Disk} {dir : Path} {completed : List Moment}
    (h : Store.Left disk dir place completed) (config : Config) :
    ∃ store opened, Store.open? dir config disk = (.ok store, opened) ∧
      store.sessions = .ofCapacity config.sessionPoolSize ∧
      Stage { store, disk := opened, completed } place [] := by
  obtain ⟨store, opened, lock, hopen, ho, hre⟩ := h.open config
  refine ⟨store, opened, hopen, ho.sessions, ?_⟩
  have hawaits := hre.awaitingRecovery
  cases hn : completed.find? (·.kind.hasLog) with
  | none =>
    rw [hn] at hawaits
    have hnone : ∀ moment ∈ completed, moment.kind.hasLog = false := by
      intro moment hm
      simpa using List.find?_eq_none.mp hn moment hm
    refine .working (hre.sound hnone) hawaits fun moment hm hk => ?_
    rw [hnone moment hm] at hk
    cases hk
  | some newest =>
    rw [hn] at hawaits
    exact .waiting hre hawaits rfl rfl

theorem Stage.recover (h : course.Stage place history)
    (ha : course.store.awaitingRecovery = true) (hfits : ∀ moment ∈ course.completed, moment.Fits)
    {index log : Option Token}
    (hchosen : ∀ moment ∈ course.completed.find? (·.kind.hasLog), moment.kind = .full ∧
      (∀ token ∈ index, token = moment.token) ∧ ∀ token ∈ log, token = moment.token) :
    ∃ moment, course.completed.find? (·.kind.hasLog) = some moment ∧
      ∀ front, moment.store.Logs moment.disk place front →
        ∃ recovered other,
          course.store.recover index log course.disk = (.ok moment.token, recovered, other) ∧
          recovered.sessions =
            course.store.sessions.restore moment.store.sessions.commitPoints ∧
          Stage { course with store := recovered, disk := other } place front := by
  cases h with
  | working sound ready => exact absurd (ha.symm.trans ready) (by simp)
  | waiting reopened awaits untaken nothing =>
    have hsome := reopened.awaitingRecovery.symm.trans awaits
    obtain ⟨moment, hn⟩ := Option.isSome_iff_exists.mp hsome
    obtain ⟨hk, hi, hl⟩ := hchosen moment hn
    refine ⟨moment, hn, fun front hlogs => ?_⟩
    obtain ⟨recovered, other, hrecover, hready, hsessions, hsound⟩ :=
      reopened.recover_full hfits hn hk hi hl hlogs
    refine ⟨recovered, other, hrecover, hsessions, ?_⟩
    have hbegins : Store.Begins course.completed place front := by
      rw [Store.Begins, hn]
      exact hlogs
    obtain ⟨store, disk, taken, completed⟩ := course
    dsimp only at untaken
    subst untaken
    exact .working hsound hready (reopened.close.images hbegins)

end Course

end PredicateIndex
