import Mathlib.Data.List.Induction
import PredicateIndex.Proofs.LeftBehind

/-!
# Generations of a store

A directory may be used by one store after another. Each of them is opened,
recovered if a log part is there, used and closed, and finds what the ones
before it left behind. This holds whether or not the recovery succeeds: one that
fails leaves a store that writes nothing.
-/

set_option autoImplicit false

namespace PredicateIndex

open CheckpointDir

structure Generation where
  config : Config
  ops : List Store.Op

structure Timeline where
  disk : Disk
  completed : List Moment := []

def Store.start (dir : Path) (config : Config) (disk : Disk) : Except Fault Store × Disk :=
  match Store.open? dir config disk with
  | (.error fault, disk) => (.error fault, disk)
  | (.ok store, disk) =>
    if store.awaitingRecovery then
      let (store, disk) := (store.recover none none disk).2
      (.ok store, disk)
    else (.ok store, disk)

namespace Timeline

def live (dir : Path) (generation : Generation) (timeline : Timeline) : Timeline :=
  match Store.start dir generation.config timeline.disk with
  | (.error _, disk) => { timeline with disk }
  | (.ok store, disk) =>
    let course := Course.run generation.ops { store, disk, completed := timeline.completed }
    ⟨course.store.close course.disk, course.completed⟩

def run (dir : Path) : List Generation → Timeline → Timeline
  | [], timeline => timeline
  | generation :: generations, timeline => run dir generations (timeline.live dir generation)

end Timeline

namespace Store

variable {store : Store} {disk : Disk} {dir place : Path} {completed : List Moment}

def Begins (completed : List Moment) (place : Path) (history : List LogRecord) : Prop :=
  match completed.find? (·.kind.hasLog) with
  | some newest => newest.store.Logs newest.disk place history
  | none => history = []

namespace Reopened

/-- By default recovery takes the newest log part, and fails only for an index part past it. -/
theorem source_newest (h : store.Reopened disk place completed)
    (hfits : ∀ moment ∈ completed, moment.Fits) {newest : Moment}
    (hn : completed.find? (·.kind.hasLog) = some newest) :
    (∃ fault, store.recoverySource none none disk = .error fault) ∨
      ∃ source, store.recoverySource none none disk = .ok source ∧
        source.token = newest.token ∧ source.log = newest.log := by
  have hm := List.mem_of_find?_eq_some hn
  have hk := List.find?_some hn
  have hlog := h.chooseLog_newest hn
  have hindex := h.chooseIndex_newest newest.token
  cases hbase : completed.find? (Moment.hasIndexUpTo newest.token) with
  | none =>
    rw [hbase] at hindex
    exact Or.inr ⟨_, h.source_log hm hk (hfits newest hm) hlog hindex, rfl, rfl⟩
  | some base =>
    have hb := List.mem_of_find?_eq_some hbase
    have hbk := List.find?_some hbase
    rw [Moment.hasIndexUpTo, Bool.and_eq_true] at hbk
    rw [hbase] at hindex
    have hsource := h.source_index hm hk (hfits newest hm) hlog hb hbk.1 (hfits base hb) hindex
    split at hsource
    · exact Or.inl ⟨_, hsource⟩
    · exact Or.inr ⟨_, hsource, rfl, rfl⟩

theorem sound_recover (h : store.Reopened disk place completed)
    (hfits : ∀ moment ∈ completed, moment.Fits) {newest : Moment}
    (hn : completed.find? (·.kind.hasLog) = some newest) {history : List LogRecord}
    (hl : newest.store.Logs newest.disk place history) {source : RecoverySource}
    (hs : store.recoverySource none none disk = .ok source) (hlog : source.log = newest.log) :
    ∃ recovered other, (store.recover none none disk).2 = (recovered, other) ∧
      recovered.dir = store.dir ∧
      Course.Sound { store := recovered, disk := other, completed } place history := by
  have hm := List.mem_of_find?_eq_some hn
  have hk := List.find?_some hn
  have hb := bounds hl (hfits newest hm) hlog
  have hc := h.covers_of_logs hm hk hl
  have hlogs := h.keeps.toLogs.restored hb hc
  obtain ⟨htends, hchange⟩ := h.tends.restored h.keeps.toLogs hb
  have hparts := h.parts.congr (part?_frame hchange (rootPlace_ne_log place))
  have hflushed : ∀ moment ∈ completed, moment.kind.hasLog = true →
      moment.store.log.tail ≤ source.log.tail.toNat := by
    intro moment hmoment hlog
    rw [hb.tail, ← hl.tail_eq]
    exact (Moment.le_of_find? h.newestFirst hn hmoment hlog).2 hlog
  rcases h.keeps.toLogs.recover_cases hs (hb.tail ▸ hc.length_le) with
    ⟨fault, -, hr⟩ | ⟨records, -, hr⟩
  · refine ⟨_, _, congrArg Prod.snd hr, rfl, ?_⟩
    exact
      { logs := hlogs, tends := htends, captured := h.captured, parts := hparts
        flushed := hflushed, tailed := by simp, newestFirst := h.newestFirst }
  · refine ⟨_, _, congrArg Prod.snd hr, rfl, ?_⟩
    exact
      { logs := hlogs.congr rfl rfl, tends := htends.congr rfl rfl, captured := h.captured
        parts := hparts, flushed := hflushed, tailed := by simp, newestFirst := h.newestFirst }

theorem step_awaiting (h : store.Reopened disk place completed) (ha : store.awaitingRecovery = true)
    (op : Store.Op) : ∃ other : Store, Course.step op { store, disk, completed } =
      { store := other, disk, completed } ∧ other.Reopened disk place completed ∧
        other.awaitingRecovery = true ∧ other.dir = store.dir := by
  have hstay : ∀ sessions, Reopened { store with sessions } disk place completed := by
    intro sessions
    exact { h with keeps := h.keeps.congr rfl rfl rfl, tends := h.tends.congr rfl rfl }
  have hflush : store.log.flush disk = (store.log, disk) := by
    have hs := h.keeps.holds.start_le
    have hh := h.keeps.holds.head_le
    have ht : store.log.tail = store.log.start := h.keeps.holds.tail_eq
    rw [Log.flush, if_neg]
    omega
  cases op with
  | upsert session key id tombstone =>
    refine ⟨store, ?_, h, ha, rfl⟩
    simp only [Course.step, step_upsert_awaiting ha]
  | flush =>
    refine ⟨store, ?_, h, ha, rfl⟩
    simp only [Course.step, Store.step, flush_eq, hflush]
  | evict =>
    have hevict : store.evict disk =
        ({ store with log := { store.log with buffer := [], head := store.log.tail } }, disk) := by
      rw [evict_eq, Log.evict, hflush]
    have hkeeps := h.keeps.evict
    rw [hevict] at hkeeps
    refine ⟨{ store with log := { store.log with buffer := [], head := store.log.tail } }, ?_, ?_,
      ha, rfl⟩
    · simp only [Course.step, Store.step, hevict]
    · exact { h with keeps := hkeeps, tends := h.tends.congr rfl rfl }
  | acquire => exact ⟨store.acquire.2, rfl, hstay _, ha, rfl⟩
  | release session => exact ⟨store.release session, rfl, hstay _, ha, rfl⟩
  | readChain ordinal key => exact ⟨_, rfl, hstay _, ha, rfl⟩
  | take kind token =>
    refine ⟨store, ?_, h, ha, rfl⟩
    simp only [Course.step, Store.step, take_awaiting ha]
  | abort token =>
    refine ⟨store, ?_, h, ha, rfl⟩
    simp only [Course.step, Store.step, Store.abort, h.captured]
    rfl
  | complete =>
    refine ⟨store, ?_, h, ha, rfl⟩
    simp only [Course.step, Store.step, complete_none h.captured]

theorem run_awaiting (h : store.Reopened disk place completed) (ha : store.awaitingRecovery = true)
    (ops : List Store.Op) : ∃ other : Store, Course.run ops { store, disk, completed } =
      { store := other, disk, completed } ∧ other.Reopened disk place completed ∧
        other.dir = store.dir := by
  induction ops generalizing store with
  | nil => exact ⟨store, rfl, h, rfl⟩
  | cons op ops ih =>
    obtain ⟨next, hstep, hnext, hawaits, hsame⟩ := h.step_awaiting ha op
    obtain ⟨other, hrun, hother, hdir⟩ := ih hnext hawaits
    refine ⟨other, ?_, hother, hdir.trans hsame⟩
    rw [Course.run, hstep, hrun]

theorem close (h : store.Reopened disk place completed) :
    Left (store.close disk) store.dir place completed where
  openable := h.tends.close h.keeps.toLogs
  parts := h.parts.congr fun _ _ => rfl
  newestFirst := h.newestFirst
  covers := by
    intro moment hm hk
    obtain ⟨history, hlogs, hcovers⟩ := h.covers moment hm hk
    exact ⟨history, store.log.file, hlogs, h.keeps.entry, hcovers.congr rfl⟩

end Reopened

theorem Left.images (h : Left disk dir place completed) {history : List LogRecord}
    (hb : Begins completed place history) : ∀ moment ∈ completed, moment.kind.hasLog = true →
      ∃ front, moment.store.Logs moment.disk place front ∧ Log.image front <+: Log.image history := by
  intro moment hm hk
  obtain ⟨front, id, hlogs, hentry, hcovers⟩ := h.covers moment hm hk
  refine ⟨front, hlogs, ?_⟩
  rw [Begins] at hb
  cases hn : completed.find? (·.kind.hasLog) with
  | none => exact (List.find?_eq_none.mp hn moment hm hk).elim
  | some newest =>
    rw [hn] at hb
    have hnewest := List.find?_some hn
    obtain ⟨found, file, hfound, hfile, hwhole⟩ :=
      h.covers newest (List.mem_of_find?_eq_some hn) hnewest
    obtain rfl : id = file := by simpa [hfile] using hentry.symm
    have himage : Log.image found = Log.image history :=
      hfound.holds.bytes_eq.symm.trans hb.holds.bytes_eq
    have htail := (Moment.le_of_find? h.newestFirst hn hm hk).2 hk
    rw [hlogs.tail_eq, hfound.tail_eq] at htail
    rw [← himage]
    exact hwhole.image_le hcovers (Nat.le_of_add_le_add_left htail)

theorem Left.start (h : Left disk dir place completed)
    (hfits : ∀ moment ∈ completed, moment.Fits) (config : Config) {history : List LogRecord}
    (hb : Begins completed place history) :
    ∃ store opened, Store.start dir config disk = (.ok store, opened) ∧ store.dir = dir ∧
      (Course.Sound { store, disk := opened, completed } place history ∨
        (store.Reopened opened place completed ∧ store.awaitingRecovery = true)) := by
  obtain ⟨store, opened, lock, hopen, ho, hre⟩ := h.open config
  rw [Begins] at hb
  rw [Store.start, hopen]
  cases hn : completed.find? (·.kind.hasLog) with
  | none =>
    have ha : store.awaitingRecovery = false := by rw [hre.awaitingRecovery, hn]; rfl
    rw [hn] at hb
    subst hb
    refine ⟨store, opened, by simp [ha], ho.dir, Or.inl (hre.sound fun moment hm => ?_)⟩
    simpa using List.find?_eq_none.mp hn moment hm
  | some newest =>
    have ha : store.awaitingRecovery = true := by rw [hre.awaitingRecovery, hn]; rfl
    rw [hn] at hb
    rcases hre.source_newest hfits hn with ⟨fault, hs⟩ | ⟨source, hs, -, hlog⟩
    · exact ⟨store, opened, by simp [ha, hre.recover_error hs], ho.dir, Or.inr ⟨hre, ha⟩⟩
    · obtain ⟨recovered, other, hrecover, hdir, hsound⟩ := hre.sound_recover hfits hn hb hs hlog
      exact ⟨recovered, other, by simp [ha, hrecover], hdir.trans ho.dir, Or.inl hsound⟩

end Store

namespace Timeline

variable {timeline : Timeline} {dir place : Path}

structure Sound (timeline : Timeline) (dir place : Path) : Prop where
  left : Store.Left timeline.disk dir place timeline.completed
  readable : ∀ moment ∈ timeline.completed, ∃ history,
    moment.store.Logs moment.disk place history ∧ ∀ record ∈ history, record.Storable

theorem Sound.begins (h : timeline.Sound dir place) : ∃ history,
    Store.Begins timeline.completed place history ∧ ∀ record ∈ history, record.Storable := by
  cases hn : timeline.completed.find? (·.kind.hasLog) with
  | none => exact ⟨[], by simp [Store.Begins, hn], by simp⟩
  | some newest =>
    obtain ⟨history, hlogs, hs⟩ := h.readable newest (List.mem_of_find?_eq_some hn)
    exact ⟨history, by simpa [Store.Begins, hn] using hlogs, hs⟩

theorem Sound.live (h : timeline.Sound dir place)
    (hfits : ∀ moment ∈ timeline.completed, moment.Fits) {generation : Generation}
    (hf : ∀ op ∈ generation.ops, op.Fits)
    (ht : Course.Ascends timeline.completed generation.ops) :
    (timeline.live dir generation).Sound dir place := by
  obtain ⟨history, hb, hs⟩ := h.begins
  obtain ⟨store, opened, hstart, hdir, hstate⟩ := h.left.start hfits generation.config hb
  rw [Timeline.live, hstart]
  dsimp only
  rcases hstate with hsound | ⟨hre, ha⟩
  · have hleft := hsound.left_run ht (h.left.images hb)
    rw [hdir] at hleft
    refine ⟨hleft, fun moment hm => ?_⟩
    rcases Course.logs_of_run hsound.logs (List.mem_append_right _ hm) with hm | ⟨front, hl, hp⟩
    · exact h.readable moment hm
    · refine ⟨front, hl, fun record hr => ?_⟩
      rcases List.mem_append.mp (hp.subset hr) with hr | hr
      · exact hs record hr
      · exact Store.added_storable hf _ record hr
  · obtain ⟨other, hrun, hother, hsame⟩ := hre.run_awaiting ha generation.ops
    rw [hrun]
    have hleft := hother.close
    rw [hsame, hdir] at hleft
    exact ⟨hleft, h.readable⟩

theorem mem_completed_live {generation : Generation} {moment : Moment}
    (hm : moment ∈ (timeline.live dir generation).completed) :
    moment ∈ timeline.completed ∨ moment.token ∈ generation.ops.filterMap Store.Op.token? := by
  rw [live] at hm
  cases hs : Store.start dir generation.config timeline.disk with
  | mk result disk =>
    rw [hs] at hm
    cases result with
    | error fault => exact Or.inl hm
    | ok store =>
      rcases Course.mem_moments_run (List.mem_append_right _ hm) with hm | ⟨front, back, ho, -⟩
      · exact Or.inl hm
      · refine Or.inr (List.mem_filterMap.mpr ⟨.take moment.kind moment.token, ?_, rfl⟩)
        rw [ho]
        simp

theorem completed_live (dir : Path) (generation : Generation) (timeline : Timeline) :
    timeline.completed <:+ (timeline.live dir generation).completed := by
  rw [live]
  cases Store.start dir generation.config timeline.disk with
  | mk result disk =>
    cases result with
    | error fault => exact List.suffix_refl _
    | ok store =>
      exact Course.completed_run generation.ops { store, disk, completed := timeline.completed }

theorem run_append (dir : Path) (generations more : List Generation) (timeline : Timeline) :
    run dir (generations ++ more) timeline = run dir more (run dir generations timeline) := by
  induction generations generalizing timeline with
  | nil => rfl
  | cons generation generations ih => exact ih (timeline.live dir generation)

theorem run_concat (dir : Path) (generations : List Generation) (last : Generation)
    (timeline : Timeline) :
    run dir (generations ++ [last]) timeline = (run dir generations timeline).live dir last :=
  run_append dir generations [last] timeline

theorem mem_completed_run {generations : List Generation} {moment : Moment}
    (hm : moment ∈ (run dir generations timeline).completed) : moment ∈ timeline.completed ∨
      moment.token ∈ (generations.flatMap Generation.ops).filterMap Store.Op.token? := by
  induction generations generalizing timeline with
  | nil => exact Or.inl hm
  | cons generation generations ih =>
    rw [List.flatMap_cons, List.filterMap_append, List.mem_append]
    rcases ih hm with hm | hm
    · rcases mem_completed_live hm with hm | hm
      · exact Or.inl hm
      · exact Or.inr (Or.inl hm)
    · exact Or.inr (Or.inr hm)

/-- What every life of a store preserves holds after all of them. -/
theorem run_induction {P : Timeline → Prop} {generations : List Generation} (h : P timeline)
    (ht : Course.Ascends timeline.completed (generations.flatMap Generation.ops))
    (hfits : ∀ moment ∈ (run dir generations timeline).completed, moment.Fits)
    (hlive : ∀ front last, front ++ [last] <+: generations → P (run dir front timeline) →
      (∀ moment ∈ (run dir front timeline).completed, moment.Fits) →
        Course.Ascends (run dir front timeline).completed last.ops →
          P ((run dir front timeline).live dir last)) :
    P (run dir generations timeline) := by
  induction generations using List.reverseRecOn with
  | nil => exact h
  | append_singleton front last ih =>
    rw [List.flatMap_append, List.flatMap_singleton] at ht
    obtain ⟨hfirst, hlast⟩ := ht.split
    rw [run_concat] at hfits ⊢
    have hbefore : ∀ moment ∈ (run dir front timeline).completed, moment.Fits := by
      intro moment hm
      exact hfits moment ((completed_live dir last _).subset hm)
    apply hlive front last (List.prefix_refl _)
    · apply ih hfirst hbefore
      intro front other hfront
      exact hlive front other (hfront.trans (List.prefix_append _ _))
    · exact hbefore
    · exact hlast fun moment hm => mem_completed_run hm

/-- Any number of lives leaves a directory that the next store can start from. -/
theorem Sound.run {generations : List Generation} (h : timeline.Sound dir place)
    (hf : ∀ generation ∈ generations, ∀ op ∈ generation.ops, op.Fits)
    (ht : Course.Ascends timeline.completed (generations.flatMap Generation.ops))
    (hfits : ∀ moment ∈ (run dir generations timeline).completed, moment.Fits) :
    (run dir generations timeline).Sound dir place := by
  apply run_induction (P := fun timeline => timeline.Sound dir place) h ht hfits
  intro front last hfront hs hbefore ha
  exact hs.live hbefore (hf last (hfront.subset (by simp))) ha

end Timeline

end PredicateIndex
