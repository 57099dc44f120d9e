import PredicateIndex.Proofs.CompletionSteps
import PredicateIndex.Proofs.RecoveryExactness

/-!
# Recovery after a crash

A crash in the middle of completing a checkpoint leaves one of two states: until
the log part is renamed, a new store recovers the newest log checkpoint that had
been completed before, or starts anew without one; from then on it recovers the
one that was being completed.
-/

set_option autoImplicit false

namespace PredicateIndex

open CheckpointDir

theorem Moment.Newest.cons {completed : List Moment} {fits : Moment → Bool} {newest : Moment}
    (h : Newest completed fits newest) {moment : Moment} (hm : fits moment = false) :
    Newest (moment :: completed) fits newest := by
  refine ⟨List.mem_cons_of_mem moment h.mem, h.holds, fun other ho hk => ?_⟩
  rcases List.mem_cons.mp ho with rfl | ho
  · rw [hm] at hk
    cases hk
  · exact h.le other ho hk

theorem Moment.Fits.indexOnly {moment : Moment} (h : moment.Fits)
    (hk : moment.kind.hasIndex = true) : moment.indexOnly.Fits where
  index _ := h.index hk
  log hl := nomatch hl
  tail := h.tail

namespace Store

structure Blank (store : Store) (disk : Disk) : Prop where
  awaitingRecovery : store.awaitingRecovery = false
  heads : store.heads = []
  start : store.log.start = Log.origin
  tail : store.log.tail = Log.origin
  commitPoints : store.sessions.commitPoints = []
  records : store.records disk = .ok []
  takes : ∀ session key id tombstone, ∃ next written other,
    store.upsert session key id tombstone disk = .ok (Log.origin, next, written, other)

theorem Opened.blank {store : Store} {disk : Disk} {dir place : Path} {config : Config}
    {lock : FileLock} (h : store.Opened dir config lock none) (hk : store.Keeps disk place []) :
    store.Blank disk where
  awaitingRecovery := h.awaitingRecovery
  heads := h.heads
  start := hk.start
  tail := hk.tail_eq
  commitPoints := by
    rw [h.sessions]
    rfl
  records := hk.records
  takes session key id tombstone := by
    have hready : store.checkRecovered = .ok () := by
      rw [checkRecovered, h.awaitingRecovery]
      rfl
    refine ⟨session.completeWrite, ((store.write key id tombstone).evictIfFull disk).1,
      ((store.write key id tombstone).evictIfFull disk).2, ?_⟩
    rw [upsert, hready, hk.tail_eq]
    rfl

/-- The store recovers the newest log checkpoint of some, or it is blank if there is none. -/
structure RecoversNewest (store : Store) (disk : Disk) (completed : List Moment) : Prop where
  recovers : ∀ newest, Moment.Newest completed (·.kind.hasLog) newest →
    store.awaitingRecovery = true ∧ store.RecoversTo disk none none newest
  blank : (∀ base ∈ completed, base.kind.hasLog = false) → store.Blank disk

theorem RecoversNewest.older {store : Store} {disk : Disk} {completed : List Moment}
    {moment : Moment} (h : store.RecoversNewest disk (moment :: completed))
    (hk : moment.kind.hasLog = false) : store.RecoversNewest disk completed :=
  ⟨fun newest hnew => h.recovers newest (hnew.cons hk), fun hnone =>
    h.blank (List.forall_mem_cons.mpr ⟨hk, hnone⟩)⟩

variable {disk : Disk} {dir place : Path}

/-- What was left of some checkpoints, or of their index parts, leads back to the newest log
checkpoint, or to a new store if there is none. -/
theorem Left.recovers {left moments : List Moment} (h : Left disk dir place left)
    (hleft : ∀ base ∈ left, base ∈ moments ∨
      ∃ whole ∈ moments, whole.kind.hasIndex = true ∧ base = whole.indexOnly)
    (hfits : ∀ moment ∈ moments, moment.Fits)
    (hpair : ∀ base ∈ moments, ∀ moment ∈ moments, base.token.value ≤ moment.token.value →
      ∃ front back, base.Captured place front ∧ moment.Captured place (front ++ back))
    (config : Config) : ∃ store opened, Store.open? dir config disk = (.ok store, opened) ∧
      store.RecoversNewest opened left := by
  obtain ⟨store, opened, lock, hopen, hopened, hre⟩ := h.open config
  have hsource : ∀ base ∈ left, base.Fits ∧ ∃ whole ∈ moments, base.token = whole.token ∧
      ∀ history, whole.Captured place history → base.Captured place history := by
    intro base hb
    rcases hleft base hb with hm | ⟨whole, hm, hk, rfl⟩
    · exact ⟨hfits base hm, base, hm, rfl, fun _ hc => hc⟩
    · exact ⟨(hfits whole hm).indexOnly hk, whole, hm, rfl, fun _ hc => hc⟩
  have hboth : ∀ base ∈ left, ∀ later ∈ left, base.token.value ≤ later.token.value →
      ∃ front back, base.Captured place front ∧ later.Captured place (front ++ back) := by
    intro base hb later hl hle
    obtain ⟨-, whole, hw, htoken, hbase⟩ := hsource base hb
    obtain ⟨-, last, hlast, hlastToken, hlater⟩ := hsource later hl
    rw [htoken, hlastToken] at hle
    obtain ⟨front, back, hfront, hback⟩ := hpair whole hw last hlast hle
    exact ⟨front, back, hbase _ hfront, hlater _ hback⟩
  refine ⟨store, opened, hopen, fun newest hnewest => ?_, fun hnone => ?_⟩
  · have hfind := (Moment.newest_iff_find? h.newestFirst).mp hnewest
    obtain ⟨front, back, -, hcaptured⟩ :=
      hboth newest hnewest.mem newest hnewest.mem (UInt64.le_refl _)
    refine ⟨by rw [hre.awaitingRecovery, hfind]; rfl, hcaptured.recoversTo ?_⟩
    exact hre.resumes_default (fun base hb => (hsource base hb).1) hnewest.mem hnewest.holds
      hcaptured (fun base hb _ hle => hboth base hb newest hnewest.mem hle)
      (hre.chooseLog_newest hfind)
  · have hfind : left.find? (·.kind.hasLog) = none := by
      rw [List.find?_eq_none]
      intro base hb
      simp [hnone base hb]
    rw [hfind] at hopened
    exact hopened.blank hre.keeps

end Store

namespace Course

variable {place : Path} {ops : List Store.Op}

theorem fronts_of_run {store : Store} {disk : Disk} (h : store.Logs disk place []) {moment : Moment}
    (hm : moment ∈ (run ops { store, disk }).moments) :
    ∃ front, moment.store.Logs moment.disk place front ∧
      Log.image front <+: Log.image (Store.added ops (store, disk)) := by
  obtain ⟨front, hfront, hprefix⟩ := (logs_of_run h hm).resolve_left (by simp [moments])
  exact ⟨front, hfront, Log.image_prefix hprefix⟩

/-- What a crash leaves is left of the checkpoints of the course. -/
theorem sources_of_crash {course : Course} {moment : Moment} (ht : course.taken = some moment)
    {left : List Moment} (h : left = course.completed ∨
      moment.kind.hasIndex = true ∧ left = moment.indexOnly :: course.completed) :
    ∀ base ∈ left, base ∈ course.moments ∨
      ∃ whole ∈ course.moments, whole.kind.hasIndex = true ∧ base = whole.indexOnly := by
  have hcompleted : ∀ base ∈ course.completed, base ∈ course.moments := fun base hm =>
    List.mem_append_right _ hm
  rcases h with rfl | ⟨hk, rfl⟩
  · exact fun base hb => Or.inl (hcompleted base hb)
  · exact List.forall_mem_cons.mpr
      ⟨Or.inr ⟨moment, moments_taken ht ▸ List.mem_cons_self, hk, rfl⟩,
        fun base hb => Or.inl (hcompleted base hb)⟩

/-- Wherever completing a checkpoint stops, recovery gives back exactly what the newest log
checkpoint captured: the one that was being completed if its log part has been renamed, and else
the newest one that was completed before. -/
theorem recover_of_crash {disk : Disk} {dir : Path} (hempty : disk.EmptyDir dir place)
    (config again : Config) (hf : ∀ op ∈ ops, op.Fits) (ht : Ascends [] ops) :
    ∃ store opened, Store.open? dir config disk = (.ok store, opened) ∧
      ∀ course moment, course = run ops { store, disk := opened } →
        course.taken = some moment → (∀ earlier ∈ course.moments, earlier.Fits) →
        ((course.store.complete course.disk).1 = .ok (some moment.token) ∧
          course.disk.after course.store.completionSteps =
            .ok (course.store.complete course.disk).2.2) ∧
        ∀ performed, performed <+: course.store.completionSteps →
          ∃ crashed reopened after, course.disk.after performed = .ok crashed ∧
            Store.open? dir again (course.store.close crashed) = (.ok reopened, after) ∧
            (renameStep dir moment.token logFile ∈ performed →
              reopened.awaitingRecovery = true ∧ reopened.RecoversTo after none none moment) ∧
            (renameStep dir moment.token logFile ∉ performed →
              (∀ newest, Moment.Newest course.completed (·.kind.hasLog) newest →
                reopened.awaitingRecovery = true ∧ reopened.RecoversTo after none none newest) ∧
              ((∀ earlier ∈ course.completed, earlier.kind.hasLog = false) →
                reopened.Blank after)) := by
  obtain ⟨store, opened, lock, hopen, hopened, hnew⟩ := hempty.left.open config
  have hready : store.Ready opened place [] := hopened.ready hnew.keeps
  have hstart : Sound { store, disk := opened } place [] := hnew.sound (by simp)
  refine ⟨store, opened, hopen, fun course moment hrun htaken hfits => ?_⟩
  have hsound := hstart.run ht
  have hdir : course.store.dir = dir := by
    rw [hrun, dir_run]
    exact hopened.dir
  have hmoments := moments_taken htaken
  rw [← hrun, List.nil_append] at hsound
  have hendures := hsound.endures_complete htaken fun earlier hm _ =>
    fronts_of_run hnew.keeps.toLogs (hrun ▸ hm)
  rw [hdir] at hendures
  refine ⟨⟨(hsound.step_complete htaken).1, ?_⟩, fun performed hp => ?_⟩
  · obtain ⟨last, hlast, -, hpost⟩ := hendures.stop (List.prefix_refl _)
    rw [hlast, (hpost rfl).1]
  have hpair : ∀ base ∈ course.moments, ∀ later ∈ course.moments,
      base.token.value ≤ later.token.value →
        ∃ front back, base.Captured place front ∧ later.Captured place (front ++ back) := by
    intro base hb later hl hle
    rw [hrun] at hb hl
    exact captured_pair hready hf ht hb (by simp) hl (by simp) (Or.inl hle)
  obtain ⟨crashed, hcrashed, hcrash, hpost⟩ := hendures.stop hp
  have hrenamed := Store.renameStep_mem_iff (hsound.captured_some htaken) hp
  rw [hdir] at hrenamed
  by_cases hall : performed = course.store.completionSteps
  · obtain ⟨-, hleft⟩ := hpost hall
    obtain ⟨reopened, after, hreopen, hrecovers⟩ :=
      hleft.recovers (fun base hb => Or.inl (hmoments ▸ hb)) hfits hpair again
    refine ⟨crashed, reopened, after, hcrashed, hreopen, fun hm => ?_, fun hn => ?_⟩
    · have hfind : (moment :: course.completed).find? (·.kind.hasLog) = some moment :=
        List.find?_cons_of_pos (hrenamed.mp hm).1
      exact hrecovers.recovers moment ((Moment.newest_iff_find? hleft.newestFirst).mpr hfind)
    · have hk : moment.kind.hasLog = false := by
        rw [← Bool.not_eq_true]
        exact fun hk => hn (hrenamed.mpr ⟨hk, hall⟩)
      exact ⟨(hrecovers.older hk).recovers, (hrecovers.older hk).blank⟩
  · obtain ⟨left, hleft, hcases⟩ := hcrash hall
    obtain ⟨reopened, after, hreopen, hrecovers⟩ :=
      hleft.recovers (sources_of_crash htaken hcases) hfits hpair again
    have holder : reopened.RecoversNewest after course.completed := by
      rcases hcases with rfl | ⟨-, rfl⟩
      · exact hrecovers
      · exact hrecovers.older rfl
    exact ⟨crashed, reopened, after, hcrashed, hreopen,
      fun hm => (hall (hrenamed.mp hm).2).elim, fun _ => ⟨holder.recovers, holder.blank⟩⟩

def pendingCheckpoint : List Store.Op :=
  let key : CompositeKey := [{ ordinal := 0, key := some [97] }]
  [.upsert ⟨1, 0, 0⟩ key ⟨1, 1⟩ false, .take .log ⟨1⟩, .complete,
    .upsert ⟨1, 1, 0⟩ key ⟨2, 1⟩ false, .take .full ⟨2⟩, .upsert ⟨1, 2, 0⟩ key ⟨1, 1⟩ true]

def pendingCheckpointFits : Bool :=
  match Store.open? ["db"] {} (Disk.withDir "db") with
  | (.ok store, opened) =>
    let course := run pendingCheckpoint { store, disk := opened }
    match course.taken, course.completed with
    | some moment, [base] => decide ((base.store.heads = [([0, 97], 64)] ∧
        moment.store.heads = [([0, 97], 103)]) ∧ base.kind = .log ∧ (base.Fits ∧ moment.Fits) ∧
        renameStep ["db"] moment.token logFile ∈ course.store.completionSteps ∧
        renameStep ["db"] moment.token logFile ∉ course.store.completionSteps.dropLast)
    | _, _ => false
  | (.error _, _) => false

/-- Short of the last step the first checkpoint is recovered, and after it the second. -/
theorem recover_pending_checkpoint : ∃ (store before later : Store)
    (opened short whole beforeDisk laterDisk : Disk) (base moment : Moment) (course : Course),
    Store.open? ["db"] {} (Disk.withDir "db") = (.ok store, opened) ∧
      course = run pendingCheckpoint { store, disk := opened } ∧ course.taken = some moment ∧
      base.store.heads = [([0, 97], 64)] ∧ moment.store.heads = [([0, 97], 103)] ∧
      course.disk.after course.store.completionSteps.dropLast = .ok short ∧
      Store.open? ["db"] {} (course.store.close short) = (.ok before, beforeDisk) ∧
      before.RecoversTo beforeDisk none none base ∧
      course.disk.after course.store.completionSteps = .ok whole ∧
      Store.open? ["db"] {} (course.store.close whole) = (.ok later, laterDisk) ∧
      later.RecoversTo laterDisk none none moment := by
  have hfacts : pendingCheckpointFits = true := by decide +kernel
  unfold pendingCheckpointFits at hfacts
  have hempty : (Disk.withDir "db").EmptyDir ["db"] ["db"] := Disk.emptyDir_withDir (by decide)
  have hops : ∀ op ∈ pendingCheckpoint, op.Fits := by decide
  have htokens : Ascends [] pendingCheckpoint := by decide
  obtain ⟨store, opened, hopen, hrun⟩ := recover_of_crash hempty {} {} hops htokens
  simp only [hopen] at hfacts
  split at hfacts
  · rename_i moment base htaken hcompleted
    obtain ⟨⟨hbh, hmh⟩, hbk, ⟨hbf, hmf⟩, hin, hout⟩ := of_decide_eq_true hfacts
    obtain ⟨-, hcrash⟩ := hrun _ moment rfl htaken
      (by simp [moments_taken htaken, hcompleted, hbf, hmf])
    obtain ⟨short, before, beforeDisk, hshort, hbefore, -, hold⟩ :=
      hcrash _ (List.dropLast_prefix _)
    obtain ⟨whole, later, laterDisk, hwhole, hlater, hnew, -⟩ := hcrash _ (List.prefix_refl _)
    have hnewest : Moment.Newest [base] (·.kind.hasLog) base := by
      refine ⟨List.mem_singleton_self base, by rw [hbk]; rfl, fun other ho _ => ?_⟩
      rw [List.mem_singleton.mp ho]
      exact UInt64.le_refl _
    exact ⟨store, before, later, opened, short, whole, beforeDisk, laterDisk, base, moment, _,
      hopen, rfl, htaken, hbh, hmh, hshort, hbefore,
      ((hold hout).1 base (hcompleted ▸ hnewest)).2, hwhole, hlater, (hnew hin).2⟩
  · cases hfacts

def wideTaken : List Store.Op := [.upsert ⟨1, 0, 0⟩ wideKey ⟨1, 1⟩ false, .take .log ⟨1⟩]

def wideTakenFits : Bool :=
  match Store.open? ["db"] {} (Disk.withDir "db") with
  | (.ok store, opened) =>
    let course := run wideTaken { store, disk := opened }
    match course.taken, course.completed with
    | some moment, [] => decide (store.awaitingRecovery = false ∧ moment.kind = .log ∧
        moment.store.heads = [([0, 170], 64)] ∧ moment.Fits)
    | _, _ => false
  | (.error _, _) => false

/-- All steps are done and the log part has been renamed, but the head is not recovered. -/
theorem recover_pending_wide_key : ∃ (store reopened recovered : Store)
    (opened crashed after other : Disk) (moment : Moment) (course : Course),
    Store.open? ["db"] {} (Disk.withDir "db") = (.ok store, opened) ∧
      course = run wideTaken { store, disk := opened } ∧ course.taken = some moment ∧
      renameStep ["db"] moment.token logFile ∈ course.store.completionSteps ∧
      course.disk.after course.store.completionSteps = .ok crashed ∧
      Store.open? ["db"] {} (course.store.close crashed) = (.ok reopened, after) ∧
      reopened.recover none none after = (.ok moment.token, recovered, other) ∧
      moment.store.heads = [([0, 170], 64)] ∧ recovered.heads = [] := by
  have hfacts : wideTakenFits = true := by decide +kernel
  unfold wideTakenFits at hfacts
  have hempty : (Disk.withDir "db").EmptyDir ["db"] ["db"] := Disk.emptyDir_withDir (by decide)
  have htokens : Ascends [] wideTaken := by decide
  obtain ⟨store, opened, lock, hopen, hopened, hnew⟩ := hempty.left.open {}
  simp only [hopen] at hfacts
  have hstart : Sound { store, disk := opened } ["db"] [] := hnew.sound (by simp)
  have hsound := hstart.run htokens
  split at hfacts
  · rename_i moment htaken hcompleted
    obtain ⟨hready, hkind, hsnapshot, hf⟩ := of_decide_eq_true hfacts
    have hendures := hsound.endures_complete htaken fun earlier hm _ =>
      fronts_of_run hnew.keeps.toLogs hm
    obtain ⟨crashed, hcrashed, -, hpost⟩ := hendures.stop (List.prefix_refl _)
    obtain ⟨-, hleft⟩ := hpost rfl
    have hdir : (run wideTaken { store, disk := opened }).store.dir = ["db"] :=
      (dir_run wideTaken _).trans hopened.dir
    have hrenamed := (Store.renameStep_mem_iff (hsound.captured_some htaken)
      (List.prefix_refl _)).mpr ⟨by rw [hkind]; rfl, rfl⟩
    rw [hcompleted, hdir] at hleft
    rw [hdir] at hrenamed
    obtain ⟨reopened, after, -, hreopen, -, hre⟩ := hleft.open {}
    have hmoment : moment ∈ (run wideWrite { store, disk := opened }).moments := by
      rw [show run wideWrite { store, disk := opened } =
        (run wideTaken { store, disk := opened }).step .complete from rfl,
        (hsound.step_complete htaken).2]
      exact List.mem_cons_self
    obtain ⟨record, hrecord, hlogs⟩ := logs_wide hnew.keeps.toLogs hready hopened.heads hmoment
    have hfind : [moment].find? (·.kind.hasLog) = some moment :=
      List.find?_cons_of_pos (by rw [hkind]; rfl)
    obtain ⟨recovered, other, hrecover, hheads⟩ :=
      hre.recover_wrapped hkind hf hrecord hlogs (hre.chooseLog_newest hfind)
    exact ⟨store, reopened, recovered, opened, crashed, after, other, moment, _, hopen, rfl,
      htaken, hrenamed, hcrashed, hreopen, hrecover, hsnapshot, hheads⟩
  · cases hfacts

end Course

end PredicateIndex
