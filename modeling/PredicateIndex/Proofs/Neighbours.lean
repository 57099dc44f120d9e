import PredicateIndex.Proofs.CoveredTimelines
import PredicateIndex.Proofs.DirectoryWork

/-!
# Stores beside each other

Several stores share a disk, each in a directory of its own. What one of them
does leaves whatever is known of the others as it was: their logs, their
checkpoints and that a closed one can be opened again. So a store can be
followed through its lives as if it had the disk for itself.
-/

set_option autoImplicit false

namespace PredicateIndex

open CheckpointDir

namespace Disk.WorksIn

variable {own : Path → Prop} {disk other : Disk} {dir place : Path} {store : Store}
  {history : List LogRecord} {completed : List Moment}

theorem tidy (h : WorksIn own disk other) (hp : ∀ rest, ¬ own (place ++ rest))
    (ht : Tidy disk place) : Tidy other place := by
  apply ht.congr
  intro rest
  rw [rootPlace, List.append_assoc]
  exact h.entry _ (hp _)

theorem part?_eq (h : WorksIn own disk other) (hp : ∀ rest, ¬ own (place ++ rest)) (token : Token)
    (name : String) : part? other place token name = part? disk place token name := by
  have hnot : ¬ own (partPlace place token name) := by
    rw [partPlace, tokenPlace, rootPlace, List.append_assoc, List.append_assoc]
    exact hp _
  exact part?_congr (h.entry _ hnot) fun id he => h.content _ id hnot he

theorem logs (h : WorksIn own disk other) (hp : ∀ rest, ¬ own (place ++ rest))
    (hl : store.Logs disk place history) : store.Logs other place history :=
  hl.frame h.spares (hp _)

theorem ready (h : WorksIn own disk other) (hp : ∀ rest, ¬ own (place ++ rest))
    (hr : store.Ready disk place history) : store.Ready other place history :=
  ⟨hr.keeps.frame h.spares (hp _), hr.awaitingRecovery, hr.ascending⟩

theorem tends (h : WorksIn own disk other) (hp : ∀ rest, ¬ own (place ++ rest))
    (ht : store.Tends disk place) (hl : store.Logs disk place history) :
    store.Tends other place where
  tidy := h.tidy hp ht.tidy
  lock := (h.entry _ (hp _)).trans ht.lock
  signed := by
    rw [Log.Signed, h.content _ _ (hp _) hl.entry]
    exact ht.signed

theorem openable (h : WorksIn own disk other) (hp : ∀ rest, ¬ own (place ++ rest))
    (hf : disk.LocksFiles) (ho : Store.Openable disk dir place) :
    Store.Openable other dir place where
  wellFormed := h.wellFormed
  homed := ho.homed.mono h.directory
  tidy := h.tidy hp ho.tidy
  lock := by
    rw [FileLock.Free, h.entry _ (hp _)]
    rcases ho.lock with ⟨he, -⟩ | ⟨id, he, hfree⟩
    · exact Or.inl ⟨he, fun hm => Nat.lt_irrefl _ (h.locksFiles hf _ hm)⟩
    · refine Or.inr ⟨id, he, fun hm => ?_⟩
      rcases h.locked id hm with hm | hnone
      · exact hfree hm
      · exact hnone _ (hp _) ((h.entry _ (hp _)).trans he)
  log := by
    rw [h.entry _ (hp _)]
    refine ho.log.imp_right fun ⟨id, he, hs⟩ => ⟨id, he, ?_⟩
    rw [Log.Signed, h.content _ id (hp _) he]
    exact hs

theorem left (h : WorksIn own disk other) (hp : ∀ rest, ¬ own (place ++ rest))
    (hf : disk.LocksFiles) (hl : Store.Left disk dir place completed) :
    Store.Left other dir place completed where
  openable := h.openable hp hf hl.openable
  parts := hl.parts.congr (h.part?_eq hp)
  newestFirst := hl.newestFirst
  covers moment hm hk := by
    obtain ⟨history, id, hlogs, he, hcovers⟩ := hl.covers moment hm hk
    exact ⟨history, id, hlogs, (h.entry _ (hp _)).trans he,
      hcovers.congr (h.content _ id (hp _) he)⟩

theorem reopened (h : WorksIn own disk other) (hp : ∀ rest, ¬ own (place ++ rest))
    (hr : store.Reopened disk place completed) : store.Reopened other place completed where
  keeps := hr.keeps.frame h.spares (hp _)
  tends := h.tends hp hr.tends hr.keeps.toLogs
  parts := hr.parts.congr (h.part?_eq hp)
  newestFirst := hr.newestFirst
  covers moment hm hk := by
    obtain ⟨history, hlogs, hcovers⟩ := hr.covers moment hm hk
    exact ⟨history, hlogs, hcovers.congr (h.content _ _ (hp _) hr.keeps.entry)⟩
  captured := hr.captured
  awaitingRecovery := hr.awaitingRecovery

theorem sound {taken : Option Moment} (h : WorksIn own disk other)
    (hp : ∀ rest, ¬ own (place ++ rest))
    (hs : Course.Sound { store, disk, taken, completed } place history) :
    Course.Sound { store, disk := other, taken, completed } place history where
  logs := h.logs hp hs.logs
  tends := h.tends hp hs.tends hs.logs
  captured := hs.captured
  parts := hs.parts.congr (h.part?_eq hp)
  flushed := hs.flushed
  tailed := hs.tailed
  newestFirst := hs.newestFirst

end Disk.WorksIn

def Store.Op.Silent : Store.Op → Prop
  | take _ _ | abort _ | complete => False
  | _ => True

namespace Course

theorem step_silent {op : Store.Op} (ho : op.Silent) (course : Course) :
    course.step op = { course with
      store := (Store.step op (course.store, course.disk)).1
      disk := (Store.step op (course.store, course.disk)).2 } := by
  cases op with
  | take kind token => exact ho.elim
  | abort token => exact ho.elim
  | complete => exact ho.elim
  | _ => rfl

theorem run_silent {ops : List Store.Op} (ho : ∀ op ∈ ops, op.Silent) (course : Course) :
    course.run ops = { course with
      store := (Store.run ops (course.store, course.disk)).1
      disk := (Store.run ops (course.store, course.disk)).2 } := by
  induction ops generalizing course with
  | nil => rfl
  | cons op ops ih =>
    rw [run, step_silent (ho op List.mem_cons_self),
      ih fun other hother => ho other (List.mem_cons_of_mem op hother)]
    rfl

structure Whole (course : Course) (place : Path) (history : List LogRecord) : Prop where
  sound : course.Sound place history
  ready : course.store.Ready course.disk place history
  logged : ∀ moment ∈ course.moments, moment.kind.hasLog = true
  fronts : ∀ moment ∈ course.moments, ∃ front, moment.Captured place front ∧ front <+: history

namespace Whole

variable {course : Course} {place : Path} {history : List LogRecord}

theorem step (h : course.Whole place history) (op : Store.Op) (hf : op.Fits)
    (ht : ∀ kind token, op = .take kind token → kind.hasLog = true ∧
      ∀ moment ∈ course.moments, moment.token.value < token.value) :
    (course.step op).Whole place (history ++ course.store.adds op) := by
  have hnew : ∀ moment ∈ (course.step op).moments, moment ∈ course.moments ∨
      moment.kind.hasLog = true ∧ moment.Captured place history := by
    intro moment hm
    rcases mem_moments_step hm with hm | ⟨kind, token, rfl, rfl⟩
    · exact Or.inl hm
    · exact Or.inr ⟨(ht kind token rfl).1, h.ready⟩
  refine ⟨h.sound.step fun token htoken => ?_, ?_, fun moment hm => ?_, fun moment hm => ?_⟩
  · cases op with
    | take kind token =>
      obtain rfl := Option.some.inj htoken
      exact (ht kind token rfl).2
    | _ => cases htoken
  · have hrun := @Store.Ready.run _ _ _ _ h.ready [op] fun other ho => List.mem_singleton.mp ho ▸ hf
    have hstate := step_state op course
    rw [Store.run, Store.run, Store.added, Store.added, List.append_nil, ← hstate] at hrun
    exact hrun
  · rcases hnew moment hm with hm | hm
    · exact h.logged moment hm
    · exact hm.1
  · rcases hnew moment hm with hm | hm
    · obtain ⟨front, hcaptured, hfront⟩ := h.fronts moment hm
      exact ⟨front, hcaptured, hfront.trans (List.prefix_append _ _)⟩
    · exact ⟨history, hm.2, List.prefix_append _ _⟩

theorem run_silent (h : course.Whole place history) {ops : List Store.Op}
    (ho : ∀ op ∈ ops, op.Fits ∧ op.Silent) :
    (∃ grown, (course.run ops).Whole place grown) ∧
      Disk.WorksIn (place <+: ·) course.disk (course.run ops).disk := by
  induction ops generalizing course history with
  | nil => exact ⟨⟨history, h⟩, .refl h.sound.logs.wellFormed⟩
  | cons op ops ih =>
    obtain ⟨hf, hsilent⟩ := ho op List.mem_cons_self
    have hworks : Disk.WorksIn (place <+: ·) course.disk
        (Store.step op (course.store, course.disk)).2 :=
      h.sound.tends.worksIn_step h.sound.logs (List.prefix_append place) op
    have hstep := h.step op hf fun kind token he => by
      rw [he] at hsilent
      exact hsilent.elim
    obtain ⟨hgrown, hlater⟩ := ih hstep fun other hm => ho other (List.mem_cons_of_mem op hm)
    have hdisk : (course.step op).disk = (Store.step op (course.store, course.disk)).2 := by
      rw [step_silent hsilent]
    rw [← hdisk] at hworks
    exact ⟨hgrown, hworks.trans hlater⟩

theorem frame {own : Path → Prop} {store : Store} {disk other : Disk} {taken : Option Moment}
    {completed : List Moment} (h : Whole { store, disk, taken, completed } place history)
    (hw : Disk.WorksIn own disk other) (hp : ∀ rest, ¬ own (place ++ rest)) :
    Whole { store, disk := other, taken, completed } place history :=
  ⟨hw.sound hp h.sound, hw.ready hp h.ready, h.logged, h.fronts⟩

theorem front_le {front other : List LogRecord} (hf : front <+: history) (ho : other <+: history)
    (hl : (Log.image front).length ≤ (Log.image other).length) : front <+: other := by
  rcases List.prefix_or_prefix_of_prefix hf ho with hp | ⟨more, rfl⟩
  · exact hp
  · rw [Log.image_append, List.length_append] at hl
    have hmore := Log.length_le_image more
    have hnil := List.eq_nil_of_length_eq_zero (show more.length = 0 by omega)
    simp only [hnil, List.append_nil, List.prefix_refl]

/-- What is left when the store is closed is covered by the newest of the completed checkpoints. -/
theorem close (h : course.Whole place history) : ∃ newest,
    Timeline.Covered ⟨course.store.close course.disk, course.completed⟩ course.store.dir place
      newest := by
  have hin : ∀ moment ∈ course.completed, moment ∈ course.moments := fun moment hm =>
    List.mem_append_right _ hm
  have hleft :
      Store.Left (course.store.close course.disk) course.store.dir place course.completed :=
    (h.sound.leaves fun moment hm _ => by
      obtain ⟨front, hcaptured, hfront⟩ := h.fronts moment (hin moment hm)
      exact ⟨front, hcaptured.keeps.toLogs, Log.image_prefix hfront⟩).left
  have hends : Timeline.EndsOnLog ⟨course.store.close course.disk, course.completed⟩ :=
    fun last hl => h.logged last (hin last (List.mem_of_head? hl))
  cases hc : course.completed with
  | nil =>
    rw [hc] at hleft hends
    exact ⟨[],
      { left := hleft, endsOnLog := hends, fronts := by simp, newest := by simp, empty := by simp }⟩
  | cons last rest =>
    -- all that was captured before begins the history of the last, as its log is not longer
    obtain ⟨newest, hlast, hnewest⟩ := h.fronts last (hin last (hc ▸ List.mem_cons_self))
    have hfirst := hleft.newestFirst
    rw [hc] at hleft hends hfirst
    refine ⟨newest,
      { left := hleft
        endsOnLog := hends
        fronts := fun moment hm => ?_
        newest := by simpa using hlast
        empty := by simp }⟩
    rcases List.mem_cons.mp hm with rfl | hm
    · exact ⟨newest, [], hlast, List.append_nil _⟩
    · have hmember := hin moment (hc ▸ List.mem_cons_of_mem last hm)
      obtain ⟨front, hcaptured, hfront⟩ := h.fronts moment hmember
      have htail := ((Moment.newestFirst_cons.mp hfirst).1 moment hm).tail (h.logged moment hmember)
      rw [hcaptured.keeps.tail_eq, hlast.keeps.tail_eq] at htail
      obtain ⟨back, hback⟩ := front_le hfront hnewest (Nat.le_of_add_le_add_left htail)
      exact ⟨front, back, hcaptured, hback⟩

end Whole

end Course

end PredicateIndex
