import PredicateIndex.Proofs.FileSteps
import PredicateIndex.Proofs.LeftBehind

/-!
# The steps of completing a checkpoint

Completing a checkpoint flushes the log byte after byte and then, for each of
its parts, makes the directories, writes a draft byte after byte and renames it.
Wherever this stops, the checkpoint directory has the parts that were there and
at most the ones that have been renamed, and the log file begins as it did.
-/

set_option autoImplicit false

namespace PredicateIndex

open CheckpointDir

def Log.flushSteps (log : Log) : List FileStep :=
  if log.flushed < log.tail then
    FileStep.writes log.path log.flushed (log.buffer.drop (log.flushed - log.head))
  else []

namespace CheckpointDir

def renameStep (dir : Path) (token : Token) (name : String) : FileStep :=
  .rename ((tokenDir dir token).child (draftFile name)) ((tokenDir dir token).child name)

def draftSteps (dir : Path) (token : Token) (name : String) (payload : Bytes) : List FileStep :=
  [.makeDir (root dir), .makeDir (tokenDir dir token),
    .create ((tokenDir dir token).child (draftFile name))] ++
    FileStep.writes ((tokenDir dir token).child (draftFile name)) 0 (Frame.wrap payload)

def writeSteps (dir : Path) (token : Token) (name : String) (payload : Bytes) : List FileStep :=
  draftSteps dir token name payload ++ [renameStep dir token name]

def partSteps (dir : Path) (name : String) (part : Option (Token × Bytes)) : List FileStep :=
  match part with
  | some (token, payload) => writeSteps dir token name payload
  | none => []

end CheckpointDir

def Store.completionSteps (store : Store) : List FileStep :=
  match store.captured with
  | some captured =>
    (if captured.log.isSome then store.log.flushSteps else []) ++
      (partSteps store.dir indexFile (captured.index.map IndexCheckpoint.part) ++
        partSteps store.dir logFile (captured.log.map LogCheckpoint.part))
  | none => []

namespace CheckpointDir

theorem renameStep_notMem_draftSteps (home : Path) (owner : Token) (last : String) (dir : Path)
    (token : Token) (name : String) (payload : Bytes) :
    renameStep home owner last ∉ draftSteps dir token name payload := by
  simp [renameStep, draftSteps, FileStep.rename_notMem_writes]

theorem name_of_renameStep {home dir : Path} {owner token : Token} {last name : String}
    (h : renameStep home owner last = renameStep dir token name) : last = name := by
  have htarget := (FileStep.rename.inj h).2
  rw [Path.child_eq, Path.child_eq] at htarget
  exact (List.cons.inj (List.append_inj' htarget rfl).2).1

theorem renameStep_notMem_partSteps (home : Path) (owner : Token) {last name : String}
    (hne : last ≠ name) (dir : Path) (part : Option (Token × Bytes)) :
    renameStep home owner last ∉ partSteps dir name part := by
  intro hm
  rcases part with _ | ⟨token, payload⟩
  · cases hm
  · rcases List.mem_append.mp hm with hm | hm
    · exact renameStep_notMem_draftSteps _ _ _ _ _ _ _ hm
    · exact hne (name_of_renameStep (List.mem_singleton.mp hm))

end CheckpointDir

theorem Log.renameStep_notMem_flushSteps (log : Log) (dir : Path) (token : Token) (name : String) :
    renameStep dir token name ∉ log.flushSteps := by
  rw [Log.flushSteps]
  split
  · exact FileStep.rename_notMem_writes _ _ _ _ _
  · exact List.not_mem_nil

/-- The last step of completing a checkpoint with a log is the one that renames the log part. -/
theorem Store.renameStep_mem_iff {store : Store} {moment : Moment}
    (hc : store.captured = some moment.captured) {performed : List FileStep}
    (hp : performed <+: store.completionSteps) :
    renameStep store.dir moment.token logFile ∈ performed ↔
      moment.kind.hasLog = true ∧ performed = store.completionSteps := by
  have hindex := renameStep_notMem_partSteps store.dir moment.token
    (show logFile ≠ indexFile by decide) store.dir moment.indexPart
  cases hk : moment.kind.hasLog with
  | false =>
    have hnone : moment.captured.log = none := by
      rw [Moment.captured, Store.capture, hk]
      rfl
    have hsteps : store.completionSteps = partSteps store.dir indexFile moment.indexPart := by
      rw [Store.completionSteps, hc]
      simp only [hnone, Option.map_none, partSteps, List.append_nil]
      rfl
    rw [hsteps] at hp
    exact ⟨fun hm => (hindex (hp.subset hm)).elim, fun h => Bool.noConfusion h.1⟩
  | true =>
    have hsome : moment.captured.log = some moment.log := by
      rw [Moment.captured, Store.capture, hk]
      rfl
    obtain ⟨front, hsteps, hfront⟩ : ∃ front,
        store.completionSteps = front ++ [renameStep store.dir moment.token logFile] ∧
          renameStep store.dir moment.token logFile ∉ front := by
      refine ⟨store.log.flushSteps ++ (partSteps store.dir indexFile moment.indexPart ++
        draftSteps store.dir moment.token logFile (Payload.log moment.log)), ?_, fun hm => ?_⟩
      · rw [Store.completionSteps, hc]
        simp only [hsome, Option.isSome_some, if_true, Option.map_some, LogCheckpoint.part, partSteps,
          writeSteps, List.append_assoc]
        rfl
      · rcases List.mem_append.mp hm with hm | hm
        · exact Log.renameStep_notMem_flushSteps _ _ _ _ hm
        · rcases List.mem_append.mp hm with hm | hm
          · exact hindex hm
          · exact renameStep_notMem_draftSteps _ _ _ _ _ _ _ hm
    rw [hsteps] at hp ⊢
    constructor
    · intro hm
      rcases List.prefix_concat_iff.mp hp with he | hbefore
      · exact ⟨rfl, he⟩
      · exact (hfront (hbefore.subset hm)).elim
    · rintro ⟨-, rfl⟩
      exact List.mem_append_right _ (List.mem_singleton_self _)

namespace CheckpointDir

variable {disk : Disk} {dir place : Path} {name : String}

theorem Drafts.refl (h : Tidy disk place) (hw : disk.WellFormed) : Drafts name place disk disk :=
  ⟨.refl hw, h, fun _ _ _ => rfl⟩

theorem Tidy.endures_write (h : Tidy disk place) (hw : disk.WellFormed)
    (hd : Disk.Homed disk dir place) (token : Token) (hn : Path.Plain name)
    (hdraft : Path.Plain (draftFile name)) (payload : Bytes) :
    Disk.Endures (Drafts name place disk)
      (fun other => write dir token name payload disk = (.ok (), other)) disk
      (writeSteps dir token name payload) := by
  obtain ⟨first, made, id, opened, hfirst, hmade, hopen, hf, hm, ho, htoken, he⟩ :=
    h.draft_ok hw hd token hdraft
  have hfill : ∀ bytes, Drafts name place disk (opened.setContent id bytes) := fun bytes =>
    ho.trans (ho.tidy.fillDraft ho.spares.wellFormed he bytes)
  have hhome : ∀ bytes, Disk.Homed (opened.setContent id bytes) (tokenDir dir token)
      (tokenPlace place token) := fun _ => ⟨htoken.resolve, htoken.directory⟩
  have hr := ho.spares.wellFormed.inRange _ _ he
  have hempty := Disk.write_empty hr
  have hfind : (opened.setContent id []).find ((tokenDir dir token).child (draftFile name)) =
      .ok id := by
    have hlocate := (hhome []).locate_child hdraft he
    rw [Disk.find, hlocate]
    rfl
  have hwrites : Disk.Endures (Drafts name place disk)
      (· = opened.setContent id (Frame.wrap payload)) (opened.setContent id [])
      (FileStep.writes ((tokenDir dir token).child (draftFile name)) 0 (Frame.wrap payload)) := by
    refine .writes hfind (by rwa [Disk.length_setContent]) (Nat.zero_le _) (fun front _ => ?_)
      (hempty _)
    rw [hempty]
    exact hfill front
  have hfilled := hfill (Frame.wrap payload)
  obtain ⟨moved, hmove, -⟩ := hfilled.tidy.moveDraft (hhome _) hn hdraft he
  have hdirs := Disk.createDirs_of_ensureDir hd (by decide) token.plain_text hfirst hmade
  have hwrite : write dir token name payload disk = (.ok (), moved) := by
    rw [write_made (show disk.createDirs (tokenDir dir token) = (.ok (), made) from hdirs)]
    simp only [hopen, hmove]
  have hrename : Disk.Endures (Drafts name place disk)
      (fun other => write dir token name payload disk = (.ok (), other))
      (opened.setContent id (Frame.wrap payload)) [renameStep dir token name] :=
    .step hfilled hmove (.done hwrite)
  rw [writeSteps, draftSteps, List.append_assoc]
  refine .step (.refl h hw) (by rw [FileStep.perform, hfirst]) ?_
  refine .step hf (by rw [FileStep.perform, hmade]) ?_
  refine .step hm (by rw [FileStep.perform, hopen]; rfl) ?_
  exact hwrites.append fun other ho => ho ▸ hrename

theorem Lists.drafts {other : Disk} {completed : List Moment} (h : Lists disk place completed)
    (hn : name ∈ partFiles) (hd : Drafts name place disk other) : Lists other place completed :=
  ⟨fun token => (hd.parts token _ (ne_draftFile name hn _ indexFile_mem)).trans (h.index token),
    fun token => (hd.parts token _ (ne_draftFile name hn _ logFile_mem)).trans (h.log token)⟩

end CheckpointDir

def Moment.indexOnly (moment : Moment) : Moment := { moment with kind := .index }

namespace Store

variable {store : Store} {disk other : Disk} {place : Path} {history : List LogRecord}
  {completed : List Moment}

namespace Leaves

theorem write (h : store.Leaves disk place history completed) (patch : Bytes) :
    store.Leaves (disk.write store.log.file store.log.flushed patch) place history completed := by
  have hwrites := Disk.writesOnly_setContent disk store.log.file
    ((disk.content store.log.file).overwrite store.log.flushed patch)
  obtain ⟨htends, hparts⟩ := h.tends.writes h.logs hwrites
    (h.logs.holds.signed_write h.logs.start h.tends.signed patch)
  have hlogs := h.logs.writesOnly hwrites rfl rfl rfl (h.logs.holds.write patch) h.logs.aligned
  exact ⟨htends, hlogs, h.parts.congr hparts, h.newestFirst, h.covers⟩

theorem beforeParts (h : store.Leaves disk place history completed)
    (captured : CapturedCheckpoint) :
    (store.beforeParts captured disk).1.Leaves (store.beforeParts captured disk).2 place history
      completed := by
  obtain ⟨htends, hlogs, hparts, hsame⟩ := h.tends.beforeParts h.logs captured
  refine ⟨htends, hlogs, h.parts.congr hparts, h.newestFirst, fun moment hm hk => ?_⟩
  obtain ⟨hflushed, hfront⟩ := h.covers moment hm hk
  refine ⟨?_, hfront⟩
  have hle := h.logs.holds.flushed_le
  rw [hsame]
  dsimp only
  split
  · exact Nat.le_trans hflushed hle
  · exact hflushed

theorem drafts {name : String} (h : store.Leaves disk place history completed)
    (hn : name ∈ partFiles) (hd : Drafts name place disk other) :
    store.Leaves other place history completed := by
  have hforeign := foreign_partFiles name hn
  exact ⟨h.tends.spared h.logs hforeign hd.spares hd.tidy,
    h.logs.frame hd.spares (hforeign.log place),
    h.parts.drafts hn hd, h.newestFirst, h.covers⟩

theorem endures_flush (h : store.Leaves disk place history completed)
    (captured : CapturedCheckpoint) :
    Disk.Endures (fun other => store.Leaves other place history completed)
      (fun other => (store.beforeParts captured disk).2 = other) disk
      (if captured.log.isSome then store.log.flushSteps else []) := by
  rw [Store.beforeParts]
  split
  · have hfind : disk.find store.log.path = .ok store.log.file := by
      rw [h.logs.path, Disk.find,
        h.logs.homed.locate_child (show Path.Plain Log.fileName by decide) h.logs.entry]
      rfl
    rw [Log.flushSteps, flush_eq, Log.flush]
    split
    · exact .writes hfind h.logs.holds.inRange h.logs.holds.reaches (fun front _ => h.write front)
        rfl
    · exact .done rfl
  · exact .done rfl

theorem endures_writePart {name : String} (h : store.Leaves disk place history completed)
    (hn : name ∈ partFiles) (part : Option (Token × Bytes)) :
    Disk.Endures (fun other => store.Leaves other place history completed)
      (fun other => writePart store.dir name part disk = (.ok (), other)) disk
      (partSteps store.dir name part) := by
  obtain ⟨hplain, hdraft⟩ := plain_partFiles name hn
  rcases part with _ | ⟨token, payload⟩
  · exact .done rfl
  · have hsteps := h.tends.tidy.endures_write h.logs.wellFormed h.logs.homed token hplain hdraft
      payload
    exact hsteps.mono (fun other hd => h.drafts hn hd) fun _ hp => hp

theorem indexPart (h : store.Leaves disk place history completed) {moment : Moment}
    (hk : moment.kind.hasIndex = true)
    (hn : Moment.NewestFirst (moment :: completed))
    (hw : writePart store.dir indexFile moment.indexPart disk = (.ok (), other)) :
    store.Leaves other place history (moment.indexOnly :: completed) := by
  obtain ⟨second, hsecond, htidy, hindex, hkept⟩ :=
    h.tends.tidy.writePart_ok h.logs.wellFormed h.logs.homed indexFile_mem moment.indexPart
  rw [hw] at hsecond
  obtain rfl := (Prod.mk.inj hsecond).2
  obtain ⟨htends, hlogs⟩ := h.tends.writePart h.logs indexFile_mem hw htidy
  have hcons := Moment.newestFirst_cons.mp hn
  have hpart : moment.indexOnly.indexPart = moment.indexPart := by
    rw [Moment.indexPart_eq hk, Moment.indexPart_eq rfl]
    rfl
  refine ⟨htends, hlogs,
    h.parts.add hn.fresh (fun token => hpart ▸ hindex token) (hkept logFile logFile_mem (by decide)),
    Moment.newestFirst_cons.mpr ⟨fun earlier hm => ?_, hcons.2⟩, fun earlier hm hlog => ?_⟩
  · exact ⟨(hcons.1 earlier hm).token, (hcons.1 earlier hm).tail⟩
  · rcases List.mem_cons.mp hm with rfl | hm
    · cases hlog
    · exact h.covers earlier hm hlog

theorem indexPart_cases (h : store.Leaves disk place history completed) {moment : Moment}
    (hn : Moment.NewestFirst (moment :: completed))
    (hw : writePart store.dir indexFile moment.indexPart disk = (.ok (), other)) :
    ∃ left, store.Leaves other place history left ∧
      (left = completed ∨ moment.kind.hasIndex = true ∧ left = moment.indexOnly :: completed) := by
  cases hk : moment.kind.hasIndex with
  | true => exact ⟨_, h.indexPart hk hn hw, Or.inr ⟨rfl, rfl⟩⟩
  | false =>
    have hnone : moment.indexPart = none := by
      rw [Moment.indexPart, Moment.captured, Store.capture, hk]
      rfl
    rw [hnone] at hw
    obtain rfl := (Prod.mk.inj hw).2
    exact ⟨_, h, Or.inl rfl⟩

end Leaves

end Store

namespace Course

variable {course : Course} {place : Path} {history : List LogRecord} {moment : Moment}

theorem Sound.left_complete (h : course.Sound place history) (ht : course.taken = some moment)
    (hl : ∀ earlier ∈ course.moments, earlier.kind.hasLog = true → ∃ front,
      earlier.store.Logs earlier.disk place front ∧ Log.image front <+: Log.image history) :
    Store.Left (course.store.close (course.store.complete course.disk).2.2) course.store.dir place
      (moment :: course.completed) := by
  have hcomplete := h.complete
  rw [(h.step_complete ht).2] at hcomplete
  have hleft := (hcomplete.leaves fun earlier hm => hl earlier (moments_taken ht ▸ hm)).left
  obtain ⟨log, captured, last, -, hsame⟩ := Store.complete_same course.store course.disk
  rw [hsame] at hleft
  exact hleft

/-- Completing a checkpoint that was taken endures a crash after any of its steps: what was
completed before is there, and at most the index part besides. -/
theorem Sound.endures_complete (h : course.Sound place history) (ht : course.taken = some moment)
    (hl : ∀ earlier ∈ course.moments, earlier.kind.hasLog = true → ∃ front,
      earlier.store.Logs earlier.disk place front ∧ Log.image front <+: Log.image history) :
    Disk.Endures
      (fun other => ∃ left,
        Store.Left (course.store.close other) course.store.dir place left ∧
          (left = course.completed ∨
            moment.kind.hasIndex = true ∧ left = moment.indexOnly :: course.completed))
      (fun other => (course.store.complete course.disk).2.2 = other ∧
        Store.Left (course.store.close other) course.store.dir place
          (moment :: course.completed)) course.disk
      course.store.completionSteps := by
  have hsome := h.captured_some ht
  have hnewest := h.newestFirst
  rw [moments_taken ht] at hnewest
  have hfinal := h.left_complete ht hl
  have hleaves := h.leaves fun earlier hm => hl earlier (List.mem_append_right _ hm)
  have hbefore := hleaves.beforeParts moment.captured
  obtain ⟨-, -, -, hsame⟩ := h.tends.beforeParts h.logs moment.captured
  have hflush := hleaves.endures_flush moment.captured
  cases hf : course.store.beforeParts moment.captured course.disk with
  | mk flushed opened =>
    rw [hf] at hbefore hsame hflush
    dsimp only at hbefore hsame hflush
    have hdir : flushed.dir = course.store.dir := by rw [hsame]
    have hclose : ∀ {other left}, flushed.Leaves other place history left →
        Store.Left (course.store.close other) course.store.dir place left := by
      intro other left hleft
      have hl := hleft.left
      rw [hdir, hsame] at hl
      exact hl
    have hindex := hbefore.endures_writePart indexFile_mem moment.indexPart
    rw [hdir] at hindex
    rw [Store.completionSteps, hsome]
    refine (hflush.mono (fun other ho => ⟨_, ho.left, Or.inl rfl⟩) fun _ ho => ho).append
      fun other hopened => ?_
    subst hopened
    refine (hindex.mono (fun other ho => ⟨_, hclose ho, Or.inl rfl⟩) fun _ ho => ho).append
      fun second hsecond => ?_
    rw [← hdir] at hsecond
    obtain ⟨left, hleft, hcases⟩ := hbefore.indexPart_cases hnewest hsecond
    have hlog := hleft.endures_writePart logFile_mem moment.logPart
    rw [hdir] at hlog
    refine hlog.mono (fun other ho => ⟨left, hclose ho, hcases⟩) fun third hthird => ?_
    rw [← hdir] at hthird
    rw [Store.complete_of_parts hsome hf hsecond hthird] at hfinal ⊢
    exact ⟨rfl, hfinal⟩

end Course

end PredicateIndex
