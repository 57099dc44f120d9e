import PredicateIndex.Proofs.CheckpointCourse
import PredicateIndex.Proofs.Recovering

/-!
# What a closed store leaves behind

After a store is closed its directory has the parts of the checkpoints that were
completed, and its log file begins with the records of each of their log parts.
A store that is opened there finds both, whatever was in memory only.
-/

set_option autoImplicit false

namespace PredicateIndex

open CheckpointDir

namespace Store

structure Left (disk : Disk) (dir place : Path) (completed : List Moment) : Prop where
  openable : Openable disk dir place
  parts : Lists disk place completed
  newestFirst : Moment.NewestFirst completed
  covers : ∀ moment ∈ completed, moment.kind.hasLog = true → ∃ history id,
    moment.store.Logs moment.disk place history ∧
      disk.entry? (place ++ [Log.fileName]) = some (.file id) ∧ Log.Covers disk id history

structure Reopened (store : Store) (disk : Disk) (place : Path) (completed : List Moment) :
    Prop where
  keeps : store.Keeps disk place []
  tends : store.Tends disk place
  parts : Lists disk place completed
  newestFirst : Moment.NewestFirst completed
  covers : ∀ moment ∈ completed, moment.kind.hasLog = true → ∃ history,
    moment.store.Logs moment.disk place history ∧ Log.Covers disk store.log.file history
  captured : store.captured = none
  awaitingRecovery : store.awaitingRecovery = (completed.find? (·.kind.hasLog)).isSome

variable {disk : Disk} {dir place : Path} {completed : List Moment}

theorem Left.ofEmpty (ho : Openable disk dir place)
    (he : ∀ rest, rest ≠ [] → disk.entry? (place ++ rest) = none) : Left disk dir place [] where
  openable := ho
  parts := by
    have hnone : ∀ token name, part? disk place token name = none := by
      intro token name
      have hp : partPlace place token name = place ++ ["checkpoints", token.text, name] := by
        simp [partPlace, tokenPlace, rootPlace]
      rw [part?, hp, he _ (by simp)]
    exact ⟨fun token => hnone token _, fun token => hnone token _⟩
  newestFirst := List.Pairwise.nil
  covers := by simp

/-- A store can be opened, and finds what was left. -/
theorem Left.open (h : Left disk dir place completed) (config : Config) :
    ∃ store opened lock, Store.open? dir config disk = (.ok store, opened) ∧
      store.Opened dir config lock ((completed.find? (·.kind.hasLog)).map Moment.token) ∧
      store.Reopened opened place completed := by
  obtain ⟨store, opened, latest, lock, hopen, ho, hk, ht, hparts, hlatest, hkept⟩ :=
    h.openable.open config
  have hlists := h.parts.congr hparts
  have hnewest := hlists.latestLog ht.tidy (ho.dir ▸ hk.homed) h.newestFirst
  rw [hlatest] at hnewest
  obtain rfl := Except.ok.inj hnewest
  refine ⟨store, opened, lock, hopen, ho, hk, ht, hlists, h.newestFirst, fun moment hm hlog => ?_,
    ho.captured, ?_⟩
  · obtain ⟨history, id, hlogs, hentry, hcovers⟩ := h.covers moment hm hlog
    have hpart : (part? disk place moment.token logFile).isSome := by
      rw [h.parts.log, Moment.found_of_mem h.newestFirst hm, Option.isSome_map,
        Moment.isSome_logPart, hlog]
    obtain ⟨hfile, hcontent⟩ := hkept moment.token hpart id hentry hcovers.origin_le
    refine ⟨history, hlogs, ?_⟩
    rw [hfile]
    exact hcovers.congr hcontent
  · rw [ho.awaitingRecovery, Option.isSome_map]

end Store

structure Disk.EmptyDir (disk : Disk) (dir place : Path) : Prop where
  wellFormed : disk.WellFormed
  homed : Disk.Homed disk dir place
  nothing : ∀ rest, rest ≠ [] → disk.entry? (place ++ rest) = none
  locks : ∀ id ∈ disk.locked, id < disk.files.length

def Disk.withDir (name : String) : Disk := { entries := [([name], .directory)] }

theorem Disk.emptyDir_withDir {name : String} (hn : Path.Plain name) :
    (withDir name).EmptyDir [name] [name] := by
  have hentry : ∀ p id, Disk.entry? (withDir name) p ≠ some (.file id) := by
    intro p id
    rw [ entry?, withDir]
    by_cases hp : p = []
    · simp [hp]
    · rw [if_neg hp, Lookup.cons_eq]
      split <;> simp
  constructor
  · exact ⟨fun p id h => (hentry p id h).elim, fun p _ id h => (hentry p id h).elim, List.nodup_nil⟩
  · apply homed_of_locate
    have hs : (withDir name).step [] name = .ok [name] := step_plain rfl hn
    have hr : (withDir name).resolve [name] = .ok [name] := by
      rw [resolve, List.foldlM_cons, hs]
      rfl
    have he : Disk.entry? (withDir name) [name] = some .directory := by simp [ entry?, withDir]
    rw [locate, hr]
    simp only [bind, Except.bind, he]
    rfl
  · intro rest hrest
    rw [ entry?, if_neg (by simp), withDir, Lookup.cons_eq, if_neg]
    · rfl
    · simpa using hrest
  · intro id hm
    cases hm

theorem Disk.EmptyDir.left {disk : Disk} {dir place : Path} (h : disk.EmptyDir dir place) :
    Store.Left disk dir place [] := by
  have hnothing : ∀ name, disk.entry? (place ++ [name]) = none := fun name => h.nothing _ (by simp)
  apply Store.Left.ofEmpty _ h.nothing
  refine ⟨h.wellFormed, h.homed, CheckpointDir.Tidy.ofEmpty h.nothing, ?_, Or.inl (hnothing _)⟩
  exact Or.inl ⟨hnothing _, fun hm => Nat.lt_irrefl _ (h.locks _ hm)⟩

theorem Store.Reopened.sound {store : Store} {disk : Disk} {place : Path} {completed : List Moment}
    (h : store.Reopened disk place completed)
    (hn : ∀ moment ∈ completed, moment.kind.hasLog = false) :
    Course.Sound { store, disk, completed } place [] where
  logs := h.keeps.toLogs
  tends := h.tends
  captured := h.captured
  parts := h.parts
  flushed := by
    intro moment hm hk
    simp [hn moment hm] at hk
  tailed := by simp
  newestFirst := h.newestFirst

structure Store.Leaves (store : Store) (disk : Disk) (place : Path) (history : List LogRecord)
    (completed : List Moment) : Prop where
  tends : store.Tends disk place
  logs : store.Logs disk place history
  parts : Lists disk place completed
  newestFirst : Moment.NewestFirst completed
  covers : ∀ moment ∈ completed, moment.kind.hasLog = true →
    moment.store.log.tail ≤ store.log.flushed ∧ ∃ front,
      moment.store.Logs moment.disk place front ∧ Log.image front <+: Log.image history

theorem Store.Leaves.left {store : Store} {disk : Disk} {place : Path} {history : List LogRecord}
    {completed : List Moment} (h : store.Leaves disk place history completed) :
    Store.Left (store.close disk) store.dir place completed where
  openable := h.tends.close h.logs
  parts := h.parts.congr fun _ _ => rfl
  newestFirst := h.newestFirst
  covers := by
    intro moment hm hlog
    obtain ⟨hflushed, front, hlogs, himage⟩ := h.covers moment hm hlog
    rw [hlogs.tail_eq] at hflushed
    have hcovers := h.logs.holds.covers h.logs.start himage hflushed
    exact ⟨front, store.log.file, hlogs, h.logs.entry, hcovers.congr rfl⟩

theorem Course.Sound.leaves {course : Course} {place : Path} {history : List LogRecord}
    (h : course.Sound place history)
    (hl : ∀ moment ∈ course.completed, moment.kind.hasLog = true → ∃ front,
      moment.store.Logs moment.disk place front ∧ Log.image front <+: Log.image history) :
    course.store.Leaves course.disk place history course.completed :=
  ⟨h.tends, h.logs, h.parts, List.Pairwise.sublist (List.sublist_append_right _ _) h.newestFirst,
    fun moment hm hlog => ⟨h.flushed moment hm hlog, hl moment hm hlog⟩⟩

theorem Course.Sound.left_run {course : Course} {place : Path} {history : List LogRecord}
    (h : course.Sound place history) {ops : List Store.Op} (ht : Course.Ascends course.moments ops)
    (hl : ∀ moment ∈ course.moments, moment.kind.hasLog = true → ∃ front,
      moment.store.Logs moment.disk place front ∧ Log.image front <+: Log.image history) :
    Store.Left ((course.run ops).store.close (course.run ops).disk) course.store.dir place
      (course.run ops).completed := by
  have hrun := h.run ht
  have hleft := (hrun.leaves fun moment hm hlog => ?_).left
  · rwa [dir_run] at hleft
  · rcases logs_of_run h.logs (List.mem_append_right _ hm) with hm | ⟨front, hlogs, hfront⟩
    · obtain ⟨front, hlogs, hfront⟩ := hl moment hm hlog
      refine ⟨front, hlogs, hfront.trans ?_⟩
      rw [Log.image_append]
      exact List.prefix_append _ _
    · exact ⟨front, hlogs, Log.image_prefix hfront⟩

namespace Store

namespace Reopened

variable {store : Store} {disk : Disk} {place : Path} {completed : List Moment}

theorem covers_of_logs (h : store.Reopened disk place completed) {moment : Moment}
    (hm : moment ∈ completed) (hk : moment.kind.hasLog = true) {history : List LogRecord}
    (hl : moment.store.Logs moment.disk place history) :
    Log.Covers disk store.log.file history := by
  obtain ⟨found, hfound, hcovers⟩ := h.covers moment hm hk
  have himage : Log.image history = Log.image found :=
    hl.holds.bytes_eq.symm.trans hfound.holds.bytes_eq
  apply hcovers.mono
  simp only [himage, List.prefix_refl]

theorem chooseLog_newest (h : store.Reopened disk place completed) {moment : Moment}
    (hm : completed.find? (·.kind.hasLog) = some moment) :
    store.chooseLog none disk = .ok moment.token := by
  have hnewest := h.parts.latestLog h.tends.tidy h.keeps.homed h.newestFirst
  simp only [chooseLog, hnewest, hm, Option.map_some]
  rfl

theorem chooseIndex_newest (h : store.Reopened disk place completed) (bound : Token) :
    store.chooseIndex none bound disk =
      .ok ((completed.find? (Moment.hasIndexUpTo bound)).map Moment.token) :=
  h.parts.latestIndexBefore h.tends.tidy h.keeps.homed h.newestFirst bound

variable {index log : Option Token} {moment : Moment}

theorem bounds {history : List LogRecord} (h : moment.store.Logs moment.disk place history)
    (hf : moment.Fits) {source : RecoverySource} (hs : source.log = moment.log) :
    source.Bounds history := by
  have htail := h.tail_eq
  have hlt := hf.tail
  constructor
  · rw [hs, Moment.log, h.start]
    rfl
  · rw [hs, Moment.log, ← htail]
    exact UInt64.toNat_ofNat_of_lt' hlt

theorem recover_error (h : store.Reopened disk place completed) {fault : Fault}
    (hs : store.recoverySource index log disk = .error fault) :
    store.recover index log disk = (.error fault, store, disk) := by
  simp only [recover, h.keeps.toLogs.isEmpty, hs]
  rfl

theorem source_log (h : store.Reopened disk place completed) (hm : moment ∈ completed)
    (hk : moment.kind.hasLog = true) (hf : moment.Fits)
    (hlog : store.chooseLog log disk = .ok moment.token)
    (hindex : store.chooseIndex index moment.token disk = .ok none) :
    store.recoverySource index log disk =
      .ok ⟨moment.token, moment.log, [], moment.log.start.toNat⟩ := by
  have hread := h.parts.readLog h.tends.tidy h.keeps.homed h.newestFirst hm hk hf
  simp only [recoverySource, hlog, hread, hindex, bind, Except.bind]
  rfl

theorem source_index (h : store.Reopened disk place completed) (hm : moment ∈ completed)
    (hk : moment.kind.hasLog = true) (hf : moment.Fits)
    (hlog : store.chooseLog log disk = .ok moment.token) {base : Moment} (hb : base ∈ completed)
    (hbk : base.kind.hasIndex = true) (hbf : base.Fits)
    (hindex : store.chooseIndex index moment.token disk = .ok (some base.token)) :
    store.recoverySource index log disk =
      if moment.log.tail < base.index.logTail then
        .error (.indexPastLog base.token base.index.logTail moment.token moment.log.tail)
      else .ok ⟨moment.token, moment.log, base.store.heads, base.index.logTail.toNat⟩ := by
  have hread := h.parts.readLog h.tends.tidy h.keeps.homed h.newestFirst hm hk hf
  have hbase := h.parts.readIndex h.tends.tidy h.keeps.homed h.newestFirst hb hbk hbf
  simp only [recoverySource, hlog, hread, hindex, hbase, bind, Except.bind]
  split <;> rfl

theorem recover_scan (h : store.Reopened disk place completed) (hm : moment ∈ completed)
    (hk : moment.kind.hasLog = true) (hf : moment.Fits) {history : List LogRecord}
    (hl : moment.store.Logs moment.disk place history) {source : RecoverySource}
    (hs : store.recoverySource index log disk = .ok source) (htoken : source.token = moment.token)
    (hlog : source.log = moment.log) :
    ∃ other, (store.restored source).Logs other place history ∧
      ((∃ fault, (store.restored source).log.scan source.replayFrom (store.restored source).log.tail
            other = .error fault ∧
          store.recover index log disk = (.error fault, store.restored source, other)) ∨
        ∃ rest, (store.restored source).log.scan source.replayFrom (store.restored source).log.tail
            other = .ok rest ∧
          store.recover index log disk = (.ok moment.token, store.replayed source rest, other) ∧
          (store.replayed source rest).Logs other place history) := by
  have hb := bounds hl hf hlog
  have hc := h.covers_of_logs hm hk hl
  have hlogs := h.keeps.toLogs.restored hb hc
  refine ⟨_, hlogs, ?_⟩
  rcases h.keeps.toLogs.recover_cases hs (hb.tail ▸ hc.length_le) with
    ⟨fault, hr, he⟩ | ⟨rest, hr, he⟩
  · exact Or.inl ⟨fault, hr, he⟩
  · rw [htoken] at he
    exact Or.inr ⟨rest, hr, he, hlogs.congr rfl rfl⟩

/-- What is scanned are the records of the log part from where the index part ends. -/
theorem recover_source (h : store.Reopened disk place completed) (hm : moment ∈ completed)
    (hk : moment.kind.hasLog = true) (hf : moment.Fits) {history : List LogRecord}
    (hl : moment.store.Logs moment.disk place history) {source : RecoverySource}
    (hs : store.recoverySource index log disk = .ok source) (htoken : source.token = moment.token)
    (hlog : source.log = moment.log) (hfrom : Log.origin ≤ source.replayFrom)
    (hto : source.replayFrom ≤ moment.store.log.tail) :
    (∃ fault, moment.store.recordsFrom moment.disk source.replayFrom = .error fault ∧
        ∃ failed other, store.recover index log disk = (.error fault, failed, other)) ∨
      ∃ rest other, moment.store.recordsFrom moment.disk source.replayFrom = .ok rest ∧
        store.recover index log disk = (.ok moment.token, store.replayed source rest, other) ∧
        (store.replayed source rest).Logs other place history := by
  obtain ⟨other, hlogs, hcases⟩ := h.recover_scan hm hk hf hl hs htoken hlog
  have hscan := hlogs.scan rfl hfrom (by rw [hlogs.tail_eq, ← hl.tail_eq]; exact hto)
  rw [hlogs.recordsFrom_eq, ← hl.recordsFrom_eq] at hscan
  rcases hcases with ⟨fault, hr, he⟩ | ⟨rest, hr, he, hafter⟩
  · exact Or.inl ⟨fault, hscan.symm.trans hr, _, _, he⟩
  · exact Or.inr ⟨rest, other, hscan.symm.trans hr, he, hafter⟩

end Reopened

end Store

end PredicateIndex
