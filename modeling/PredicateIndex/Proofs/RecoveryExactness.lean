import PredicateIndex.Proofs.ChainSemantics
import PredicateIndex.Proofs.CommitPoints
import PredicateIndex.Proofs.FutureAnswers
import PredicateIndex.Proofs.LeftBehind

/-!
# Recovery within one run

All checkpoints of one run of a new store were captured along one growing list
of records. So any index part can be brought up to any log part that reaches as
far, and the recovered store is the one that was captured: it has its heads,
bounds, commit points and records, and answers like it from then on.
-/

set_option autoImplicit false

namespace PredicateIndex

namespace Store

structure Restores (store : Store) (disk : Disk) (moment : Moment) : Prop where
  heads : store.heads = moment.store.heads
  start : store.log.start = moment.store.log.start
  tail : store.log.tail = moment.store.log.tail
  commitPoints : store.sessions.commitPoints = moment.store.sessions.commitPoints
  records : ∃ entries, store.records disk = .ok entries ∧
    moment.store.records moment.disk = .ok entries
  answers : ∀ ops : List Op, (∀ op ∈ ops, op.Fits) →
    (run ops (store, disk)).1.log.tail ≤ Disk.offsetLimit →
      Store.answers ops (store, disk) = Store.answers ops (moment.store, moment.disk)

def RecoversTo (store : Store) (disk : Disk) (index log : Option Token) (moment : Moment) : Prop :=
  ∃ recovered other, store.recover index log disk = (.ok moment.token, recovered, other) ∧
    recovered.Restores other moment

structure Ready (store : Store) (disk : Disk) (place : Path) (history : List LogRecord) : Prop where
  keeps : store.Keeps disk place history
  awaitingRecovery : store.awaitingRecovery = false
  ascending : store.sessions.commitPoints.Ascending

namespace Ready

variable {store : Store} {disk : Disk} {place : Path} {history other : List LogRecord}

theorem unique (h : store.Ready disk place history) (ho : store.Ready disk place other) :
    history = other := by
  have hsame := Except.ok.inj (h.keeps.records.symm.trans ho.keeps.records)
  rw [← Log.map_addressed Log.origin history, hsame, Log.map_addressed]

theorem run (h : store.Ready disk place history) {ops : List Op} (hf : ∀ op ∈ ops, op.Fits) :
    (run ops (store, disk)).1.Ready (run ops (store, disk)).2 place
      (history ++ added ops (store, disk)) where
  keeps := h.keeps.run hf
  awaitingRecovery := (run_same ops store disk).awaitingRecovery.trans h.awaitingRecovery
  ascending := ascending_run h.ascending

end Ready

theorem Opened.ready {store : Store} {disk : Disk} {dir place : Path} {config : Config}
    {lock : FileLock} (h : store.Opened dir config lock none) (hk : store.Keeps disk place []) :
    store.Ready disk place [] := by
  refine ⟨hk, h.awaitingRecovery, ?_⟩
  rw [h.sessions]
  exact List.Pairwise.nil

def Resumes (store : Store) (disk : Disk) (index log : Option Token) (moment : Moment)
    (place : Path) (history : List LogRecord) : Prop :=
  ∃ recovered other, store.recover index log disk = (.ok moment.token, recovered, other) ∧
    recovered.Ready other place history ∧
    recovered.sessions.commitPoints = moment.store.sessions.commitPoints

end Store

abbrev Moment.Captured (moment : Moment) (place : Path) (history : List LogRecord) : Prop :=
  moment.store.Ready moment.disk place history

theorem Moment.Captured.recoversTo {moment : Moment} {place : Path} {history : List LogRecord}
    (h : moment.Captured place history) {store : Store} {disk : Disk} {index log : Option Token}
    (hr : store.Resumes disk index log moment place history) :
    store.RecoversTo disk index log moment := by
  obtain ⟨recovered, other, hrecover, hready, hpoints⟩ := hr
  refine ⟨recovered, other, hrecover, ?_⟩
  exact
    { heads := hready.keeps.heads.trans h.keeps.heads.symm
      start := hready.keeps.start.trans h.keeps.start.symm
      tail := hready.keeps.tail_eq.trans h.keeps.tail_eq.symm
      commitPoints := hpoints
      records := ⟨_, hready.keeps.records, h.keeps.records⟩
      answers := by
        intro ops hf hl
        have halike : Store.Alike (recovered, other) (moment.store, moment.disk) place history :=
          ⟨hready.keeps, h.keeps, hready.awaitingRecovery, h.awaitingRecovery⟩
        exact halike.answers_eq hf hl }

namespace Store.Reopened

variable {store : Store} {disk : Disk} {place : Path} {completed : List Moment}

theorem resumes (h : store.Reopened disk place completed) {index log : Option Token}
    {moment : Moment} (hm : moment ∈ completed) (hk : moment.kind.hasLog = true)
    (hf : moment.Fits) {front back : List LogRecord} (hc : moment.Captured place (front ++ back))
    {source : RecoverySource} (hs : store.recoverySource index log disk = .ok source)
    (htoken : source.token = moment.token) (hlog : source.log = moment.log)
    (hheads : source.heads = headsOf front)
    (hfrom : source.replayFrom = Log.origin + (Log.image front).length) :
    store.Resumes disk index log moment place (front ++ back) := by
  have hto : source.replayFrom ≤ moment.store.log.tail := by
    rw [hfrom, hc.keeps.tail_eq, Log.image_append, List.length_append]
    omega
  have hread : moment.store.recordsFrom moment.disk source.replayFrom =
      .ok (Log.addressed source.replayFrom back) := by
    rw [hc.keeps.recordsFrom_eq, hfrom, Nat.add_sub_cancel_left, Log.image_append, List.drop_left]
    exact Log.records_image (fun record hr => hc.keeps.storable record (List.mem_append_right _ hr))
      (Log.length_le_image back) _
  rcases h.recover_source hm hk hf hc.keeps.toLogs hs htoken hlog (by omega) hto with
    ⟨fault, hfault, -⟩ | ⟨rest, other, hrest, hrecover, hlogs⟩
  · cases hfault.symm.trans hread
  · obtain rfl := Except.ok.inj (hrest.symm.trans hread)
    have hpoints : (store.replayed source
        (Log.addressed source.replayFrom back)).sessions.commitPoints =
        moment.store.sessions.commitPoints := by
      show (store.sessions.restore source.log.commitPoints).commitPoints = _
      rw [hlog]
      exact CommitPoints.ofList_ascending hc.ascending
    refine ⟨_, other, hrecover, ⟨⟨hlogs, hc.keeps.storable, ?_, hc.keeps.linked⟩, rfl, ?_⟩, hpoints⟩
    · show replay _ (ChainHeads.restore source.heads) = _
      rw [hheads, ChainHeads.restore_ascending (ascending_headsOf front), headsOf, headsOf,
        Log.addressed_append, replay_append, hfrom]
    · rw [hpoints]
      exact hc.ascending

/-- An index part whose records come first among those of the log part leads to all of them. -/
theorem resumes_index (h : store.Reopened disk place completed) {index log : Option Token}
    {moment base : Moment} (hm : moment ∈ completed) (hk : moment.kind.hasLog = true)
    (hf : moment.Fits) (hb : base ∈ completed) (hbk : base.kind.hasIndex = true)
    (hbf : base.Fits) {front back : List LogRecord}
    (hc : moment.Captured place (front ++ back)) (hbc : base.Captured place front)
    (hlog : store.chooseLog log disk = .ok moment.token)
    (hindex : store.chooseIndex index moment.token disk = .ok (some base.token)) :
    store.Resumes disk index log moment place (front ++ back) := by
  have htail := hc.keeps.tail_eq
  have hbtail := hbc.keeps.tail_eq
  have hfits := hf.tail
  have hlt : ¬ moment.log.tail < base.index.logTail := by
    rw [Moment.log, Moment.index, UInt64.not_lt, UInt64.le_iff_toNat_le,
      UInt64.toNat_ofNat_of_lt' hbf.tail, UInt64.toNat_ofNat_of_lt' hf.tail, htail, hbtail,
      Log.image_append, List.length_append]
    omega
  have hsource := h.source_index hm hk hf hlog hb hbk hbf hindex
  rw [if_neg hlt] at hsource
  apply h.resumes hm hk hf hc hsource rfl rfl hbc.keeps.heads
  rw [← hbtail]
  exact UInt64.toNat_ofNat_of_lt' hbf.tail

theorem resumes_log (h : store.Reopened disk place completed) {index log : Option Token}
    {moment : Moment} (hm : moment ∈ completed) (hk : moment.kind.hasLog = true)
    (hf : moment.Fits) {history : List LogRecord} (hc : moment.Captured place history)
    (hlog : store.chooseLog log disk = .ok moment.token)
    (hindex : store.chooseIndex index moment.token disk = .ok none) :
    store.Resumes disk index log moment place history := by
  have hsource := h.source_log hm hk hf hlog hindex
  have hwhole : moment.Captured place ([] ++ history) := hc
  apply h.resumes hm hk hf hwhole hsource rfl rfl rfl
  rw [Moment.log, hc.keeps.start]
  rfl

theorem recover_past (h : store.Reopened disk place completed) {moment base : Moment}
    (hm : moment ∈ completed) (hk : moment.kind.hasLog = true) (hf : moment.Fits)
    (hb : base ∈ completed) (hbk : base.kind.hasIndex = true) (hbf : base.Fits)
    (hlt : moment.store.log.tail < base.store.log.tail) :
    store.recover (some base.token) (some moment.token) disk =
      (.error (.indexPastLog base.token base.index.logTail moment.token moment.log.tail), store,
        disk) := by
  have hpast : moment.log.tail < base.index.logTail := by
    rw [Moment.log, Moment.index, UInt64.lt_iff_toNat_lt, UInt64.toNat_ofNat_of_lt' hf.tail,
      UInt64.toNat_ofNat_of_lt' hbf.tail]
    exact hlt
  have hlog : store.chooseLog (some moment.token) disk = .ok moment.token := rfl
  have hindex : store.chooseIndex (some base.token) moment.token disk = .ok (some base.token) := rfl
  have hsource := h.source_index hm hk hf hlog hb hbk hbf hindex
  rw [if_pos hpast] at hsource
  exact h.recover_error hsource

theorem resumes_default (h : store.Reopened disk place completed)
    (hfits : ∀ moment ∈ completed, moment.Fits) {log : Option Token} {moment : Moment}
    (hm : moment ∈ completed) (hk : moment.kind.hasLog = true) {history : List LogRecord}
    (hc : moment.Captured place history)
    (hp : ∀ base ∈ completed, base.kind.hasIndex = true → base.token.value ≤ moment.token.value →
      ∃ front back, base.Captured place front ∧ moment.Captured place (front ++ back))
    (hlog : store.chooseLog log disk = .ok moment.token) :
    store.Resumes disk none log moment place history := by
  have hindex := h.chooseIndex_newest moment.token
  cases hfind : completed.find? (Moment.hasIndexUpTo moment.token) with
  | none =>
    rw [hfind] at hindex
    exact h.resumes_log hm hk (hfits moment hm) hc hlog hindex
  | some base =>
    have hb := List.mem_of_find?_eq_some hfind
    have hbefore := List.find?_some hfind
    rw [Moment.hasIndexUpTo, Bool.and_eq_true, decide_eq_true_eq] at hbefore
    obtain ⟨front, back, hbase, hwhole⟩ := hp base hb hbefore.1 hbefore.2
    rw [hfind] at hindex
    rw [hc.unique hwhole]
    exact h.resumes_index hm hk (hfits moment hm) hb hbefore.1 (hfits base hb) hwhole hbase hlog
      hindex

/-- The chains of a record are not recovered from the log if the number of its slots, cut down to a
byte, is none. -/
theorem recover_wrapped {moment : Moment} (h : store.Reopened disk place [moment])
    (hkind : moment.kind = .log) (hf : moment.Fits) {record : LogRecord}
    (hrecord : record.encodedLength < Bytes.modulus 4 ∧ record.key.length % 256 = 0)
    (hl : moment.store.Logs moment.disk place [record]) {log : Option Token}
    (hlog : store.chooseLog log disk = .ok moment.token) :
    ∃ recovered other, store.recover none log disk = (.ok moment.token, recovered, other) ∧
      recovered.heads = [] := by
  have hm := List.mem_singleton_self moment
  have hk : moment.kind.hasLog = true := by rw [hkind]; rfl
  have hindex : store.chooseIndex none moment.token disk = .ok none := by
    have hno : Moment.hasIndexUpTo moment.token moment = false := by
      rw [Moment.hasIndexUpTo, hkind]
      rfl
    rw [h.chooseIndex_newest, List.find?_cons_of_neg (by simp [hno])]
    rfl
  obtain ⟨source, hsource, htoken, hpart, hheads, hfrom⟩ : ∃ source,
      store.recoverySource none log disk = .ok source ∧ source.token = moment.token ∧
        source.log = moment.log ∧ source.heads = [] ∧
        source.replayFrom = moment.log.start.toNat :=
    ⟨_, h.source_log hm hk hf hlog hindex, rfl, rfl, rfl, rfl⟩
  have hstart : source.replayFrom = Log.origin := by
    rw [hfrom, Moment.log, hl.start]
    rfl
  have hread : moment.store.recordsFrom moment.disk source.replayFrom =
      .ok [(source.replayFrom, ⟨record.id, record.tombstone, []⟩)] := by
    rw [hl.recordsFrom_eq, hstart, Nat.sub_self, List.drop_zero, Log.image_singleton]
    exact Log.records_wrapped hrecord.1 hrecord.2 Log.origin
  rcases h.recover_source hm hk hf hl hsource htoken hpart (by omega)
    (by rw [hstart]; exact hl.origin_le_tail) with
    ⟨fault, hfault, -⟩ | ⟨rest, other, hrest, hrecover, -⟩
  · cases hfault.symm.trans hread
  · obtain rfl := Except.ok.inj (hrest.symm.trans hread)
    refine ⟨_, other, hrecover, ?_⟩
    show Store.replay _ (ChainHeads.restore source.heads) = []
    rw [hheads]
    rfl

end Store.Reopened

namespace Course

variable {store : Store} {opened : Disk} {place : Path} {ops : List Store.Op}

theorem captured_of_run {history : List LogRecord} (h : store.Ready opened place history)
    (hf : ∀ op ∈ ops, op.Fits) {completed : List Moment} {moment : Moment}
    (hm : moment ∈ (run ops { store, disk := opened, completed }).moments) :
    moment ∈ completed ∨ ∃ front back, ops = front ++ .take moment.kind moment.token :: back ∧
      moment.Captured place (history ++ Store.added front (store, opened)) := by
  rcases mem_moments_run hm with hm | ⟨front, back, hs, hstate⟩
  · exact Or.inl hm
  · have hrun := h.run fun op hop => hf op (by rw [hs]; exact List.mem_append_left _ hop)
    rw [← hstate] at hrun
    exact Or.inr ⟨front, back, hs, hrun⟩

theorem front_le (ht : (ops.filterMap Store.Op.token?).Pairwise fun a b => a.value < b.value)
    {front back first rest : List Store.Op} {kind other : CheckpointKind} {token bound : Token}
    (hs : ops = front ++ .take kind token :: back) (ho : ops = first ++ .take other bound :: rest)
    (hle : token.value ≤ bound.value) : front <+: first := by
  rcases List.append_eq_append_iff.mp (hs.symm.trans ho) with ⟨more, rfl, -⟩ | ⟨more, rfl, hm⟩
  · exact List.prefix_append front more
  · cases more with
    | nil => simp
    | cons op more =>
      obtain ⟨rfl, -⟩ := List.cons.inj hm
      rw [hs, List.append_assoc, List.filterMap_append, List.cons_append,
        List.filterMap_cons_some (show Store.Op.token? (.take other bound) = some bound from rfl),
        List.pairwise_append] at ht
      have hlt := (List.pairwise_cons.mp ht.2.1).1 token (by simp [Store.Op.token?])
      exact (UInt64.lt_irrefl _ (UInt64.lt_of_lt_of_le hlt hle)).elim

theorem added_le {front back first rest : List Store.Op} (hs : ops = front ++ back)
    (ho : ops = first ++ rest) (state : Store × Disk)
    (hl : (Log.image (Store.added front state)).length ≤
      (Log.image (Store.added first state)).length) :
    Store.added front state <+: Store.added first state := by
  rcases List.append_eq_append_iff.mp (hs.symm.trans ho) with ⟨more, rfl, -⟩ | ⟨more, rfl, -⟩
  · rw [Store.added_append]
    exact List.prefix_append _ _
  · rw [Store.added_append, Log.image_append, List.length_append] at hl
    have hmore := Log.length_le_image (Store.added more (Store.run first state))
    have hnil := List.eq_nil_of_length_eq_zero
      (show (Store.added more (Store.run first state)).length = 0 by omega)
    simp only [Store.added_append, hnil, List.append_nil, List.prefix_refl]

/-- Of two checkpoints of a run, the one with the smaller token or the shorter log captured the
first of the records that the other one captured. -/
theorem captured_pair {history : List LogRecord} (h : store.Ready opened place history)
    (hf : ∀ op ∈ ops, op.Fits) {completed : List Moment} (ht : Ascends completed ops)
    {base moment : Moment} (hb : base ∈ (run ops { store, disk := opened, completed }).moments)
    (hbnew : base ∉ completed)
    (hm : moment ∈ (run ops { store, disk := opened, completed }).moments)
    (hmnew : moment ∉ completed)
    (hle : base.token.value ≤ moment.token.value ∨ base.store.log.tail ≤ moment.store.log.tail) :
    ∃ front back, base.Captured place (history ++ front) ∧
      moment.Captured place (history ++ (front ++ back)) := by
  obtain ⟨front, back, hs, hbase⟩ := (captured_of_run h hf hb).resolve_left hbnew
  obtain ⟨first, rest, ho, hmoment⟩ := (captured_of_run h hf hm).resolve_left hmnew
  have hfront : Store.added front (store, opened) <+: Store.added first (store, opened) := by
    rcases hle with hle | hle
    · obtain ⟨more, rfl⟩ := front_le ht.1 hs ho hle
      rw [Store.added_append]
      exact List.prefix_append _ _
    · apply added_le hs ho
      rw [hbase.keeps.tail_eq, hmoment.keeps.tail_eq, Log.image_append, Log.image_append,
        List.length_append, List.length_append] at hle
      omega
  obtain ⟨added, hadded⟩ := hfront
  exact ⟨_, added, hbase, hadded ▸ hmoment⟩

/-- Every pair of checkpoints of one run of a new store recovers exactly what the log part's
checkpoint captured, if the index part does not go past it. -/
theorem recover_of_run {disk : Disk} {dir : Path} (hempty : disk.EmptyDir dir place)
    (config again : Config) (hf : ∀ op ∈ ops, op.Fits) (ht : Ascends [] ops) :
    ∃ store opened, Store.open? dir config disk = (.ok store, opened) ∧
      ∀ course, course = run ops { store, disk := opened } →
        (∀ moment ∈ course.completed, moment.Fits) →
        ∃ reopened after,
          Store.open? dir again (course.store.close course.disk) = (.ok reopened, after) ∧
          ∀ moment ∈ course.completed, moment.kind.hasLog = true →
            (∀ base ∈ course.completed, base.kind.hasIndex = true →
              (base.store.log.tail ≤ moment.store.log.tail →
                reopened.RecoversTo after (some base.token) (some moment.token) moment) ∧
              (moment.store.log.tail < base.store.log.tail →
                ∃ fault, fault.category = .checkpointMismatch ∧
                  reopened.recover (some base.token) (some moment.token) after =
                    (.error fault, reopened, after))) ∧
            reopened.RecoversTo after none (some moment.token) moment ∧
            (Moment.Newest course.completed (·.kind.hasLog) moment →
              reopened.RecoversTo after none none moment) := by
  obtain ⟨store, opened, lock, hopen, hopened, hnew⟩ := hempty.left.open config
  have hready : store.Ready opened place [] := hopened.ready hnew.keeps
  have hstart : Sound { store, disk := opened } place [] := hnew.sound (by simp)
  refine ⟨store, opened, hopen, fun course hrun hfits => ?_⟩
  have hsound := hstart.run ht
  rw [← hrun, List.nil_append] at hsound
  have hmoments : ∀ moment ∈ course.completed,
      moment ∈ (run ops { store, disk := opened }).moments := by
    intro moment hm
    rw [← hrun]
    exact List.mem_append_right _ hm
  have hpair : ∀ base ∈ course.completed, ∀ moment ∈ course.completed,
      base.token.value ≤ moment.token.value ∨ base.store.log.tail ≤ moment.store.log.tail →
        ∃ front back, base.Captured place front ∧ moment.Captured place (front ++ back) :=
    fun base hb moment hm =>
      captured_pair hready hf ht (hmoments base hb) (by simp) (hmoments moment hm) (by simp)
  have hleft := hstart.left_run ht (by simp [moments])
  rw [← hrun, hopened.dir] at hleft
  obtain ⟨reopened, after, -, hreopen, -, hre⟩ := hleft.open again
  refine ⟨reopened, after, hreopen, fun moment hm hk => ?_⟩
  obtain ⟨history, hcaptured⟩ : ∃ history, moment.Captured place history := by
    obtain ⟨front, back, -, hwhole⟩ := hpair moment hm moment hm (Or.inl (UInt64.le_refl _))
    exact ⟨_, hwhole⟩
  have hdefault : ∀ base ∈ course.completed, base.kind.hasIndex = true →
      base.token.value ≤ moment.token.value →
        ∃ front back, base.Captured place front ∧ moment.Captured place (front ++ back) :=
    fun base hb _ hle => hpair base hb moment hm (Or.inl hle)
  refine ⟨fun base hb hbk => ⟨fun hle => ?_, fun hlt => ?_⟩, ?_, fun hnewest => ?_⟩
  · obtain ⟨front, back, hbase, hwhole⟩ := hpair base hb moment hm (Or.inr hle)
    exact hwhole.recoversTo
      (hre.resumes_index hm hk (hfits moment hm) hb hbk (hfits base hb) hwhole hbase rfl rfl)
  · exact ⟨_, rfl, hre.recover_past hm hk (hfits moment hm) hb hbk (hfits base hb) hlt⟩
  · exact hcaptured.recoversTo (hre.resumes_default hfits hm hk hcaptured hdefault rfl)
  · have hfind := (Moment.newest_iff_find? hre.newestFirst).mp hnewest
    exact hcaptured.recoversTo
      (hre.resumes_default hfits hm hk hcaptured hdefault (hre.chooseLog_newest hfind))

def twoCheckpoints : List Store.Op :=
  let key : CompositeKey := [{ ordinal := 0, key := some [97] }]
  [.upsert ⟨1, 0, 0⟩ key ⟨1, 1⟩ false, .take .index ⟨1⟩, .upsert ⟨1, 1, 0⟩ key ⟨2, 1⟩ false,
    .complete, .evict, .take .log ⟨2⟩, .upsert ⟨1, 2, 0⟩ key ⟨1, 1⟩ true, .complete]

def twoCheckpointsFit : Bool :=
  match Store.open? ["db"] {} (Disk.withDir "db") with
  | (.ok store, opened) =>
    match (run twoCheckpoints { store, disk := opened }).completed with
    | [moment, base] => decide ((base.kind = .index ∧ base.store.heads = [([0, 97], 64)] ∧
          moment.kind = .log ∧ moment.store.heads = [([0, 97], 103)]) ∧
        (base.store.log.tail ≤ moment.store.log.tail ∧
          base.token.value ≤ moment.token.value) ∧ base.Fits ∧ moment.Fits)
    | _ => false
  | (.error _, _) => false

theorem recover_two_checkpoints : ∃ (store reopened : Store) (opened after : Disk)
    (base moment : Moment), Store.open? ["db"] {} (Disk.withDir "db") = (.ok store, opened) ∧
      (run twoCheckpoints { store, disk := opened }).completed = [moment, base] ∧
      base.store.heads = [([0, 97], 64)] ∧ moment.store.heads = [([0, 97], 103)] ∧
      reopened.RecoversTo after (some base.token) (some moment.token) moment ∧
      reopened.RecoversTo after none (some moment.token) moment ∧
      reopened.RecoversTo after none none moment := by
  have hfacts : twoCheckpointsFit = true := by decide +kernel
  unfold twoCheckpointsFit at hfacts
  have hempty : (Disk.withDir "db").EmptyDir ["db"] ["db"] := Disk.emptyDir_withDir (by decide)
  have hops : ∀ op ∈ twoCheckpoints, op.Fits := by decide
  have htokens : Ascends [] twoCheckpoints := by decide
  obtain ⟨store, opened, hopen, hrun⟩ := recover_of_run hempty {} {} hops htokens
  simp only [hopen] at hfacts
  split at hfacts
  · rename_i moment base hcompleted
    obtain ⟨⟨hbk, hbh, hmk, hmh⟩, ⟨hle, htoken⟩, hbf, hmf⟩ := of_decide_eq_true hfacts
    obtain ⟨reopened, after, -, hrecover⟩ := hrun _ rfl (by simp [hcompleted, hbf, hmf])
    rw [hcompleted] at hrecover
    have hlog : moment.kind.hasLog = true := by rw [hmk]; rfl
    have hindex : base.kind.hasIndex = true := by rw [hbk]; rfl
    obtain ⟨hbase, hnone, hnewest⟩ := hrecover moment (by simp) hlog
    refine ⟨store, reopened, opened, after, base, moment, hopen, hcompleted, hbh, hmh,
      (hbase base (by simp) hindex).1 hle, hnone, hnewest ⟨by simp, hlog, fun other ho hk => ?_⟩⟩
    rcases (by simpa using ho : other = moment ∨ other = base) with rfl | rfl
    · exact UInt64.le_refl _
    · exact htoken
  · cases hfacts

def wideKey : CompositeKey := CompositeKey.ofOutputs (some [170] :: List.replicate 255 none)

def wideWrite : List Store.Op :=
  [.upsert ⟨1, 0, 0⟩ wideKey ⟨1, 1⟩ false, .take .log ⟨1⟩, .complete]

theorem logs_wide (h : store.Logs opened place []) (hr : store.awaitingRecovery = false)
    (hh : store.heads = []) {moment : Moment}
    (hm : moment ∈ (run wideWrite { store, disk := opened }).moments) :
    ∃ record : LogRecord, (record.encodedLength < Bytes.modulus 4 ∧ record.key.length % 256 = 0) ∧
      moment.store.Logs moment.disk place [record] := by
  rcases mem_moments_run hm with hnone | ⟨front, back, hs, hstate⟩
  · simp [moments] at hnone
  · have hfront : front = [.upsert ⟨1, 0, 0⟩ wideKey ⟨1, 1⟩ false] := by
      rw [wideWrite] at hs
      rcases front with _ | ⟨first, _ | ⟨second, _ | ⟨third, front⟩⟩⟩ <;> simp_all
    have hlogs := h.run front
    have hadded : Store.added front (store, opened) = [store.written wideKey ⟨1, 1⟩ false] := by
      rw [hfront, Store.added, Store.added, Store.adds, hr]
      rfl
    rw [← hstate, hadded, List.nil_append] at hlogs
    refine ⟨_, ?_, hlogs⟩
    rw [Store.written, hh]
    decide +kernel

def wideWriteFits : Bool :=
  match Store.open? ["db"] {} (Disk.withDir "db") with
  | (.ok store, opened) =>
    match (run wideWrite { store, disk := opened }).completed with
    | [moment] => decide (store.awaitingRecovery = false ∧ moment.kind = .log ∧
        moment.store.heads = [([0, 170], 64)] ∧ moment.Fits)
    | _ => false
  | (.error _, _) => false

/-- A record of 256 slots is in the log, but replaying the log does not find its chains. -/
theorem recover_wide_key : ∃ (store reopened recovered : Store) (opened after other : Disk)
    (moment : Moment), Store.open? ["db"] {} (Disk.withDir "db") = (.ok store, opened) ∧
      (run wideWrite { store, disk := opened }).completed = [moment] ∧
      Store.open? ["db"] {} ((run wideWrite { store, disk := opened }).store.close
        (run wideWrite { store, disk := opened }).disk) = (.ok reopened, after) ∧
      reopened.recover none (some moment.token) after = (.ok moment.token, recovered, other) ∧
      moment.store.heads = [([0, 170], 64)] ∧ recovered.heads = [] := by
  have hfacts : wideWriteFits = true := by decide +kernel
  unfold wideWriteFits at hfacts
  have hempty : (Disk.withDir "db").EmptyDir ["db"] ["db"] := Disk.emptyDir_withDir (by decide)
  have htokens : Ascends [] wideWrite := by decide
  obtain ⟨store, opened, lock, hopen, hopened, hnew⟩ := hempty.left.open {}
  simp only [hopen] at hfacts
  have hstart : Sound { store, disk := opened } ["db"] [] := hnew.sound (by simp)
  have hleft := hstart.left_run htokens (by simp [moments])
  split at hfacts
  · rename_i moment hcompleted
    obtain ⟨hready, hkind, hsnapshot, hf⟩ := of_decide_eq_true hfacts
    rw [hcompleted, hopened.dir] at hleft
    obtain ⟨reopened, after, -, hreopen, -, hre⟩ := hleft.open {}
    have hmoment : moment ∈ (run wideWrite { store, disk := opened }).moments :=
      List.mem_append_right _ (by rw [hcompleted]; exact List.mem_singleton_self moment)
    obtain ⟨record, hrecord, hlogs⟩ := logs_wide hnew.keeps.toLogs hready hopened.heads hmoment
    obtain ⟨recovered, other, hrecover, hheads⟩ :=
      hre.recover_wrapped hkind hf hrecord hlogs
        (show reopened.chooseLog (some moment.token) after = .ok moment.token from rfl)
    exact ⟨store, reopened, recovered, opened, after, other, moment, hopen, hcompleted, hreopen,
      hrecover, hsnapshot, hheads⟩
  · cases hfacts

end Course

end PredicateIndex
