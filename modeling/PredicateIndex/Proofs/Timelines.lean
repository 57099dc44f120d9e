import Mathlib.Data.List.Infix
import PredicateIndex.Proofs.CoveredTimelines

/-!
# Recovery across generations

Index parts outlive the log that they were captured with: a log that no log part
covers is discarded when the directory is opened again, and recovery cuts off
what the newest log part does not cover, but the index parts stay. The one taken
by default is the newest up to the log part's token, whatever log it was
captured with. Recovery gives the heads of the restored log exactly if replaying
that log from where the index part ends happens to lead there.
-/

set_option autoImplicit false

namespace PredicateIndex

open CheckpointDir

/-- From the heads of an index part, replaying a log from where the part ends gives these heads. -/
def Moment.LeadsTo (base newest : Moment) (heads : ChainHeads) : Prop :=
  base.store.log.tail ≤ newest.store.log.tail ∧
    ∃ rest, newest.store.recordsFrom newest.disk base.store.log.tail = .ok rest ∧
      Store.replay rest (.restore base.store.heads) = heads

namespace Store.Reopened

variable {store : Store} {disk : Disk} {place : Path} {completed : List Moment}

theorem recover_whole (h : store.Reopened disk place completed) {newest : Moment}
    (hm : newest ∈ completed) (hk : newest.kind.hasLog = true) (hf : newest.Fits)
    {history : List LogRecord} (hl : newest.store.Logs newest.disk place history)
    (hs : ∀ record ∈ history, record.Storable)
    (hlog : store.chooseLog none disk = .ok newest.token)
    (hindex : store.chooseIndex none newest.token disk = .ok none) :
    ∃ recovered other, store.recover none none disk = (.ok newest.token, recovered, other) ∧
      recovered.heads = headsOf history := by
  have hsource := h.source_log hm hk hf hlog hindex
  have hstart : newest.log.start.toNat = Log.origin := by
    rw [Moment.log, hl.start]
    rfl
  have hread : newest.store.recordsFrom newest.disk Log.origin =
      .ok (Log.addressed Log.origin history) := by
    rw [hl.recordsFrom_eq, Nat.sub_self, List.drop_zero]
    exact Log.records_image hs (Log.length_le_image history) Log.origin
  rw [hstart] at hsource
  rcases h.recover_source hm hk hf hl hsource rfl rfl (Nat.le_refl _) hl.origin_le_tail with
    ⟨fault, hfault, -⟩ | ⟨rest, other, hrest, hrecover, -⟩
  · cases hfault.symm.trans hread
  · obtain rfl := Except.ok.inj (hrest.symm.trans hread)
    exact ⟨_, other, hrecover, rfl⟩

/-- With an index part recovery comes to some heads exactly if the index part leads there. -/
theorem recover_base_iff (h : store.Reopened disk place completed) {newest base : Moment}
    (hm : newest ∈ completed) (hk : newest.kind.hasLog = true) (hf : newest.Fits)
    (hb : base ∈ completed) (hbk : base.kind.hasIndex = true) (hbf : base.Fits)
    (hstarts : Log.origin ≤ base.store.log.tail) {history : List LogRecord}
    (hl : newest.store.Logs newest.disk place history)
    (hlog : store.chooseLog none disk = .ok newest.token)
    (hindex : store.chooseIndex none newest.token disk = .ok (some base.token))
    (heads : ChainHeads) :
    (∃ recovered other, store.recover none none disk = (.ok newest.token, recovered, other) ∧
      recovered.heads = heads) ↔ base.LeadsTo newest heads := by
  have hsource := h.source_index hm hk hf hlog hb hbk hbf hindex
  have hpast : newest.log.tail < base.index.logTail ↔
      newest.store.log.tail < base.store.log.tail := by
    rw [Moment.log, Moment.index, UInt64.lt_iff_toNat_lt, UInt64.toNat_ofNat_of_lt' hf.tail,
      UInt64.toNat_ofNat_of_lt' hbf.tail]
  have hfrom : base.index.logTail.toNat = base.store.log.tail :=
    UInt64.toNat_ofNat_of_lt' hbf.tail
  by_cases hlt : newest.store.log.tail < base.store.log.tail
  · rw [if_pos (hpast.mpr hlt)] at hsource
    have hrecover := h.recover_error hsource
    constructor
    · rintro ⟨recovered, other, hok, -⟩
      cases hok.symm.trans hrecover
    · rintro ⟨hle, -⟩
      omega
  · rw [if_neg (mt hpast.mp hlt), hfrom] at hsource
    have hle : base.store.log.tail ≤ newest.store.log.tail := Nat.le_of_not_lt hlt
    rcases h.recover_source hm hk hf hl hsource rfl rfl hstarts hle with
      ⟨fault, hfault, failed, other, hfailed⟩ | ⟨rest, other, hrest, hrecover, -⟩
    · constructor
      · rintro ⟨recovered, other, hok, -⟩
        cases hok.symm.trans hfailed
      · rintro ⟨-, rest, hrest, -⟩
        cases hrest.symm.trans hfault
    · constructor
      · rintro ⟨found, last, hok, rfl⟩
        obtain ⟨-, hsame⟩ := Prod.mk.inj (hok.symm.trans hrecover)
        obtain ⟨rfl, -⟩ := Prod.mk.inj hsame
        exact ⟨hle, rest, hrest, rfl⟩
      · rintro ⟨-, found, hfound, rfl⟩
        obtain rfl := Except.ok.inj (hfound.symm.trans hrest)
        exact ⟨_, other, hrecover, rfl⟩

/-- By default recovery comes to the heads of the newest log part exactly if the newest index part
up to it, if there is one, leads there. -/
theorem recover_newest_iff (h : store.Reopened disk place completed)
    (hfits : ∀ moment ∈ completed, moment.Fits)
    (hstarts : ∀ moment ∈ completed, Log.origin ≤ moment.store.log.tail) {newest : Moment}
    (hn : Moment.Newest completed (·.kind.hasLog) newest) {history : List LogRecord}
    (hl : newest.store.Logs newest.disk place history)
    (hs : ∀ record ∈ history, record.Storable) :
    (∃ recovered other, store.recover none none disk = (.ok newest.token, recovered, other) ∧
        recovered.heads = headsOf history) ↔
      ∀ base, Moment.Newest completed (Moment.hasIndexUpTo newest.token) base →
        base.LeadsTo newest (headsOf history) := by
  have hm := hn.mem
  have hk : newest.kind.hasLog = true := hn.holds
  have hlog := h.chooseLog_newest ((Moment.newest_iff_find? h.newestFirst).mp hn)
  have hindex := h.chooseIndex_newest newest.token
  have hf := hfits newest hm
  cases hfind : completed.find? (Moment.hasIndexUpTo newest.token) with
  | none =>
    rw [hfind] at hindex
    constructor
    · intro _ base hb
      have hfound := (Moment.newest_iff_find? h.newestFirst).mp hb
      rw [hfind] at hfound
      cases hfound
    · intro _
      exact h.recover_whole hm hk hf hl hs hlog hindex
  | some base =>
    have hb := (Moment.newest_iff_find? h.newestFirst).mpr hfind
    have hbk := hb.holds
    rw [Moment.hasIndexUpTo, Bool.and_eq_true] at hbk
    rw [hfind] at hindex
    rw [h.recover_base_iff hm hk hf hb.mem hbk.1 (hfits base hb.mem) (hstarts base hb.mem) hl hlog
      hindex]
    constructor
    · intro hleads other ho
      have hfound := (Moment.newest_iff_find? h.newestFirst).mp ho
      rw [hfind] at hfound
      obtain rfl := Option.some.inj hfound
      exact hleads
    · intro hall
      exact hall base hb

theorem recover_newest_records (h : store.Reopened disk place completed)
    (hfits : ∀ moment ∈ completed, moment.Fits) {newest : Moment}
    (hn : Moment.Newest completed (·.kind.hasLog) newest) {history : List LogRecord}
    (hl : newest.store.Logs newest.disk place history) {token : Token} {recovered : Store}
    {other : Disk} (hr : store.recover none none disk = (.ok token, recovered, other)) :
    token = newest.token ∧ recovered.Logs other place history := by
  have hfind := (Moment.newest_iff_find? h.newestFirst).mp hn
  rcases h.source_newest hfits hfind with ⟨fault, hs⟩ | ⟨source, hs, htoken, hlog⟩
  · cases hr.symm.trans (h.recover_error hs)
  · obtain ⟨last, -, hcases⟩ := h.recover_scan hn.mem hn.holds
      (hfits newest hn.mem) hl hs htoken hlog
    rcases hcases with ⟨fault, -, he⟩ | ⟨rest, -, he, hlogs⟩
    · cases hr.symm.trans he
    · obtain ⟨ht, hsame⟩ := Prod.mk.inj (hr.symm.trans he)
      obtain ⟨rfl, rfl⟩ := Prod.mk.inj hsame
      exact ⟨Except.ok.inj ht, hlogs⟩

end Store.Reopened

/-- Whatever happened in a directory before, its newest log part is recovered by default with just
the heads of its records if and only if the newest index part up to it leads there. This is so, and
the recovery is exact, if every store left a log part as its newest checkpoint. -/
theorem Timeline.recover_of_generations {disk : Disk} {dir place : Path}
    (hempty : disk.EmptyDir dir place) {generations : List Generation}
    (hf : ∀ generation ∈ generations, ∀ op ∈ generation.ops, op.Fits)
    (ht : Course.Ascends [] (generations.flatMap Generation.ops)) {timeline : Timeline}
    (hrun : Timeline.run dir generations { disk } = timeline)
    (hfits : ∀ moment ∈ timeline.completed, moment.Fits) {newest : Moment}
    (hn : Moment.Newest timeline.completed (·.kind.hasLog) newest) (config : Config) :
    ∃ store opened entries, Store.open? dir config timeline.disk = (.ok store, opened) ∧
      store.awaitingRecovery = true ∧ newest.store.records newest.disk = .ok entries ∧
      ((∃ recovered other, store.recover none none opened = (.ok newest.token, recovered, other) ∧
          recovered.heads = Store.replay entries []) ↔
        ∀ base, Moment.Newest timeline.completed (Moment.hasIndexUpTo newest.token) base →
          base.LeadsTo newest (Store.replay entries [])) ∧
      (∀ token recovered other, store.recover none none opened = (.ok token, recovered, other) →
        token = newest.token ∧ recovered.records other = .ok entries ∧
          recovered.log.start = newest.store.log.start ∧
          recovered.log.tail = newest.store.log.tail) ∧
      ((∀ front, front <+: generations → (Timeline.run dir front { disk }).EndsOnLog) →
        newest.store.heads = Store.replay entries [] ∧
          store.RecoversTo opened none none newest) := by
  have hstart : Timeline.Sound { disk } dir place := ⟨hempty.left, by simp⟩
  have hsound := hstart.run hf ht (by rw [hrun]; exact hfits)
  rw [hrun] at hsound
  obtain ⟨store, opened, lock, hopen, hopened, hre⟩ := hsound.left.open config
  obtain ⟨history, hlogs, hstorable⟩ := hsound.readable newest hn.mem
  have hfind := (Moment.newest_iff_find? hre.newestFirst).mp hn
  have hstarts : ∀ moment ∈ timeline.completed, Log.origin ≤ moment.store.log.tail := by
    intro moment hm
    obtain ⟨records, hrecords, -⟩ := hsound.readable moment hm
    exact hrecords.origin_le_tail
  refine ⟨store, opened, Log.addressed Log.origin history, hopen, ?_, hlogs.records hstorable,
    hre.recover_newest_iff hfits hstarts hn hlogs hstorable, ?_, ?_⟩
  · rw [hre.awaitingRecovery, hfind]
    rfl
  · intro token recovered other hr
    obtain ⟨htoken, hrecovered⟩ := hre.recover_newest_records hfits hn hlogs hr
    exact ⟨htoken, hrecovered.records hstorable, hrecovered.start.trans hlogs.start.symm,
      hrecovered.tail_eq.trans hlogs.tail_eq.symm⟩
  · intro hlog
    have hcovered : Timeline.Covered { disk } dir place [] :=
      { left := hempty.left, endsOnLog := by simp [EndsOnLog], fronts := by simp
        newest := by simp, empty := fun _ => rfl }
    obtain ⟨grown, hgrown⟩ := hcovered.run hf ht (by rw [hrun]; exact hfits) hlog
    rw [hrun] at hgrown
    have hlast := Eq.trans (Covered.find? hgrown).symm hfind
    have hcaptured := hgrown.newest newest hlast
    have hsame := Except.ok.inj (hcaptured.keeps.records.symm.trans (hlogs.records hstorable))
    refine ⟨?_, hcaptured.recoversTo (hgrown.resumes hfits hre hlast)⟩
    rw [hcaptured.keeps.heads, Store.headsOf, hsame]

/-- Three lives of a store. The index part of the second is followed by a log part, and what the
others wrote last is lost. -/
def coveredLives : List Generation :=
  let key (byte : UInt8) : CompositeKey := [{ ordinal := 0, key := some [byte] }]
  [⟨{}, [.upsert ⟨1, 0, 0⟩ (key 170) ⟨1, 1⟩ false, .take .full ⟨1⟩, .complete,
      .upsert ⟨1, 1, 0⟩ (key 187) ⟨2, 1⟩ false]⟩,
    ⟨{}, [.upsert ⟨1, 2, 0⟩ (key 204) ⟨3, 1⟩ false, .take .index ⟨2⟩, .complete,
      .upsert ⟨1, 3, 0⟩ (key 170) ⟨1, 2⟩ true, .take .log ⟨3⟩, .evict, .complete]⟩,
    ⟨{}, [.upsert ⟨1, 4, 0⟩ (key 187) ⟨2, 1⟩ false, .flush]⟩]

theorem Timeline.recover_three_lives : ∃ (store : Store) (opened : Disk) (newest : Moment)
    (entries : List (Nat × LogRecord)),
    Store.open? ["db"] {} (Timeline.run ["db"] coveredLives { disk := .withDir "db" }).disk =
        (.ok store, opened) ∧
      newest.token = ⟨3⟩ ∧ newest.store.heads = [([0, 170], 142), ([0, 204], 103)] ∧
      newest.store.records newest.disk = .ok entries ∧
      Store.replay entries [] = newest.store.heads ∧ store.RecoversTo opened none none newest := by
  have hempty : (Disk.withDir "db").EmptyDir ["db"] ["db"] := Disk.emptyDir_withDir (by decide)
  have hops : ∀ generation ∈ coveredLives, ∀ op ∈ generation.ops, op.Fits := by decide
  have htokens : Course.Ascends [] (coveredLives.flatMap Generation.ops) := by decide
  obtain ⟨hfits, hle, hlast, hends⟩ :
      (∀ moment ∈ (Timeline.run ["db"] coveredLives { disk := .withDir "db" }).completed,
        moment.Fits) ∧
      (∀ moment ∈ (Timeline.run ["db"] coveredLives { disk := .withDir "db" }).completed,
        moment.token.value ≤ 3) ∧
      ((Timeline.run ["db"] coveredLives { disk := .withDir "db" }).completed.find?
        (·.kind.hasLog)).map (fun moment => (moment.token, moment.store.heads)) =
          some (⟨3⟩, [([0, 170], 142), ([0, 204], 103)]) ∧
      ∀ front ∈ coveredLives.inits,
        (Timeline.run ["db"] front { disk := .withDir "db" }).EndsOnLog := by decide +kernel
  obtain ⟨newest, hfind, hfacts⟩ := Option.map_eq_some_iff.mp hlast
  obtain ⟨htoken, hheads⟩ := Prod.mk.inj hfacts
  have hnewest : Moment.Newest (Timeline.run ["db"] coveredLives { disk := .withDir "db" }).completed
      (·.kind.hasLog) newest := by
    have hk := List.find?_some hfind
    refine ⟨List.mem_of_find?_eq_some hfind, hk, fun other hm _ => ?_⟩
    rw [htoken]
    exact hle other hm
  obtain ⟨store, opened, entries, hopen, -, hrecords, -, -, hcovered⟩ :=
    Timeline.recover_of_generations hempty hops htokens rfl hfits hnewest {}
  obtain ⟨hreplay, hrecovers⟩ := hcovered fun front hfront =>
    hends front ((List.mem_inits front coveredLives).mpr hfront)
  exact ⟨store, opened, newest, entries, hopen, htoken, hheads, hrecords, hreplay.symm, hrecovers⟩

/-- Two lives of a store. The log of the first is discarded, its index part is not. -/
def strayLives : List Generation :=
  let key (byte : UInt8) : CompositeKey := [{ ordinal := 0, key := some [byte] }]
  [⟨{}, [.upsert ⟨1, 0, 0⟩ (key 170) ⟨1, 1⟩ false, .take .index ⟨1⟩, .complete]⟩,
    ⟨{}, [.upsert ⟨1, 0, 0⟩ (key 187) ⟨2, 1⟩ false, .take .log ⟨2⟩, .complete]⟩]

def strayLivesMix : Bool :=
  match Timeline.run ["db"] strayLives { disk := .withDir "db" } with
  | ⟨disk, [newest, _]⟩ =>
    match Store.open? ["db"] {} disk, newest.store.records newest.disk with
    | (.ok store, opened), .ok entries =>
      match store.recover none none opened with
      | (.ok token, recovered, _) => decide (token = newest.token ∧
          Store.replay entries [] = [([0, 187], 64)] ∧ recovered.heads = [([0, 170], 64)])
      | (.error _, _) => false
    | _, _ => false
  | _ => false

/-- The heads are those of the discarded log. -/
theorem Timeline.recover_stray_index : ∃ (store recovered : Store) (opened other : Disk)
    (newest stray : Moment) (entries : List (Nat × LogRecord)),
    (Timeline.run ["db"] strayLives { disk := .withDir "db" }).completed = [newest, stray] ∧
      Store.open? ["db"] {} (Timeline.run ["db"] strayLives { disk := .withDir "db" }).disk =
        (.ok store, opened) ∧
      newest.store.records newest.disk = .ok entries ∧
      store.recover none none opened = (.ok newest.token, recovered, other) ∧
      Store.replay entries [] = [([0, 187], 64)] ∧ recovered.heads = [([0, 170], 64)] := by
  have hfacts : strayLivesMix = true := by decide +kernel
  unfold strayLivesMix at hfacts
  split at hfacts
  · rename_i disk newest stray hrun
    split at hfacts
    · rename_i store opened entries hopen hrecords
      split at hfacts
      · rename_i token recovered other hrecover
        obtain ⟨htoken, hentries, hheads⟩ := of_decide_eq_true hfacts
        rw [htoken] at hrecover
        rw [hrun]
        exact ⟨store, recovered, opened, other, newest, stray, entries, rfl, hopen, hrecords,
          hrecover, hentries, hheads⟩
      · cases hfacts
    · cases hfacts
  · cases hfacts

end PredicateIndex
