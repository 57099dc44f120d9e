import PredicateIndex.Proofs.Generations
import PredicateIndex.Proofs.RecoveryExactness

/-!
# Timelines without stray index parts

An index part can only describe a log that was discarded if its store was closed
before a checkpoint with a log part was completed. If every store leaves a log
part as its newest checkpoint, or completes none, all checkpoints in the
directory captured the first records of one log, and recovery is exact again.
-/

set_option autoImplicit false

namespace PredicateIndex

namespace Timeline

variable {timeline : Timeline} {dir place : Path} {history : List LogRecord}

def EndsOnLog (timeline : Timeline) : Prop :=
  ∀ last ∈ timeline.completed.head?, last.kind.hasLog = true

instance (timeline : Timeline) : Decidable timeline.EndsOnLog :=
  inferInstanceAs (Decidable (∀ last ∈ timeline.completed.head?, last.kind.hasLog = true))

structure Covered (timeline : Timeline) (dir place : Path) (history : List LogRecord) : Prop where
  left : Store.Left timeline.disk dir place timeline.completed
  endsOnLog : timeline.EndsOnLog
  fronts : ∀ moment ∈ timeline.completed, ∃ front back, moment.Captured place front ∧
    front ++ back = history
  newest : ∀ last ∈ timeline.completed.head?, last.Captured place history
  empty : timeline.completed = [] → history = []

theorem Covered.find? (h : timeline.Covered dir place history) :
    timeline.completed.find? (·.kind.hasLog) = timeline.completed.head? := by
  have hlog := h.endsOnLog
  rw [EndsOnLog] at hlog
  cases hc : timeline.completed with
  | nil => rfl
  | cons last rest =>
    rw [hc] at hlog
    exact List.find?_cons_of_pos (hlog last rfl)

/-- What a store finds here it recovers exactly. -/
theorem Covered.resumes (h : timeline.Covered dir place history)
    (hfits : ∀ moment ∈ timeline.completed, moment.Fits) {store : Store} {opened : Disk}
    (hre : store.Reopened opened place timeline.completed) {last : Moment}
    (hl : timeline.completed.head? = some last) :
    store.Resumes opened none none last place history := by
  have hfind := h.find?.trans hl
  have hlast := h.newest last hl
  apply hre.resumes_default hfits (List.mem_of_head? hl) (h.endsOnLog last hl) hlast
  · intro base hb _ _
    obtain ⟨front, back, hbase, rfl⟩ := h.fronts base hb
    exact ⟨front, back, hbase, hlast⟩
  · exact hre.chooseLog_newest hfind

theorem Covered.start (h : timeline.Covered dir place history)
    (hfits : ∀ moment ∈ timeline.completed, moment.Fits) (config : Config) :
    ∃ store opened, Store.start dir config timeline.disk = (.ok store, opened) ∧
      store.dir = dir ∧ store.Ready opened place history ∧
      Course.Sound { store, disk := opened, completed := timeline.completed } place history := by
  have hbegins : Store.Begins timeline.completed place history := by
    rw [Store.Begins, h.find?]
    cases hc : timeline.completed with
    | nil => exact h.empty hc
    | cons last rest =>
      have hl : timeline.completed.head? = some last := by rw [hc]; rfl
      exact (h.newest last hl).keeps.toLogs
  obtain ⟨store, opened, hstart, hdir, hstate⟩ := h.left.start hfits config hbegins
  have hready : store.Ready opened place history := by
    obtain ⟨fresh, disk, lock, hopen, hopened, hre⟩ := h.left.open config
    rw [Store.start, hopen] at hstart
    dsimp only at hstart
    cases hl : timeline.completed.head? with
    | none =>
      rw [h.find?, hl] at hopened
      have hready := hopened.ready hre.keeps
      rw [hready.awaitingRecovery] at hstart
      obtain ⟨hsame, rfl⟩ := Prod.mk.inj hstart
      obtain rfl := Except.ok.inj hsame
      rw [h.empty (List.head?_eq_none_iff.mp hl)]
      exact hready
    | some last =>
      obtain ⟨recovered, other, hrecover, hready, -⟩ := h.resumes hfits hre hl
      rw [h.find?, hl] at hopened
      have hawaits : fresh.awaitingRecovery = true := hopened.awaitingRecovery
      rw [if_pos hawaits, hrecover] at hstart
      obtain ⟨hsame, rfl⟩ := Prod.mk.inj hstart
      obtain rfl := Except.ok.inj hsame
      exact hready
  refine ⟨store, opened, hstart, hdir, hready, ?_⟩
  rcases hstate with hsound | ⟨-, hawaits⟩
  · exact hsound
  · rw [hready.awaitingRecovery] at hawaits
    cases hawaits

theorem Covered.live (h : timeline.Covered dir place history)
    (hfits : ∀ moment ∈ timeline.completed, moment.Fits) {generation : Generation}
    (hf : ∀ op ∈ generation.ops, op.Fits)
    (ht : Course.Ascends timeline.completed generation.ops)
    (hlog : (timeline.live dir generation).EndsOnLog) :
    ∃ grown, (timeline.live dir generation).Covered dir place grown := by
  obtain ⟨store, opened, hstart, hdir, hready, hsound⟩ := h.start hfits generation.config
  rw [Timeline.live, hstart] at hlog ⊢
  dsimp only at hlog ⊢
  have hleft := hsound.left_run ht fun moment hm _ => by
    obtain ⟨front, back, hfront, rfl⟩ := h.fronts moment hm
    exact ⟨front, hfront.keeps.toLogs, Log.image_prefix (List.prefix_append _ _)⟩
  rw [hdir] at hleft
  have hfirst := hleft.newestFirst
  have hpair : ∀ {base moment : Moment}, base ∈ (Course.run generation.ops
      { store, disk := opened, completed := timeline.completed }).completed →
      base ∉ timeline.completed → moment ∈ (Course.run generation.ops
        { store, disk := opened, completed := timeline.completed }).completed →
      moment ∉ timeline.completed → base.token.value ≤ moment.token.value →
        ∃ front back, base.Captured place (history ++ front) ∧
          moment.Captured place (history ++ (front ++ back)) :=
    fun hb hbnew hm hmnew hle => Course.captured_pair hready hf ht (List.mem_append_right _ hb)
      hbnew (List.mem_append_right _ hm) hmnew (Or.inl hle)
  obtain ⟨newer, hnewer⟩ := Course.completed_run generation.ops
    { store, disk := opened, completed := timeline.completed }
  dsimp only at hnewer
  rw [← hnewer] at hlog hleft hfirst hpair ⊢
  cases newer with
  | nil =>
    exact ⟨history,
      { left := hleft
        endsOnLog := hlog
        fronts := h.fronts
        newest := h.newest
        empty := h.empty }⟩
  | cons last rest =>
    have hlast : last ∉ timeline.completed := by
      intro hm
      have hlt := ((Moment.newestFirst_cons.mp hfirst).1 last (List.mem_append_right _ hm)).token
      exact UInt64.lt_irrefl _ hlt
    obtain ⟨added, back, hcaptured, -⟩ :=
      hpair List.mem_cons_self hlast List.mem_cons_self hlast (UInt64.le_refl _)
    refine ⟨history ++ added,
      { left := hleft
        endsOnLog := hlog
        fronts := ?_
        newest := by simpa using hcaptured
        empty := by simp }⟩
    intro moment hm
    by_cases hold : moment ∈ timeline.completed
    · obtain ⟨front, back, hfront, rfl⟩ := h.fronts moment hold
      exact ⟨front, back ++ added, hfront, (List.append_assoc ..).symm⟩
    · have hle : moment.token.value ≤ last.token.value := by
        rcases List.mem_cons.mp hm with rfl | hm
        · exact UInt64.le_refl _
        · exact UInt64.le_of_lt ((Moment.newestFirst_cons.mp hfirst).1 moment hm).token
      obtain ⟨front, back, hfront, hwhole⟩ := hpair hm hold List.mem_cons_self hlast hle
      rw [hcaptured.unique hwhole]
      exact ⟨history ++ front, back, hfront, List.append_assoc ..⟩

/-- If every life ends on a log part, or completes no checkpoint, all checkpoints are covered. -/
theorem Covered.run {generations : List Generation} (h : timeline.Covered dir place history)
    (hf : ∀ generation ∈ generations, ∀ op ∈ generation.ops, op.Fits)
    (ht : Course.Ascends timeline.completed (generations.flatMap Generation.ops))
    (hfits : ∀ moment ∈ (run dir generations timeline).completed, moment.Fits)
    (hlog : ∀ front, front <+: generations → (run dir front timeline).EndsOnLog) :
    ∃ grown, (run dir generations timeline).Covered dir place grown := by
  apply run_induction (P := fun timeline => ∃ history, timeline.Covered dir place history)
    ⟨history, h⟩ ht hfits
  intro front last hfront ⟨history, hcovered⟩ hbefore ha
  have hends := hlog (front ++ [last]) hfront
  rw [run_concat] at hends
  exact hcovered.live hbefore (hf last (hfront.subset (by simp))) ha hends

end Timeline

end PredicateIndex
