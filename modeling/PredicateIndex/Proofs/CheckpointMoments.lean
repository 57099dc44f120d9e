import PredicateIndex.Proofs.CheckpointCodec
import PredicateIndex.Proofs.CheckpointWriting

/-!
# Captured checkpoints and the directory

A moment is the store and the disk at the time a checkpoint was captured. With
the moments of the completed checkpoints, newest first, the checkpoint directory
can be told without looking at it: which parts it has, what is read from them
and which tokens are the newest.
-/

set_option autoImplicit false

namespace PredicateIndex

open CheckpointDir

structure Moment where
  kind : CheckpointKind
  token : Token
  store : Store
  disk : Disk

namespace Moment

def captured (moment : Moment) : CapturedCheckpoint :=
  moment.store.capture moment.kind moment.token

def index (moment : Moment) : IndexCheckpoint :=
  ⟨moment.token, UInt64.ofNat moment.store.log.tail, moment.store.heads⟩

def log (moment : Moment) : LogCheckpoint :=
  ⟨moment.token, UInt64.ofNat moment.store.log.start, UInt64.ofNat moment.store.log.tail,
    moment.store.sessions.commitPoints⟩

def indexPart (moment : Moment) : Option (Token × Bytes) :=
  moment.captured.index.map IndexCheckpoint.part

def logPart (moment : Moment) : Option (Token × Bytes) :=
  moment.captured.log.map LogCheckpoint.part

def hasIndexUpTo (bound : Token) (moment : Moment) : Bool :=
  moment.kind.hasIndex && decide (moment.token.value ≤ bound.value)

structure Before (earlier later : Moment) : Prop where
  token : earlier.token.value < later.token.value
  tail : earlier.kind.hasLog = true → earlier.store.log.tail ≤ later.store.log.tail

def NewestFirst (completed : List Moment) : Prop :=
  completed.Pairwise fun later earlier => earlier.Before later

structure Newest (completed : List Moment) (fits : Moment → Bool) (moment : Moment) : Prop where
  mem : moment ∈ completed
  holds : fits moment = true
  le : ∀ other ∈ completed, fits other = true → other.token.value ≤ moment.token.value

theorem newestFirst_cons {moment : Moment} {completed : List Moment} :
    NewestFirst (moment :: completed) ↔
      (∀ earlier ∈ completed, earlier.Before moment) ∧ NewestFirst completed := List.pairwise_cons

theorem NewestFirst.fresh {moment : Moment} {completed : List Moment}
    (h : NewestFirst (moment :: completed)) :
    ∀ earlier ∈ completed, earlier.token ≠ moment.token := by
  intro earlier hm he
  have hlt := ((newestFirst_cons.mp h).1 earlier hm).token
  rw [he] at hlt
  exact UInt64.lt_irrefl _ hlt

def found (part : Moment → Option (Token × Bytes)) (completed : List Moment) (token : Token) :
    Option Bytes :=
  (completed.find? (·.token = token)).bind fun moment =>
    (part moment).map fun pair => Frame.wrap pair.2

theorem owner_indexPart {moment : Moment} {pair : Token × Bytes}
    (h : moment.indexPart = some pair) :
    pair.1 = moment.token := by
  obtain ⟨part, hp, rfl⟩ := Option.map_eq_some_iff.mp h
  simp only [captured, Store.capture] at hp
  split at hp
  · rw [← Option.some.inj hp]
    rfl
  · cases hp

theorem owner_logPart {moment : Moment} {pair : Token × Bytes} (h : moment.logPart = some pair) :
    pair.1 = moment.token := by
  obtain ⟨part, hp, rfl⟩ := Option.map_eq_some_iff.mp h
  simp only [captured, Store.capture] at hp
  split at hp
  · rw [← Option.some.inj hp]
    rfl
  · cases hp

theorem found_cons {part : Moment → Option (Token × Bytes)} {moment : Moment}
    {completed : List Moment} (hp : ∀ pair, part moment = some pair → pair.1 = moment.token)
    (hfresh : ∀ earlier ∈ completed, earlier.token ≠ moment.token) (token : Token) :
    found part (moment :: completed) token =
      CheckpointDir.replaced (part moment) token (found part completed token) := by
  by_cases ht : moment.token = token
  · subst ht
    have hnone : completed.find? (·.token = moment.token) = none := by
      rw [List.find?_eq_none]
      intro earlier hm
      simpa using hfresh earlier hm
    rw [found, found, List.find?_cons_of_pos (by simp), hnone]
    cases hc : part moment with
    | none => simp [replaced, hc]
    | some pair => simp [replaced, hc, hp pair hc]
  · rw [found, found, List.find?_cons_of_neg (by simpa using ht)]
    cases hc : part moment with
    | none => rfl
    | some pair => simp [replaced, hp pair hc, Ne.symm ht]

theorem indexPart_eq {moment : Moment} (h : moment.kind.hasIndex = true) :
    moment.indexPart = some (moment.token, Payload.index moment.index) := by
  rw [indexPart, captured, Store.capture, if_pos h]
  rfl

theorem logPart_eq {moment : Moment} (h : moment.kind.hasLog = true) :
    moment.logPart = some (moment.token, Payload.log moment.log) := by
  rw [logPart, captured, Store.capture, if_pos h]
  rfl

theorem isSome_indexPart (moment : Moment) : moment.indexPart.isSome = moment.kind.hasIndex := by
  rw [indexPart, captured, Store.capture]
  cases moment.kind.hasIndex <;> rfl

theorem isSome_logPart (moment : Moment) : moment.logPart.isSome = moment.kind.hasLog := by
  rw [logPart, captured, Store.capture]
  cases moment.kind.hasLog <;> rfl

variable {completed : List Moment}

theorem found_of_mem (h : NewestFirst completed)
    {moment : Moment} (hm : moment ∈ completed) (part : Moment → Option (Token × Bytes)) :
    found part completed moment.token = (part moment).map fun pair => Frame.wrap pair.2 := by
  induction completed with
  | nil => cases hm
  | cons first rest ih =>
    obtain ⟨hfirst, hrest⟩ := newestFirst_cons.mp h
    rcases List.mem_cons.mp hm with rfl | hm
    · rw [found, List.find?_cons_of_pos (by simp)]
      rfl
    · have hlt := (hfirst moment hm).token
      have hne : ¬ first.token = moment.token := fun he => UInt64.lt_irrefl _ (he ▸ hlt)
      rw [found, List.find?_cons_of_neg (by simpa using hne)]
      exact ih hrest hm

theorem exists_of_found {part : Moment → Option (Token × Bytes)} {token : Token}
    (h : (found part completed token).isSome) :
    ∃ moment ∈ completed, moment.token = token ∧ (part moment).isSome := by
  rw [found] at h
  cases hf : completed.find? (·.token = token) with
  | none => simp [hf] at h
  | some moment =>
    refine ⟨moment, List.mem_of_find?_eq_some hf, ?_, ?_⟩
    · simpa using List.find?_some hf
    · simpa [hf] using h

theorem le_of_find? (h : NewestFirst completed)
    {fits : Moment → Bool} {moment : Moment} (hf : completed.find? fits = some moment)
    {other : Moment} (hm : other ∈ completed) (ho : fits other = true) :
    other.token.value ≤ moment.token.value ∧
      (other.kind.hasLog = true → other.store.log.tail ≤ moment.store.log.tail) := by
  induction completed with
  | nil => cases hm
  | cons first rest ih =>
    obtain ⟨hfirst, hrest⟩ := newestFirst_cons.mp h
    by_cases hc : fits first = true
    · rw [List.find?_cons_of_pos hc] at hf
      obtain rfl := Option.some.inj hf
      rcases List.mem_cons.mp hm with rfl | hm
      · exact ⟨UInt64.le_refl _, fun _ => Nat.le_refl _⟩
      · exact ⟨UInt64.le_of_lt (hfirst other hm).token, (hfirst other hm).tail⟩
    · rw [List.find?_cons_of_neg hc] at hf
      rcases List.mem_cons.mp hm with rfl | hm
      · exact (hc ho).elim
      · exact ih hrest hf hm

/-- The newest of the checkpoints that fit is the first of them. -/
theorem newest_iff_find? (h : NewestFirst completed) {fits : Moment → Bool} {moment : Moment} :
    Newest completed fits moment ↔ completed.find? fits = some moment := by
  constructor
  · rintro ⟨hm, hf, hle⟩
    induction completed with
    | nil => cases hm
    | cons first rest ih =>
      obtain ⟨hfirst, hrest⟩ := newestFirst_cons.mp h
      rcases List.mem_cons.mp hm with rfl | hm
      · exact List.find?_cons_of_pos hf
      · have hne : ¬ fits first = true := by
          intro hc
          have hlt := (hfirst moment hm).token
          have hge := hle first List.mem_cons_self hc
          exact UInt64.lt_irrefl _ (UInt64.lt_of_lt_of_le hlt hge)
        rw [List.find?_cons_of_neg hne]
        exact ih hrest hm fun other ho => hle other (List.mem_cons_of_mem first ho)
  · intro hf
    exact ⟨List.mem_of_find?_eq_some hf, List.find?_some hf,
      fun other hm ho => (le_of_find? h hf hm ho).1⟩

end Moment

structure CheckpointDir.Lists (disk : Disk) (place : Path) (completed : List Moment) : Prop where
  index : ∀ token, part? disk place token indexFile =
    Moment.found Moment.indexPart completed token
  log : ∀ token, part? disk place token logFile = Moment.found Moment.logPart completed token

theorem CheckpointDir.Lists.congr {disk other : Disk} {place : Path} {completed : List Moment}
    (h : Lists disk place completed)
    (hp : ∀ token name, part? other place token name = part? disk place token name) :
    Lists other place completed :=
  ⟨fun token => (hp token indexFile).trans (h.index token),
    fun token => (hp token logFile).trans (h.log token)⟩

/-- Writing the parts of a checkpoint with a new token adds it to those that are there. -/
theorem CheckpointDir.Lists.add {disk other : Disk} {place : Path} {completed : List Moment}
    (h : Lists disk place completed) {moment : Moment}
    (hfresh : ∀ earlier ∈ completed, earlier.token ≠ moment.token)
    (hi : ∀ token, part? other place token indexFile =
      replaced moment.indexPart token (part? disk place token indexFile))
    (hl : ∀ token, part? other place token logFile =
      replaced moment.logPart token (part? disk place token logFile)) :
    Lists other place (moment :: completed) where
  index token := by
    rw [hi, h.index]
    exact (Moment.found_cons (fun _ => Moment.owner_indexPart) hfresh token).symm
  log token := by
    rw [hl, h.log]
    exact (Moment.found_cons (fun _ => Moment.owner_logPart) hfresh token).symm

/-- The lengths and addresses of the parts fit the words that they are written in. -/
structure Moment.Fits (moment : Moment) : Prop where
  index : moment.kind.hasIndex = true → moment.index.Fits
  log : moment.kind.hasLog = true → moment.log.Fits
  tail : moment.store.log.tail < UInt64.size

instance Moment.decidableFits (moment : Moment) : Decidable moment.Fits :=
  decidable_of_iff ((moment.kind.hasIndex = true → moment.index.Fits) ∧
      (moment.kind.hasLog = true → moment.log.Fits) ∧ moment.store.log.tail < UInt64.size)
    ⟨fun h => ⟨h.1, h.2.1, h.2.2⟩, fun h => ⟨h.index, h.log, h.tail⟩⟩

namespace CheckpointDir.Lists

variable {disk : Disk} {dir place : Path} {completed : List Moment}

theorem readIndex (h : Lists disk place completed) (ht : Tidy disk place)
    (hd : Disk.Homed disk dir place)
    (hb : Moment.NewestFirst completed) {moment : Moment}
    (hm : moment ∈ completed) (hk : moment.kind.hasIndex = true) (hf : moment.Fits) :
    CheckpointDir.readIndex dir moment.token disk = .ok moment.index := by
  rw [CheckpointDir.readIndex, ht.read_eq hd moment.token (by decide), h.index,
    Moment.found_of_mem hb hm, Moment.indexPart_eq hk]
  exact Frame.decode_index (hf.index hk)

theorem readLog (h : Lists disk place completed) (ht : Tidy disk place)
    (hd : Disk.Homed disk dir place)
    (hb : Moment.NewestFirst completed) {moment : Moment}
    (hm : moment ∈ completed) (hk : moment.kind.hasLog = true) (hf : moment.Fits) :
    CheckpointDir.readLog dir moment.token disk = .ok moment.log := by
  rw [CheckpointDir.readLog, ht.read_eq hd moment.token (by decide), h.log,
    Moment.found_of_mem hb hm, Moment.logPart_eq hk]
  exact Frame.decode_log (hf.log hk)

theorem latestLog (h : Lists disk place completed) (ht : Tidy disk place)
    (hd : Disk.Homed disk dir place)
    (hb : Moment.NewestFirst completed) :
    CheckpointDir.latestLog dir disk =
      .ok ((completed.find? (·.kind.hasLog)).map Moment.token) := by
  cases hfind : completed.find? (·.kind.hasLog) with
  | none =>
    apply ht.latestLog_none hd
    intro token
    rw [h.log, ← Option.not_isSome_iff_eq_none]
    intro hfound
    obtain ⟨moment, hm, -, hpart⟩ := Moment.exists_of_found hfound
    rw [Moment.isSome_logPart] at hpart
    exact List.find?_eq_none.mp hfind moment hm hpart
  | some moment =>
    have hm := List.mem_of_find?_eq_some hfind
    apply ht.latestLog_eq hd
    · have hk := List.find?_some hfind
      rw [h.log, Moment.found_of_mem hb hm, Option.isSome_map, Moment.isSome_logPart]
      exact hk
    · intro token hpart
      rw [h.log] at hpart
      obtain ⟨other, hother, rfl, hsome⟩ := Moment.exists_of_found hpart
      rw [Moment.isSome_logPart] at hsome
      exact (Moment.le_of_find? hb hfind hother hsome).1

theorem latestIndexBefore (h : Lists disk place completed) (ht : Tidy disk place)
    (hd : Disk.Homed disk dir place)
    (hb : Moment.NewestFirst completed) (bound : Token) :
    CheckpointDir.latestIndexBefore dir bound disk =
      .ok ((completed.find? (Moment.hasIndexUpTo bound)).map Moment.token) := by
  cases hfind : completed.find? (Moment.hasIndexUpTo bound) with
  | none =>
    apply ht.latestIndexBefore_none hd
    intro token hle
    rw [h.index, ← Option.not_isSome_iff_eq_none]
    intro hfound
    obtain ⟨moment, hm, rfl, hpart⟩ := Moment.exists_of_found hfound
    rw [Moment.isSome_indexPart] at hpart
    exact List.find?_eq_none.mp hfind moment hm (by simp [Moment.hasIndexUpTo, hpart, hle])
  | some moment =>
    have hm := List.mem_of_find?_eq_some hfind
    have hbefore := List.find?_some hfind
    rw [Moment.hasIndexUpTo, Bool.and_eq_true, decide_eq_true_eq] at hbefore
    apply ht.latestIndexBefore_eq hd hbefore.2
    · rw [h.index, Moment.found_of_mem hb hm, Option.isSome_map, Moment.isSome_indexPart]
      exact hbefore.1
    · intro token hle hpart
      rw [h.index] at hpart
      obtain ⟨other, hother, rfl, hsome⟩ := Moment.exists_of_found hpart
      rw [Moment.isSome_indexPart] at hsome
      exact (Moment.le_of_find? hb hfind hother (by simp [Moment.hasIndexUpTo, hsome, hle])).1

end CheckpointDir.Lists

end PredicateIndex
