import PredicateIndex.Manager.Checkpointing
import PredicateIndex.Proofs.Snapshots

/-!
# The order of tokens

A manager issues each token above all that it knows of: those that it issued
itself, and those of the checkpoints that it can recover. So tokens ascend
whatever the clock shows; only a token that was issued and never completed is
forgotten when the manager is gone.
-/

set_option autoImplicit false

namespace PredicateIndex

inductive Event where
  | opened
  | issued (token : Token)
  | completed (token : Token)
  | recovered (token : Token)
  deriving DecidableEq, Repr

namespace Event

/-- With these events, newest first, the open manager can know of the token: it was completed or
recovered at any time, or issued since the manager was opened. -/
def Known (events : List Event) (token : Token) : Prop :=
  completed token ∈ events ∨ recovered token ∈ events ∨
    issued token ∈ events.takeWhile fun event => event ≠ opened

def Ascend (events : List Event) : Prop :=
  ∀ later token earlier, events = later ++ issued token :: earlier →
    ∀ known, Known earlier known → known.value < token.value

def Bounded (events : List Event) : Prop :=
  ∀ token, issued token ∈ events → token.value.toNat + 1 < UInt64.size

def issued? : Event → Option Token
  | issued token => some token
  | _ => none

instance (events : List Event) : Decidable (Bounded events) :=
  decidable_of_iff (∀ token ∈ events.filterMap issued?, token.value.toNat + 1 < UInt64.size) <| by
    have hmem : ∀ token, token ∈ events.filterMap issued? ↔ issued token ∈ events := by
      intro token
      rw [List.mem_filterMap]
      constructor
      · rintro ⟨event, he, ht⟩
        cases event <;> cases ht
        exact he
      · exact fun h => ⟨_, h, rfl⟩
    simp only [hmem, Bounded]

variable {event : Event} {events : List Event} {token other : Token}

theorem ascend_cons : Ascend (event :: events) ↔
    (∀ token, event = issued token → ∀ known, Known events known → known.value < token.value) ∧
      Ascend events := by
  constructor
  · intro h
    refine ⟨fun token he => h [] token events (by rw [he]; rfl), fun later token earlier he => ?_⟩
    exact h (event :: later) token earlier (by rw [he]; rfl)
  · rintro ⟨hfirst, hrest⟩ later token earlier he
    cases later with
    | nil =>
      obtain ⟨rfl, rfl⟩ := List.cons.inj he
      exact hfirst token rfl
    | cons last later =>
      obtain ⟨rfl, rfl⟩ := List.cons.inj he
      exact hrest later token earlier rfl

theorem known_issued : Known (issued token :: events) other ↔
    other = token ∨ Known events other := by
  simp [Known, or_left_comm]

theorem known_completed : Known (completed token :: events) other ↔
    other = token ∨ Known events other := by
  simp [Known, or_assoc]

theorem known_recovered : Known (recovered token :: events) other ↔
    other = token ∨ Known events other := by
  simp [Known, or_assoc, or_left_comm]

theorem known_opened : Known (opened :: events) other ↔
    completed other ∈ events ∨ recovered other ∈ events := by
  simp [Known]

end Event

open Event

theorem Manager.lt_nextToken {D : Type} (manager : Manager D) (clock : UInt64)
    (h : manager.lastToken.value.toNat + 1 < UInt64.size) :
    manager.lastToken.value < (manager.nextToken clock).value := by
  have hnext : (manager.lastToken.value + 1).toNat = manager.lastToken.value.toNat + 1 := by
    rw [UInt64.toNat_add]
    exact Nat.mod_eq_of_lt h
  rw [Manager.nextToken]
  split
  · rename_i hlt
    rw [UInt64.lt_iff_toNat_lt] at hlt ⊢
    show manager.lastToken.value.toNat < clock.toNat
    omega
  · rw [UInt64.lt_iff_toNat_lt]
    show manager.lastToken.value.toNat < (manager.lastToken.value + 1).toNat
    omega

variable {D : Type}

structure Recorded (events : List Event) (notes : Notes D) : Prop where
  ascend : Ascend events
  issued : ∀ snapshot ∈ notes.snapshots, .issued snapshot.token ∈ events
  descending : notes.snapshots.Pairwise fun later earlier => earlier.token.value < later.token.value
  found : ∀ token, .completed token ∈ events ∨ .recovered token ∈ events →
    ∃ snapshot ∈ notes.completed, snapshot.token = token

structure Dated (events : List Event) (notes : Notes D) (last : Token) : Prop
    extends Recorded events notes where
  known : ∀ token, Known events token → token.value ≤ last.value
  latest : ∀ snapshot ∈ notes.snapshots, snapshot.token.value ≤ last.value
  origin : last.value = 0 ∨ .issued last ∈ events

namespace Dated

variable {events : List Event} {notes : Notes D} {last : Token}

theorem bounded (h : Dated events notes last) (hb : Bounded events) :
    last.value.toNat + 1 < UInt64.size := by
  rcases h.origin with hzero | hissued
  · rw [hzero]
    decide
  · exact hb last hissued

theorem take (h : Dated events notes last) (ht : notes.taken = none) {snapshot : Snapshot D}
    (hl : last.value < snapshot.token.value) :
    Dated (.issued snapshot.token :: events) { notes with taken := some snapshot }
      snapshot.token := by
  have hsnapshots : notes.snapshots = notes.completed := by rw [Notes.snapshots, ht]; rfl
  have hissued := h.issued
  have hdescending := h.descending
  have hlatest := h.latest
  rw [hsnapshots] at hissued hdescending hlatest
  refine ⟨⟨ascend_cons.mpr ⟨fun token he known hk => ?_, h.ascend⟩, fun other ho => ?_,
    List.pairwise_cons.mpr ⟨fun earlier he => ?_, hdescending⟩, fun token ht => ?_⟩,
    fun token hk => ?_, fun other ho => ?_, Or.inr List.mem_cons_self⟩
  · obtain rfl := Event.issued.inj he
    exact UInt64.lt_of_le_of_lt (h.known known hk) hl
  · rcases List.mem_cons.mp ho with rfl | ho
    · exact List.mem_cons_self
    · exact List.mem_cons_of_mem _ (hissued other ho)
  · exact UInt64.lt_of_le_of_lt (hlatest earlier he) hl
  · exact h.found token (by simpa using ht)
  · rcases known_issued.mp hk with rfl | hk
    · exact UInt64.le_refl _
    · exact UInt64.le_of_lt (UInt64.lt_of_le_of_lt (h.known token hk) hl)
  · rcases List.mem_cons.mp ho with rfl | ho
    · exact UInt64.le_refl _
    · exact UInt64.le_of_lt (UInt64.lt_of_le_of_lt (hlatest other ho) hl)

theorem complete (h : Dated events notes last) :
    Dated (notes.taken.toList.map (fun snapshot => .completed snapshot.token) ++ events)
      notes.complete last := by
  have hsame : notes.complete.snapshots = notes.snapshots := rfl
  cases ht : notes.taken with
  | none =>
    have hcompleted : notes.complete.completed = notes.completed := by
      rw [Notes.complete, Notes.snapshots, ht]
      rfl
    exact ⟨⟨h.ascend, h.issued, h.descending, hcompleted ▸ h.found⟩, h.known, h.latest, h.origin⟩
  | some snapshot =>
    have hmember : snapshot ∈ notes.snapshots :=
      List.mem_append_left _ (Option.mem_toList.mpr ht)
    refine ⟨⟨ascend_cons.mpr ⟨fun _ he => (by cases he), h.ascend⟩, fun other ho => ?_, h.descending,
      fun token htoken => ?_⟩, fun token hk => ?_, h.latest, h.origin.imp_right ?_⟩
    · exact List.mem_cons_of_mem _ (h.issued other ho)
    · by_cases he : token = snapshot.token
      · exact ⟨snapshot, hmember, he.symm⟩
      · obtain ⟨other, ho, hfound⟩ := h.found token (by simpa [he] using htoken)
        exact ⟨other, List.mem_append_right _ ho, hfound⟩
    · rcases known_completed.mp hk with rfl | hk
      · exact h.latest snapshot hmember
      · exact h.known token hk
    · exact List.mem_cons_of_mem _

theorem close (h : Dated events notes last) :
    Recorded events { completed := notes.completed : Notes D } where
  ascend := h.ascend
  issued snapshot hs := h.issued snapshot (List.mem_append_right _ hs)
  descending := h.descending.sublist (List.sublist_append_right _ _)
  found := h.found

end Dated

namespace Recorded

variable {events : List Event} {completed : List (Snapshot D)} {snapshot : Snapshot D}

theorem opened (h : Recorded events ({} : Notes D)) :
    Dated (.opened :: events) ({} : Notes D) ⟨0⟩ := by
  have hnone : ∀ token, ¬ (.completed token ∈ events ∨ .recovered token ∈ events) := by
    intro token ht
    obtain ⟨snapshot, hs, -⟩ := h.found token ht
    cases hs
  refine ⟨⟨ascend_cons.mpr ⟨fun _ he => (by cases he), h.ascend⟩, fun _ hs => (by cases hs),
    List.Pairwise.nil, fun token ht => ?_⟩, fun token hk => ?_, fun _ hs => (by cases hs), Or.inl rfl⟩
  · exact (hnone token (by simpa using ht)).elim
  · exact (hnone token (known_opened.mp hk)).elim

theorem reopened (h : Recorded events { completed : Notes D })
    (hl : completed.head? = some snapshot) :
    Dated (.recovered snapshot.token :: .opened :: events) { completed : Notes D }
      (if (0 : UInt64) < snapshot.token.value then snapshot.token else ⟨0⟩) := by
  have hmember : snapshot ∈ completed := List.mem_of_head? hl
  have hnewest : ∀ other ∈ completed, other.token.value ≤ snapshot.token.value := by
    obtain ⟨rest, rfl⟩ := List.head?_eq_some_iff.mp hl
    have hdescending : (snapshot :: rest).Pairwise
        fun later earlier => earlier.token.value < later.token.value := h.descending
    intro other ho
    rcases List.mem_cons.mp ho with rfl | ho
    · exact UInt64.le_refl _
    · exact UInt64.le_of_lt ((List.pairwise_cons.mp hdescending).1 other ho)
  have hvalue : (if (0 : UInt64) < snapshot.token.value then snapshot.token else ⟨0⟩).value =
      snapshot.token.value := by
    split
    · rfl
    · rename_i hz
      have hle : snapshot.token.value ≤ 0 := UInt64.not_lt.mp hz
      exact (UInt64.le_antisymm hle (UInt64.zero_le)).symm
  -- the new manager knows completed tokens only, and the newest snapshot has the greatest of them
  refine ⟨⟨?_, fun other ho => ?_, h.descending, fun token ht => ?_⟩, fun token hk => ?_,
    fun other ho => ?_, ?_⟩
  · exact ascend_cons.mpr ⟨fun _ he => (by cases he),
      ascend_cons.mpr ⟨fun _ he => (by cases he), h.ascend⟩⟩
  · exact List.mem_cons_of_mem _ (List.mem_cons_of_mem _ (h.issued other ho))
  · by_cases he : token = snapshot.token
    · exact ⟨snapshot, hmember, he.symm⟩
    · exact h.found token (by simpa [he] using ht)
  · rw [hvalue]
    rcases known_recovered.mp hk with rfl | hk
    · exact UInt64.le_refl _
    · obtain ⟨other, ho, rfl⟩ := h.found token (known_opened.mp hk)
      exact hnewest other ho
  · rw [hvalue]
    exact hnewest other ho
  · split
    · exact Or.inr (List.mem_cons_of_mem _ (List.mem_cons_of_mem _ (h.issued snapshot hmember)))
    · exact Or.inl rfl

end Recorded

end PredicateIndex
