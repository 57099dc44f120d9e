import PredicateIndex.Proofs.ManagerReads
import PredicateIndex.Proofs.QuerySimulation

/-!
# Answers of different managers

A query asks a manager with the handles that this manager gave. Two managers
with the same predicates under the same ids answer it alike if every chain reads
alike on both, whatever else differs between them.
-/

set_option autoImplicit false

namespace PredicateIndex

def QueryTerms.ownedBy (owner : Nat) (terms : QueryTerms) : QueryTerms :=
  ⟨terms.type, terms.terms.map fun term => ({ term.1 with owner }, term.2)⟩

namespace Manager

variable {D : Type}

/-- What a manager gives for a query; the handles are taken as its own. -/
def ask (manager : Manager D) (disk : Disk) (terms : List QueryTerms)
    (combinator : Option (Indicators → Bool)) (settings : QuerySettings) :
    Except Fault (List RecordId) := do
  let query ← manager.prepare (terms.map (·.ownedBy manager.identity)) combinator settings
  (query.collect { manager, disk }).1

structure AnswersAlike (manager : Manager D) (disk : Disk) (other : Manager D) (after : Disk) :
    Prop where
  names : ∀ id, (other.groups.find? fun group => group.id = id).map Group.names =
    (manager.groups.find? fun group => group.id = id).map Group.names
  reads : ∀ source key cancelled, (other.readChain source key cancelled after).1 =
    (manager.readChain source key cancelled disk).1

variable {manager other : Manager D} {disk after : Disk}

structure ReadAlike (world other : QueryWorld D) : Prop where
  reads : ∀ source key cancelled,
    (world.manager.readChain source key cancelled world.disk).1 =
      (other.manager.readChain source key cancelled other.disk).1
  trace : world.trace = other.trace

theorem simulates_callbacks (combinator : Option (Indicators → Bool)) (settings : QuerySettings) :
    (callbacks (D := D) combinator settings).Simulates (callbacks combinator settings) ReadAlike where
  readChain source key world other h := by
    simp only [callbacks, h.trace]
    refine ⟨h.reads source key _, fun again read cancelled => ?_, rfl⟩
    exact (readChain_again world.manager source again key read _ cancelled world.disk).trans
      ((h.reads again read cancelled).trans
        (readChain_again other.manager source again key read _ cancelled other.disk).symm)
  matched indicators world other h := by
    cases combinator with
    | none => exact ⟨rfl, h⟩
    | some judge =>
      simp only [callbacks, h.trace]
      exact ⟨rfl, h.reads, rfl⟩
  stopsAt row column world other h := by
    simp only [callbacks, h.trace]
    exact ⟨rfl, h.reads, rfl⟩
  isCancelled world other h := by
    simp only [callbacks, h.trace]

namespace AnswersAlike

variable (h : manager.AnswersAlike disk other after)

include h in
theorem source {type : KeyType} (term : Handle type × List type.Value) :
    other.source ({ term.1 with owner := other.identity }, term.2) =
      manager.source ({ term.1 with owner := manager.identity }, term.2) := by
  have hnames := h.names term.1.group
  rw [source_eq, source_eq, if_neg (by simp), if_neg (by simp)]
  cases hm : manager.groups.find? fun group => group.id = term.1.group with
  | none =>
    rw [hm, Option.map_none, Option.map_eq_none_iff] at hnames
    rw [hnames]
  | some group =>
    rw [hm, Option.map_some] at hnames
    obtain ⟨found, hfound, hsame⟩ := Option.map_eq_some_iff.mp hnames
    have hname : found.name? term.1.ordinal = group.name? term.1.ordinal := by
      rw [Group.name?, Group.name?, hsame]
    simp only [hfound, hname]

include h in
theorem sourcesOf {type : KeyType} (terms : List (Handle type × List type.Value)) :
    other.sourcesOf (terms.map fun term => ({ term.1 with owner := other.identity }, term.2)) =
      manager.sourcesOf
        (terms.map fun term => ({ term.1 with owner := manager.identity }, term.2)) := by
  induction terms with
  | nil => rfl
  | cons term rest ih =>
    rw [List.map_cons, List.map_cons, Manager.sourcesOf, Manager.sourcesOf, h.source, ih]

include h in
theorem sources (terms : List QueryTerms) :
    other.sources (terms.map (·.ownedBy other.identity)) =
      manager.sources (terms.map (·.ownedBy manager.identity)) := by
  induction terms with
  | nil => rfl
  | cons first rest ih =>
    have hempty : ∀ owner, (first.ownedBy owner).terms.isEmpty = first.terms.isEmpty := by
      intro owner
      simp [QueryTerms.ownedBy]
    rw [List.map_cons, List.map_cons, Manager.sources, Manager.sources, hempty, hempty, ih]
    simp only [QueryTerms.ownedBy, h.sourcesOf]

include h in
/-- Such managers give the same for every query. -/
theorem ask (terms : List QueryTerms) (combinator : Option (Indicators → Bool))
    (settings : QuerySettings) :
    other.ask after terms combinator settings = manager.ask disk terms combinator settings := by
  rw [Manager.ask, Manager.ask, prepare, prepare, h.sources]
  cases manager.sources (terms.map (·.ownedBy manager.identity)) with
  | error fault => rfl
  | ok sources =>
    have hworlds : ReadAlike { manager := other, disk := after } { manager, disk } := ⟨h.reads, rfl⟩
    exact (MergeJoin.collect_together (simulates_callbacks combinator settings)
      (Query.start ⟨sources, settings.startAfter, callbacks combinator settings⟩ none) hworlds).1

end AnswersAlike

end Manager

end PredicateIndex
