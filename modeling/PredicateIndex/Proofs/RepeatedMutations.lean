import PredicateIndex.Proofs.MutationWrites

/-!
# Mutations that are repeated

A tracker tells the groups the same each time that a mutation is dispatched with
it, so every dispatch writes the same again. One that stops before all groups
were gone through has the first of them write it and the others nothing. After
any such dispatches each group has carried out the writes of the mutation some
number of times, and once it is dispatched to all groups this number does not
matter.
-/

set_option autoImplicit false

namespace PredicateIndex

variable {D : Type}

theorem Request.spread_of_part (request again : Request D)
    (h : ∀ group tracker, again.part group tracker = request.part group tracker)
    (groups : List (Group D)) (tracker : ChangeTracker D) :
    again.spread groups tracker = request.spread groups tracker := by
  induction groups generalizing tracker with
  | nil => rfl
  | cons group rest ih =>
    have heffect : again.effect group tracker = request.effect group tracker := by
      rw [effect, effect, h]
    rw [spread, spread, heffect]
    simp only [ih]

namespace Manager

variable {manager : Manager D} {groups changed : List (Group D)} {base : Path} {disk other : Disk}
  {writes others : Nat → List IndexWrite}

theorem Appends.congr (h : Appends groups base disk writes changed other)
    (hw : ∀ group ∈ groups, others group.id = writes group.id) :
    Appends groups base disk others changed other := by
  have hall := (List.forall₂_and_left groups changed).mpr ⟨hw, h⟩
  exact hall.imp fun group after hpair => hpair.1 ▸ hpair.2

def front (manager : Manager D) (count : Nat) : Manager D :=
  { manager with groups := manager.groups.take count }

namespace Op

def taken (op : Op D) (tracker : ChangeTracker D) : ChangeTracker D :=
  match op with
  | .delete _ => tracker.setKind .delete
  | _ => tracker

variable {op : Op D} {tracker again : ChangeTracker D}

theorem begins_of_mutates (ho : op.mutates = true) : op.begins = true := by
  cases op <;> first | rfl | exact ho

theorem effect_alike (ho : op.mutates = true) (h : (op.taken tracker).Alike (op.taken again)) :
    (op.effect manager again).1 = (op.effect manager tracker).1 := by
  cases op with
  | upsert data id name =>
    cases name with
    | none => rfl
    | some name =>
      rw [effect, effect, show again.kind = tracker.kind from h.kind]
      split
      · rfl
      · rw [Request.spread_of_part (.update tracker) (.update again) fun _ _ => rfl]
        exact Request.spread_alike _ _ h
  | update name =>
    rw [effect, effect, Request.spread_of_part (.update tracker) (.update again) fun _ _ => rfl]
    exact Request.spread_alike _ _ h
  | delete name =>
    rw [effect, effect, Request.spread_of_part (.delete tracker) (.delete again) fun _ _ => rfl]
    exact Request.spread_alike _ _ h
  | _ => cases ho

theorem alike_effect (op : Op D) (ho : op.mutates = true) (manager : Manager D)
    (tracker : ChangeTracker D) :
    (op.taken tracker).Alike (op.taken (op.effect manager tracker).2) := by
  cases op with
  | upsert data id name =>
    cases name with
    | none => exact .refl tracker
    | some name =>
      rw [effect]
      split
      · exact .refl tracker
      · exact Request.alike_spread _ _ _
  | update name => exact Request.alike_spread _ _ _
  | delete name =>
    exact (Request.alike_spread (.delete tracker) manager.groups (tracker.setKind .delete)).setKind
      .delete
  | _ => cases ho

/-- A mutation of the first groups only has each of them write what it writes in a mutation of all
groups, or nothing. -/
theorem effect_take (op : Op D) (manager : Manager D) (count : Nat) (tracker : ChangeTracker D)
    (id : Nat) : (op.effect (manager.front count) tracker).1 id = [] ∨
      (op.effect (manager.front count) tracker).1 id = (op.effect manager tracker).1 id := by
  rcases op.writes_effect tracker with hnone | ⟨request, carried, hwrites⟩
  · exact .inl (by rw [hnone])
  · rw [hwrites, hwrites]
    exact request.spread_take manager.groups count carried id

theorem effect_of_not_mem (op : Op D) {id : Nat} (h : id ∉ manager.groups.map Group.id)
    (tracker : ChangeTracker D) : (op.effect manager tracker).1 id = [] := by
  rcases op.writes_effect tracker with hnone | ⟨request, carried, hwrites⟩
  · rw [hnone]
  · rw [hwrites]
    exact request.spread_of_not_mem h carried

/-- Done again, it finds the tracker that it has left. -/
theorem given_leaves (op : Op D) (manager : Manager D) (trackers : Nat → ChangeTracker D) :
    op.given (op.leaves trackers (op.effect manager (op.given trackers)).2) =
      (op.effect manager (op.given trackers)).2 := by
  cases op with
  | upsert data id name =>
    cases name with
    | none => rfl
    | some name => simp [given, leaves, tracker?]
  | newTracker name | setBefore name data id | setAfter name data id | update name | delete name =>
    simp [given, leaves, tracker?]
  | _ => rfl

end Op

end Manager

namespace Chronicle

variable {chronicle current next : Chronicle D} {base : Path} {op : Manager.Op D}

/-- Dispatches a mutation to all groups, or to the first of them only because the next one fails. -/
def dispatch (op : Manager.Op D) : Option Nat → Chronicle D → Chronicle D
  | none, chronicle => chronicle.step op
  | some count, chronicle =>
    let reached := step op { chronicle with manager := chronicle.manager.front count }
    { reached with
      manager := { reached.manager with
        groups := reached.manager.groups ++ chronicle.manager.groups.drop count } }

def retry (op : Manager.Op D) : List (Option Nat) → Chronicle D → Chronicle D
  | [], chronicle => chronicle.step op
  | stop :: rest, chronicle => retry op rest (chronicle.dispatch op stop)

/-- Each group has carried out the writes of a mutation some number of times, and the tracker tells
it the same again. -/
structure Repeats (current : Chronicle D) (op : Manager.Op D) (base : Path) (next : Chronicle D) :
    Prop where
  ready : next.Ready base
  appends : ∃ writes, Manager.Appends current.manager.groups base current.disk writes
      next.manager.groups next.disk ∧ ∀ id, ∃ count, writes id = (List.replicate count
        ((op.effect current.manager (op.given current.trackers)).1 id)).flatten
  alike : (op.taken (op.given current.trackers)).Alike (op.taken (op.given next.trackers))

theorem Ready.front (h : chronicle.Ready base) (count : Nat) :
    Ready { chronicle with manager := chronicle.manager.front count } base :=
  ⟨h.wellFormed, ⟨h.legible.distinct.sublist (List.take_sublist count _),
    fun group hg => h.legible.group group (List.mem_of_mem_take hg)⟩, h.fits, h.settled⟩

theorem Ready.appends_front (h : chronicle.Ready base) (ho : op.begins = true) (count : Nat) :
    Manager.Appends chronicle.manager.groups base chronicle.disk
      (op.effect (chronicle.manager.front count) (op.given chronicle.trackers)).1
      (chronicle.dispatch op (some count)).manager.groups
      (chronicle.dispatch op (some count)).disk := by
  have hcomes := (h.front count).comes ho
  have hsplit := List.take_append_drop count chronicle.manager.groups
  have hdistinct : ∀ group ∈ chronicle.manager.groups.drop count,
      ∀ first ∈ chronicle.manager.groups.take count, group.id ≠ first.id := by
    have hpairs := h.legible.distinct
    rw [← hsplit, List.pairwise_append] at hpairs
    exact fun group hg first hf he => hpairs.2.2 first hf group hg he.symm
  have hnothing : ∀ group ∈ chronicle.manager.groups.drop count,
      (op.effect (chronicle.manager.front count) (op.given chronicle.trackers)).1 group.id = [] := by
    intro group hg
    refine op.effect_of_not_mem (fun hm => ?_) _
    obtain ⟨first, hf, he⟩ := List.mem_map.mp hm
    exact hdistinct group hg first hf he.symm
  have hrest := (Manager.Appends.ofSpares hcomes.spares hdistinct).congr hnothing
  have hall : Manager.Appends
      (chronicle.manager.groups.take count ++ chronicle.manager.groups.drop count) base
      chronicle.disk (op.effect (chronicle.manager.front count) (op.given chronicle.trackers)).1
      (chronicle.dispatch op (some count)).manager.groups
      (chronicle.dispatch op (some count)).disk := List.rel_append hcomes.appends hrest
  rwa [hsplit] at hall

theorem Ready.dispatch (h : chronicle.Ready base) (ho : op.mutates = true) (stop : Option Nat) :
    (chronicle.dispatch op stop).Ready base ∧
      (∃ writes, Manager.Appends chronicle.manager.groups base chronicle.disk writes
        (chronicle.dispatch op stop).manager.groups (chronicle.dispatch op stop).disk ∧
        ∀ id, writes id = [] ∨
          writes id = (op.effect chronicle.manager (op.given chronicle.trackers)).1 id) ∧
      (op.taken (op.given chronicle.trackers)).Alike
        (op.taken (op.given (chronicle.dispatch op stop).trackers)) := by
  have hbegins := Manager.Op.begins_of_mutates ho
  cases stop with
  | none =>
    have hcomes := h.comes hbegins
    refine ⟨h.ofComes hcomes, ⟨_, hcomes.appends, fun id => .inr rfl⟩, ?_⟩
    rw [Chronicle.dispatch, hcomes.trackers, Manager.Op.given_leaves]
    exact op.alike_effect ho _ _
  | some count =>
    have hcomes := (h.front count).comes hbegins
    have hready := (h.front count).ofComes hcomes
    have happends := h.appends_front hbegins count
    refine ⟨⟨hready.wellFormed, ⟨Manager.distinct_of_ids happends.ids h.legible.distinct,
      happends.legible h.legible.group⟩, hready.fits, hready.settled⟩,
      ⟨_, happends, fun id => op.effect_take chronicle.manager count _ id⟩, ?_⟩
    rw [show (chronicle.dispatch op (some count)).trackers = _ from hcomes.trackers,
      Manager.Op.given_leaves]
    exact op.alike_effect ho _ _

namespace Repeats

theorem refl (h : chronicle.Ready base) (op : Manager.Op D) : chronicle.Repeats op base chronicle :=
  ⟨h, ⟨_, .refl _ base _, fun _ => ⟨0, rfl⟩⟩, .refl _⟩

theorem effect (h : current.Repeats op base next) (ho : op.mutates = true) :
    (op.effect next.manager (op.given next.trackers)).1 =
      (op.effect current.manager (op.given current.trackers)).1 := by
  obtain ⟨writes, happends, -⟩ := h.appends
  rw [op.effect_congr happends.parts]
  exact Manager.Op.effect_alike ho h.alike

/-- Every dispatch is one more repetition in some of the groups. -/
theorem dispatch (h : current.Repeats op base next) (ho : op.mutates = true) (stop : Option Nat) :
    current.Repeats op base (next.dispatch op stop) := by
  obtain ⟨hready, ⟨more, hmore, hsome⟩, halike⟩ := h.ready.dispatch ho stop
  obtain ⟨writes, happends, hcounts⟩ := h.appends
  refine ⟨hready, ⟨_, happends.trans hmore, fun id => ?_⟩, h.alike.trans halike⟩
  obtain ⟨count, hcount⟩ := hcounts id
  rcases hsome id with hnone | hagain
  · exact ⟨count, by rw [hcount, hnone, List.append_nil]⟩
  · refine ⟨count + 1, ?_⟩
    rw [hcount, hagain, h.effect ho, List.replicate_succ', List.flatten_append,
      List.flatten_singleton]

end Repeats

/-- After any dispatches and a last one to all groups, each group has carried out the writes of the
mutation at least once. -/
theorem Repeats.retry (h : current.Repeats op base next) (ho : op.mutates = true)
    (stops : List (Option Nat)) : ∃ writes,
      Manager.Appends current.manager.groups base current.disk writes
        (next.retry op stops).manager.groups (next.retry op stops).disk ∧
      ∀ id, ∃ count, writes id =
        (List.replicate count ((op.effect current.manager (op.given current.trackers)).1 id)).flatten
          ++ (op.effect current.manager (op.given current.trackers)).1 id := by
  induction stops generalizing next with
  | nil =>
    obtain ⟨writes, happends, hcounts⟩ := h.appends
    have hlast := (h.ready.comes (Manager.Op.begins_of_mutates ho)).appends
    refine ⟨_, happends.trans hlast, fun id => ?_⟩
    obtain ⟨count, hcount⟩ := hcounts id
    exact ⟨count, by rw [hcount, h.effect ho]⟩
  | cons stop rest ih => exact ih (h.dispatch ho stop)

/-- An insertion, an update or a deletion that is dispatched any number of times, each time to all
groups or to the first of them only, and then to all groups: every query has the same answer as
after one dispatch to all groups, as long as the logs have room. -/
theorem repeated_mutation_answers {current : Chronicle D} (hr : current.Reached)
    {op : Manager.Op D} (ho : op.mutates = true) (stops : List (Option Nat))
    (hf : ∀ group ∈ (current.step op).manager.groups, group.store.log.Fits)
    (hfs : ∀ group ∈ (current.retry op stops).manager.groups, group.store.log.Fits)
    (terms : List QueryTerms) (combinator : Option (Indicators → Bool)) (settings : QuerySettings) :
    (current.retry op stops).manager.ask (current.retry op stops).disk terms combinator settings =
      (current.step op).manager.ask (current.step op).disk terms combinator settings := by
  obtain ⟨base, hready⟩ := hr.ready
  obtain ⟨writes, hretried, hcounts⟩ := (Repeats.refl hready op).retry ho stops
  have honce := (hready.comes (Manager.Op.begins_of_mutates ho)).appends
  refine (Manager.answersAlike_of_appends hready.legible.group honce hretried
    (fun group hg index => ?_) (fun group hg chain => ?_) hf hfs).ask terms combinator settings
  · obtain ⟨count, hcount⟩ := hcounts group.id
    rw [hcount, IndexWrite.markAll_repeated]
  · obtain ⟨count, hcount⟩ := hcounts group.id
    simp only [hcount, List.mem_append, List.mem_flatten, List.mem_replicate]
    constructor
    · rintro ⟨write, ⟨_, ⟨-, rfl⟩, hw⟩ | hw, hc⟩ <;> exact ⟨write, hw, hc⟩
    · exact fun ⟨write, hw, hc⟩ => ⟨write, .inr hw, hc⟩

end Chronicle

def numberTold : Option (Chronicle Nat) :=
  Chronicle.ofDeeds { dir := ["db"] }
    [.register { type := .bool, predicates := [("even", fun n => some (n % 2 == 0))] },
      .register { type := .bool,
                  predicates := [("large", fun n => if 3 < n then some true else none)] },
      .ask (.upsert 4 ⟨7, 1⟩ none), .ask (.setBefore 0 4 ⟨7, 1⟩), .ask (.setAfter 0 3 ⟨7, 1⟩)]

def oddTerms : QueryTerms := ⟨.bool, [(⟨"even", 0, 0, 0⟩, [false])]⟩

def numberRetried : Bool :=
  match numberTold with
  | none => false
  | some current =>
    let once := current.step (.update 0)
    let retried := current.retry (.update 0) [some 1, none]
    decide ((∀ group ∈ once.manager.groups,
        group.store.log.flushed ≤ Disk.offsetLimit ∧ group.store.log.tail < UInt64.size) ∧
      (∀ group ∈ retried.manager.groups,
        group.store.log.flushed ≤ Disk.offsetLimit ∧ group.store.log.tail < UInt64.size) ∧
      List.Forall₂ (fun group longer => group.store.log.tail < longer.store.log.tail)
        once.manager.groups retried.manager.groups ∧
      once.manager.ask once.disk [oddTerms] none {} = .ok [⟨7, 1⟩])

theorem repeated_mutation_answers_retried_number : ∃ current : Chronicle Nat, current.Reached ∧
    List.Forall₂ (fun group longer => group.store.log.tail < longer.store.log.tail)
      (current.step (.update 0)).manager.groups
      (current.retry (.update 0) [some 1, none]).manager.groups ∧
    (current.step (.update 0)).manager.ask (current.step (.update 0)).disk [oddTerms] none {} =
      .ok [⟨7, 1⟩] ∧
    (current.retry (.update 0) [some 1, none]).manager.ask
        (current.retry (.update 0) [some 1, none]).disk [oddTerms] none {} = .ok [⟨7, 1⟩] := by
  have hfacts : numberRetried = true := by decide +kernel
  unfold numberRetried at hfacts
  cases htold : numberTold with
  | none =>
    rw [htold] at hfacts
    cases hfacts
  | some current =>
    have hreached := Chronicle.reached_of_deeds htold
    rw [htold] at hfacts
    obtain ⟨honce, hretried, hlonger, hfound⟩ := of_decide_eq_true hfacts
    have hmutates : (Manager.Op.update 0 : Manager.Op Nat).mutates = true := rfl
    have hsame := Chronicle.repeated_mutation_answers hreached hmutates [some 1, none]
      (fun group hg => ⟨(honce group hg).1, (honce group hg).2⟩)
      (fun group hg => ⟨(hretried group hg).1, (hretried group hg).2⟩) [oddTerms] none {}
    exact ⟨current, hreached, hlonger, hfound, hsame.trans hfound⟩

end PredicateIndex
