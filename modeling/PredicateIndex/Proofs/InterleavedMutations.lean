import PredicateIndex.Proofs.MutationWrites

/-!
# Mutations that are interleaved

Two callers mutate records of their own, each with trackers of its own. However
their calls are interleaved, every group carries out the writes of each of them
in their order: a tracker is told nothing by the other caller, and what a group
writes depends on its predicates and the tracker only. The writes for one record
id are all of one caller, so in every interleaving the same one is the last, and
all interleavings answer all queries alike.
-/

set_option autoImplicit false

namespace PredicateIndex

variable {D : Type}

inductive Interleaving {α : Type} : List α → List α → List α → Prop
  | nil : Interleaving [] [] []
  | left {first second merged : List α} (element : α) (h : Interleaving first second merged) :
      Interleaving (element :: first) second (element :: merged)
  | right {first second merged : List α} (element : α) (h : Interleaving first second merged) :
      Interleaving first (element :: second) (element :: merged)

namespace Interleaving

variable {α : Type} {first second merged : List α}

theorem symm (h : Interleaving first second merged) : Interleaving second first merged := by
  induction h with
  | nil => exact .nil
  | left element _ ih => exact .right element ih
  | right element _ ih => exact .left element ih

theorem mem (h : Interleaving first second merged) {element : α} (hm : element ∈ merged) :
    element ∈ first ∨ element ∈ second := by
  induction h with
  | nil => cases hm
  | left next _ ih =>
    rcases List.mem_cons.mp hm with rfl | hm
    · exact .inl List.mem_cons_self
    · exact (ih hm).imp_left (List.mem_cons_of_mem next)
  | right next _ ih =>
    rcases List.mem_cons.mp hm with rfl | hm
    · exact .inr List.mem_cons_self
    · exact (ih hm).imp_right (List.mem_cons_of_mem next)

theorem filter_flatMap {β : Type} (h : Interleaving first second merged) (gives : α → List β)
    (wanted : β → Bool) (hn : ∀ element ∈ second, (gives element).filter wanted = []) :
    (merged.flatMap gives).filter wanted = (first.flatMap gives).filter wanted := by
  induction h with
  | nil => rfl
  | left element _ ih =>
    rw [List.flatMap_cons, List.flatMap_cons, List.filter_append, List.filter_append, ih hn]
  | right element _ ih =>
    rw [List.flatMap_cons, List.filter_append, hn element List.mem_cons_self, List.nil_append,
      ih fun other ho => hn other (List.mem_cons_of_mem element ho)]

end Interleaving

def ChangeTracker.ids (tracker : ChangeTracker D) : List RecordId :=
  (tracker.before.map (·.2)).toList ++ (tracker.after.map (·.2)).toList

theorem ChangeTracker.Alike.ids {tracker other : ChangeTracker D} (h : tracker.Alike other) :
    other.ids = tracker.ids := by
  rw [ChangeTracker.ids, ChangeTracker.ids, h.before, h.after]

theorem UpdatePlan.id_of_ofChange {kind : UpdateKind} {before after : CompositeKey}
    {beforeId afterId : RecordId} {plan : UpdatePlan}
    (h : ofChange kind before after beforeId afterId = .ok plan) :
    ∀ write ∈ plan.writes, write.id = beforeId ∨ write.id = afterId := by
  have hpair : ∀ left joined : CompositeKey,
      ∀ write ∈ matching [⟨left, beforeId, true⟩, ⟨joined, afterId, false⟩],
        write.id = beforeId ∨ write.id = afterId := by
    intro left joined write hw
    rcases List.mem_pair.mp (List.mem_filter.mp hw).1 with rfl | rfl
    · exact .inl rfl
    · exact .inr rfl
  cases kind with
  | inPlace =>
    obtain rfl := Except.ok.inj h
    rw [inPlace]
    split
    · exact hpair _ _
    · exact fun _ hw => (List.not_mem_nil hw).elim
  | copy =>
    obtain rfl := Except.ok.inj h
    exact hpair _ _
  | _ => cases h

theorem Group.id_of_plan {group : Group D} {after : CompositeKey} {tracker : ChangeTracker D}
    {plan : UpdatePlan} (h : group.plan after tracker = .ok plan) :
    ∀ write ∈ plan.writes, write.id = tracker.beforeId ∨ write.id = tracker.afterId := by
  rw [Group.plan] at h
  split at h
  · cases h
  · obtain rfl := Except.ok.inj h
    intro write hw
    rw [List.mem_singleton.mp (List.mem_filter.mp hw).1]
    exact .inr rfl
  · exact UpdatePlan.id_of_ofChange h
  · exact UpdatePlan.id_of_ofChange h

namespace Request

def ids : Request D → List RecordId
  | .insert _ id => [id]
  | .update _ | .delete _ => []

theorem ids_part {request : Request D} {group : Group D} {tracker last : ChangeTracker D}
    {writes : List IndexWrite} (h : request.part group tracker = .ok (writes, last)) :
    ∀ write ∈ writes, write.id ∈ request.ids ++ tracker.ids := by
  intro write hw
  cases request with
  | insert data id =>
    cases h
    rw [List.mem_singleton.mp (List.mem_filter.mp hw).1]
    simp [ids]
  | update given =>
    rw [part] at h
    cases hb : tracker.before with
    | none =>
      rw [hb] at h
      cases h
    | some old =>
      cases ha : tracker.after with
      | none =>
        rw [hb, ha] at h
        cases h
      | some new =>
        rw [hb, ha] at h
        dsimp only at h
        split at h <;> cases h
        rename_i plan hp
        rcases Group.id_of_plan hp write hw with he | he
        · simp [he, ChangeTracker.beforeId, ChangeTracker.ids, hb]
        · simp [he, ChangeTracker.afterId, ChangeTracker.ids, ha]
  | delete given =>
    rw [part] at h
    cases hb : tracker.before with
    | none =>
      rw [hb] at h
      cases h
    | some old =>
      rw [hb] at h
      dsimp only at h
      split at h <;> cases h
      · rw [List.mem_singleton.mp hw]
        simp [ChangeTracker.beforeId, ChangeTracker.ids, hb]
      · cases hw
      · cases hw

theorem ids_spread (request : Request D) (groups : List (Group D)) (tracker : ChangeTracker D)
    (group : Nat) :
    ∀ write ∈ (request.spread groups tracker).1 group, write.id ∈ request.ids ++ tracker.ids := by
  induction groups generalizing tracker with
  | nil => exact fun _ hw => (List.not_mem_nil hw).elim
  | cons first rest ih =>
    rw [spread]
    rcases he : request.effect first tracker with _ | ⟨writes, last⟩
    · exact fun _ hw => (List.not_mem_nil hw).elim
    · have hpart := (part_of_effect he).1
      dsimp only
      split
      · exact ids_part hpart
      · exact (alike_part hpart).ids ▸ ih last

end Request

namespace Manager

namespace Op

def ids (op : Op D) (tracker : ChangeTracker D) : List RecordId :=
  match op with
  | .upsert _ id none | .setBefore _ _ id | .setAfter _ _ id => [id]
  | .upsert _ id (some _) => id :: tracker.ids
  | .update _ | .delete _ => tracker.ids
  | _ => []

theorem ids_effect (op : Op D) (manager : Manager D) (tracker : ChangeTracker D) (group : Nat) :
    ∀ write ∈ (op.effect manager tracker).1 group, write.id ∈ op.ids tracker := by
  have hinsert : ∀ data id, ∀ write ∈ ((Request.insert data id).spread manager.groups {}).1 group,
      write.id = id := fun data id write hw => by
    simpa [Request.ids, ChangeTracker.ids] using Request.ids_spread _ _ _ group write hw
  cases op with
  | upsert data id name =>
    cases name with
    | none => exact fun write hw => List.mem_singleton.mpr (hinsert data id write hw)
    | some name =>
      rw [effect]
      split
      · exact fun write hw => hinsert data id write hw ▸ List.mem_cons_self
      · exact fun write hw =>
          List.mem_cons_of_mem id (Request.ids_spread (.update tracker) _ tracker group write hw)
  | update name => exact Request.ids_spread (.update tracker) _ tracker group
  | delete name => exact Request.ids_spread (.delete tracker) _ (tracker.setKind .delete) group
  | _ => exact fun _ hw => (List.not_mem_nil hw).elim

def Parted (op other : Op D) : Prop := op.tracker? = other.tracker? → op.tracker? = none

instance (op other : Op D) : Decidable (op.Parted other) :=
  inferInstanceAs (Decidable (op.tracker? = other.tracker? → op.tracker? = none))

variable {op other : Op D} {trackers changed : Nat → ChangeTracker D}

theorem Parted.symm (h : op.Parted other) : other.Parted op := fun he => he.trans (h he.symm)

theorem Parted.given (h : op.Parted other) (tracker : ChangeTracker D) :
    other.given (op.leaves trackers tracker) = other.given trackers := by
  cases hn : other.tracker? with
  | none =>
    rw [Op.given, Op.given, hn]
    rfl
  | some name =>
    have hne : op.tracker? ≠ some name := fun ho => by
      have hnone := h (ho.trans hn.symm)
      rw [ho] at hnone
      cases hnone
    rw [Op.given, Op.given, hn, Option.map_some, Option.map_some, leaves, if_neg hne]

theorem given_leaves_congr (op : Op D) (h : other.given changed = other.given trackers)
    (tracker : ChangeTracker D) :
    other.given (op.leaves changed tracker) = other.given (op.leaves trackers tracker) := by
  cases hn : other.tracker? with
  | none =>
    rw [Op.given, Op.given, hn]
    rfl
  | some name =>
    rw [Op.given, Op.given, hn] at h ⊢
    simp only [Option.map_some, Option.getD_some, leaves] at h ⊢
    split
    · rfl
    · exact h

end Op

def calls (manager : Manager D) :
    List (Op D) → (Nat → ChangeTracker D) → List (Op D × ChangeTracker D)
  | [], _ => []
  | op :: rest, trackers =>
    (op, op.given trackers) ::
      manager.calls rest (op.leaves trackers (op.effect manager (op.given trackers)).2)

def writes (manager : Manager D) (ops : List (Op D)) (trackers : Nat → ChangeTracker D)
    (group : Nat) : List IndexWrite :=
  (manager.calls ops trackers).flatMap fun call => (call.1.effect manager call.2).1 group

def idsUsed (manager : Manager D) (ops : List (Op D)) (trackers : Nat → ChangeTracker D) :
    List RecordId :=
  (manager.calls ops trackers).flatMap fun call => call.1.ids call.2

variable {manager : Manager D} {trackers changed : Nat → ChangeTracker D}
  {first second merged again ops : List (Op D)}

theorem writes_congr {after : Manager D}
    (h : List.Forall₂ Group.SamePart manager.groups after.groups) (ops : List (Op D))
    (trackers : Nat → ChangeTracker D) :
    after.writes ops trackers = manager.writes ops trackers := by
  have hcalls : after.calls ops trackers = manager.calls ops trackers := by
    induction ops generalizing trackers with
    | nil => rfl
    | cons op rest ih => rw [calls, calls, op.effect_congr h, ih]
  funext group
  simp only [writes, hcalls, Op.effect_congr _ h]

theorem calls_congr (h : ∀ op ∈ ops, op.given changed = op.given trackers) :
    manager.calls ops changed = manager.calls ops trackers := by
  induction ops generalizing trackers changed with
  | nil => rfl
  | cons op rest ih =>
    have hrest := ih fun later hm =>
      Op.given_leaves_congr op (h later (List.mem_cons_of_mem op hm))
        (op.effect manager (op.given trackers)).2
    rw [calls, calls, h op List.mem_cons_self, hrest]

/-- Each caller finds the trackers that it would find without the other one. -/
theorem calls_interleaving (h : Interleaving first second merged)
    (hp : ∀ op ∈ first, ∀ other ∈ second, op.Parted other) :
    Interleaving (manager.calls first trackers) (manager.calls second trackers)
      (manager.calls merged trackers) := by
  induction h generalizing trackers with
  | nil => exact .nil
  | @left first second merged op _ ih =>
    have hother : manager.calls second
        (op.leaves trackers (op.effect manager (op.given trackers)).2) =
          manager.calls second trackers :=
      calls_congr fun other ho => (hp op List.mem_cons_self other ho).given _
    have hrest := @ih (op.leaves trackers (op.effect manager (op.given trackers)).2)
      fun later hm => hp later (List.mem_cons_of_mem op hm)
    rw [hother] at hrest
    exact .left _ hrest
  | @right first second merged op _ ih =>
    have hother : manager.calls first
        (op.leaves trackers (op.effect manager (op.given trackers)).2) =
          manager.calls first trackers :=
      calls_congr fun other ho => (hp other ho op List.mem_cons_self).symm.given _
    have hrest := @ih (op.leaves trackers (op.effect manager (op.given trackers)).2)
      fun later hm other ho => hp later hm other (List.mem_cons_of_mem op ho)
    rw [hother] at hrest
    exact .right _ hrest

theorem writes_filter (h : Interleaving first second merged)
    (hp : ∀ op ∈ first, ∀ other ∈ second, op.Parted other) {id : RecordId}
    (hid : id ∉ manager.idsUsed second trackers) (group : Nat) :
    (manager.writes merged trackers group).filter (fun write => write.id = id) =
      (manager.writes first trackers group).filter fun write => write.id = id := by
  refine (calls_interleaving h hp).filter_flatMap _ _ fun call hc => ?_
  refine List.filter_eq_nil_iff.mpr fun write hw he => hid (List.mem_flatMap.mpr ⟨call, hc, ?_⟩)
  exact of_decide_eq_true he ▸ call.1.ids_effect manager call.2 group write hw

structure Disjoint (manager : Manager D) (trackers : Nat → ChangeTracker D)
    (first second : List (Op D)) : Prop where
  ids : ∀ id ∈ manager.idsUsed first trackers, id ∉ manager.idsUsed second trackers
  trackers : ∀ op ∈ first, ∀ other ∈ second, op.Parted other

/-- In all interleavings of such calls the writes for one id are the same. -/
theorem Disjoint.filter (h : manager.Disjoint trackers first second)
    (hm : Interleaving first second merged) (ha : Interleaving first second again) (group : Nat)
    (id : RecordId) :
    (manager.writes again trackers group).filter (fun write => write.id = id) =
      (manager.writes merged trackers group).filter fun write => write.id = id := by
  by_cases hid : id ∈ manager.idsUsed first trackers
  · rw [writes_filter ha h.trackers (h.ids id hid), writes_filter hm h.trackers (h.ids id hid)]
  · have hparted : ∀ op ∈ second, ∀ other ∈ first, op.Parted other := fun op ho other hf =>
      (h.trackers other hf op ho).symm
    rw [writes_filter ha.symm hparted hid, writes_filter hm.symm hparted hid]

end Manager

theorem Chronicle.Ready.appends_run {chronicle : Chronicle D} {base : Path}
    (h : chronicle.Ready base) {ops : List (Manager.Op D)} (ho : ∀ op ∈ ops, op.begins = true) :
    Manager.Appends chronicle.manager.groups base chronicle.disk
      (chronicle.manager.writes ops chronicle.trackers) (chronicle.run ops).manager.groups
      (chronicle.run ops).disk := by
  induction ops generalizing chronicle with
  | nil => exact .refl _ base _
  | cons op rest ih =>
    have hcomes := h.comes (ho op List.mem_cons_self)
    have hrest := ih (h.ofComes hcomes) fun later hm => ho later (List.mem_cons_of_mem op hm)
    rw [Manager.writes_congr hcomes.appends.parts, hcomes.trackers] at hrest
    exact hcomes.appends.trans hrest

/-- Insertions, updates and deletions of two callers, with the calls that begin them, that use neither
the same ids nor the same trackers: in whatever two ways they are interleaved, every query has the
same answer, as long as the logs have room. -/
theorem interleaved_mutation_answers {current : Chronicle D} (hr : current.Reached)
    {first second merged again : List (Manager.Op D)} (hf : ∀ op ∈ first, op.begins = true)
    (hs : ∀ op ∈ second, op.begins = true)
    (hd : current.manager.Disjoint current.trackers first second)
    (hm : Interleaving first second merged) (ha : Interleaving first second again)
    (hmf : ∀ group ∈ (current.run merged).manager.groups, group.store.log.Fits)
    (haf : ∀ group ∈ (current.run again).manager.groups, group.store.log.Fits)
    (terms : List QueryTerms) (combinator : Option (Indicators → Bool)) (settings : QuerySettings) :
    (current.run again).manager.ask (current.run again).disk terms combinator settings =
      (current.run merged).manager.ask (current.run merged).disk terms combinator settings := by
  obtain ⟨base, hready⟩ := hr.ready
  have hmerged := hready.appends_run fun op ho => (hm.mem ho).elim (hf op) (hs op)
  have hagain := hready.appends_run fun op ho => (ha.mem ho).elim (hf op) (hs op)
  have hfilter := hd.filter hm ha
  -- a write is carried out if it is among those for its id
  have hmember : ∀ group write, write ∈ current.manager.writes again current.trackers group ↔
      write ∈ current.manager.writes merged current.trackers group := fun group write => by
    have hwrite := congrArg (write ∈ ·) (hfilter group write.id)
    simpa [List.mem_filter] using hwrite
  refine (Manager.answersAlike_of_appends hready.legible.group hmerged hagain
    (fun group _ index => IndexWrite.markAll_congr (hfilter group.id) index)
    (fun group _ chain => ?_) hmf haf).ask terms combinator settings
  simp only [hmember]

def callsToMove : List (Manager.Op Nat) :=
  [.newTracker 0, .setBefore 0 6 ⟨7, 1⟩, .setAfter 0 3 ⟨7, 2⟩, .update 0]

def callsToReplace : List (Manager.Op Nat) :=
  [.upsert 8 ⟨3, 3⟩ none, .newTracker 1, .setBefore 1 2 ⟨2, 9⟩, .delete 1]

def callsInTurns : List (Manager.Op Nat) :=
  [.newTracker 0, .upsert 8 ⟨3, 3⟩ none, .setBefore 0 6 ⟨7, 1⟩, .newTracker 1, .setAfter 0 3 ⟨7, 2⟩,
    .setBefore 1 2 ⟨2, 9⟩, .update 0, .delete 1]

def parityTerms : QueryTerms := ⟨.bool, [(⟨"even", 0, 0, 0⟩, [true, false])]⟩

def callsInterleaved : Bool :=
  match numbersStored with
  | none => false
  | some current =>
    let turned := current.run callsInTurns
    let parted := current.run (callsToReplace ++ callsToMove)
    decide ((∀ id ∈ current.manager.idsUsed callsToMove current.trackers,
        id ∉ current.manager.idsUsed callsToReplace current.trackers) ∧
      (∀ group ∈ turned.manager.groups,
        group.store.log.flushed ≤ Disk.offsetLimit ∧ group.store.log.tail < UInt64.size) ∧
      (∀ group ∈ parted.manager.groups,
        group.store.log.flushed ≤ Disk.offsetLimit ∧ group.store.log.tail < UInt64.size) ∧
      parted.manager.groups.map (·.store.heads) ≠ turned.manager.groups.map (·.store.heads) ∧
      turned.manager.ask turned.disk [parityTerms] none {} = .ok [⟨3, 3⟩, ⟨7, 2⟩])

theorem interleaved_mutation_answers_moved_number : ∃ current : Chronicle Nat, current.Reached ∧
    current.manager.Disjoint current.trackers callsToMove callsToReplace ∧
    (current.run (callsToReplace ++ callsToMove)).manager.groups.map (·.store.heads) ≠
      (current.run callsInTurns).manager.groups.map (·.store.heads) ∧
    (current.run callsInTurns).manager.ask (current.run callsInTurns).disk [parityTerms] none {} =
      .ok [⟨3, 3⟩, ⟨7, 2⟩] ∧
    (current.run (callsToReplace ++ callsToMove)).manager.ask
        (current.run (callsToReplace ++ callsToMove)).disk [parityTerms] none {} =
      .ok [⟨3, 3⟩, ⟨7, 2⟩] := by
  have hfacts : callsInterleaved = true := by decide +kernel
  unfold callsInterleaved at hfacts
  cases hstored : numbersStored with
  | none =>
    rw [hstored] at hfacts
    cases hfacts
  | some current =>
    have hreached := Chronicle.reached_of_deeds hstored
    rw [hstored] at hfacts
    obtain ⟨hids, hturned, hparted, hheads, hfound⟩ := of_decide_eq_true hfacts
    have hdisjoint : current.manager.Disjoint current.trackers callsToMove callsToReplace :=
      ⟨hids, by decide⟩
    have hturns : Interleaving callsToMove callsToReplace callsInTurns :=
      .left _ (.right _ (.left _ (.right _ (.left _ (.right _ (.left _ (.right _ .nil)))))))
    have hone : Interleaving callsToMove callsToReplace (callsToReplace ++ callsToMove) :=
      .right _ (.right _ (.right _ (.right _ (.left _ (.left _ (.left _ (.left _ .nil)))))))
    have hsame := interleaved_mutation_answers hreached (by decide) (by decide) hdisjoint hturns hone
      (fun group hg => ⟨(hturned group hg).1, (hturned group hg).2⟩)
      (fun group hg => ⟨(hparted group hg).1, (hparted group hg).2⟩) [parityTerms] none {}
    exact ⟨current, hreached, hdisjoint, hheads, hfound, hsame.trans hfound⟩

end PredicateIndex
