import PredicateIndex.Manager

/-!
# Checkpoints of all groups

A manager takes a checkpoint of every group under one token or of none. Tokens
are clock readings raised above every token issued or recovered before, so they
increase whatever the clock does. Recovery is complete when all groups come to
the same token.
-/

set_option autoImplicit false

namespace PredicateIndex.Manager

variable {D : Type}

/-- The reading of the clock, or the next token after the last if the clock is behind it. -/
def nextToken (manager : Manager D) (clock : UInt64) : Token :=
  if manager.lastToken.value + 1 < clock then ⟨clock⟩ else ⟨manager.lastToken.value + 1⟩

/-- Captures a checkpoint of each group; if one refuses, those before it forget theirs. -/
def startCheckpoint (kind : CheckpointKind) (token : Token) :
    List (Group D) → Except Fault Bool × List (Group D)
  | [] => (.ok true, [])
  | group :: rest =>
    match group.store.take kind token with
    | .error fault => (.error fault, group :: rest)
    | .ok (false, _) => (.ok false, group :: rest)
    | .ok (true, store) =>
      match startCheckpoint kind token rest with
      | (.ok true, rest) => (.ok true, { group with store } :: rest)
      | (outcome, rest) => (outcome, { group with store := store.abort token } :: rest)

def takeCheckpoint (manager : Manager D) (kind : CheckpointKind) (clock : UInt64) :
    Except Fault (Option Token) × Manager D :=
  if manager.groups.any fun group => group.store.checkpointInProgress then (.ok none, manager)
  else
    let token := manager.nextToken clock
    let (outcome, groups) := startCheckpoint kind token manager.groups
    (outcome.map fun started => if started then some token else none,
      { manager with groups, lastToken := token })

def completeCheckpoint (manager : Manager D) (disk : Disk) :
    Except Fault (Option Token) × Manager D × Disk :=
  let complete (group : Group D) (state : Option Token × Disk) :=
    match group.onStore Store.complete state.2 with
    | (.error fault, group, disk) => (.error fault, group, state.1, disk)
    | (.ok token, group, disk) => (.ok (), group, token.or state.1, disk)
  let (result, manager, token, disk) := manager.onGroups complete (none, disk)
  (result.map fun _ => token, manager, disk)

def recover (manager : Manager D) (index log : Option Token) (disk : Disk) :
    Except Fault (Option Token) × Manager D × Disk :=
  let recover (group : Group D) (state : Option Token × Disk) :
      Except Fault Unit × Group D × Option Token × Disk :=
    match group.onStore (fun store disk => store.recover index log disk) state.2 with
    | (.error fault, group, disk) => (.error fault, group, state.1, disk)
    | (.ok token, group, disk) =>
      match state.1 with
      | some expected =>
        if expected = token then (.ok (), group, some token, disk)
        else (.error (.groupsDisagree group.id token expected), group, some expected, disk)
      | none => (.ok (), group, some token, disk)
  match manager.onGroups recover (none, disk) with
  | (.error fault, manager, _, disk) => (.error fault, manager, disk)
  | (.ok (), manager, none, disk) => (.ok none, manager, disk)
  | (.ok (), manager, some token, disk) =>
    (.ok (some token),
      { manager with
        lastToken := if manager.lastToken.value < token.value then token else manager.lastToken },
      disk)

end PredicateIndex.Manager
