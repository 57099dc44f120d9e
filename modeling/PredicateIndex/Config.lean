import PredicateIndex.Path
import PredicateIndex.Session

/-!
# Configuration

Where a manager keeps its groups, and the limits of each group's store: how
many idle sessions its pool holds and how many log bytes stay in memory.
-/

set_option autoImplicit false

namespace PredicateIndex

structure Config where
  dir : Path := [".", "psfdb"]
  /-- Idle sessions kept for each group. -/
  sessionPoolSize : SessionPool.Capacity := .standard
  /-- Log bytes of a group that may stay in memory before it is evicted. -/
  logMemorySize : Nat := 64 * 1024 * 1024
  /-- Whether completing a checkpoint waits for the disk. -/
  syncOnCheckpoint : Bool := true
  deriving DecidableEq, Repr

def Config.groupDir (config : Config) (group : Nat) : Path := config.dir.child s!"group-{group}"

end PredicateIndex
