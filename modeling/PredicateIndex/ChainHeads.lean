import PredicateIndex.Bytes
import PredicateIndex.RecordId

/-!
# Chain heads

The index of a store maps the name of every chain to the address of the newest
record on it. Entries stand in ascending byte order of their names, each name
once, so the list of entries is the snapshot that a checkpoint holds.
-/

set_option autoImplicit false

namespace PredicateIndex

abbrev ChainHeads := List (Bytes × UInt64)

namespace ChainHeads

def head (heads : ChainHeads) (chain : Bytes) : UInt64 := (heads.lookup chain).getD noAddress

def set (chain : Bytes) (address : UInt64) : ChainHeads → ChainHeads
  | [] => [(chain, address)]
  | entry :: rest =>
    if chain = entry.1 then (chain, address) :: rest
    else if chain < entry.1 then (chain, address) :: entry :: rest
    else entry :: set chain address rest

def setAll (heads : ChainHeads) (entries : List (Bytes × UInt64)) : ChainHeads :=
  entries.foldl (fun heads entry => set entry.1 entry.2 heads) heads

def restore (entries : List (Bytes × UInt64)) : ChainHeads := setAll [] entries

theorem head_cons (entry : Bytes × UInt64) (rest : ChainHeads) (chain : Bytes) :
    head (entry :: rest) chain = if chain = entry.1 then entry.2 else head rest chain := by
  by_cases h : chain = entry.1
  · rw [if_pos h, head, h, List.lookup_cons_self, Option.getD_some]
  · have hb : (chain == entry.1) = false := by simpa using h
    rw [if_neg h, head, List.lookup_cons, hb, head]

theorem head_set (heads : ChainHeads) (chain other : Bytes) (address : UInt64) :
    head (set chain address heads) other = if other = chain then address else head heads other := by
  induction heads with
  | nil => rw [set, head_cons]
  | cons entry rest ih =>
    rw [set]
    split
    · rename_i h
      rw [head_cons, head_cons, h]
      split <;> rfl
    · split
      · rw [head_cons]
      · rename_i h _
        rw [head_cons, head_cons, ih]
        split
        · rename_i ho
          rw [if_neg fun hc : other = chain => h (hc ▸ ho)]
        · rfl

end ChainHeads

end PredicateIndex
