-- Settings of an analysis. Each setting has a default. The width counts only
-- where a snapshot does not tell its own, and a limit on passes never changes
-- an answer but may prevent it.
import HeapRetention.Layout

namespace HeapRetention

/-- Settings of an analysis. -/
structure Settings where
  /-- The width of identifiers in snapshots that do not tell it. -/
  width : IdWidth := .four
  /-- The most passes that a search may make; without it the limit follows from the graph. -/
  maxPasses : Option UInt64 := none
  /-- Whether the sizes of the heaps are summed by workers, side by side. -/
  parallel : Bool := false
deriving DecidableEq, Inhabited, Repr

/-- The passes that a search may make: those that were set, or two more than there are reachable
nodes, at most the largest word. -/
def passesAllowed (maxPasses : Option UInt64) (reachable : Nat) : Nat :=
  match maxPasses with
  | some passes => passes.toNat
  | none => min (reachable + 2) (UInt64.size - 1)

end HeapRetention
