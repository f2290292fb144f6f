-- Why a search for dominators gives no tree, and what a tree warns about.
import HeapRetention.Numeral

namespace HeapRetention

/-- Why a search for dominators stopped. -/
inductive SearchError where
  /-- The pass limit was reached before a pass changed nothing. -/
  | unsettled (passes : Nat)
  /-- A chain of dominators ended before it met another chain. -/
  | brokenChain (slot : Nat)
  /-- The cancellation token was found cancelled before a pass. -/
  | cancelled (passes : Nat)
deriving DecidableEq, Repr

/-- The message for the reader. -/
def SearchError.message : SearchError → String
  | unsettled passes =>
    s!"Dominator computation did not converge after {Numeral.decimal passes} passes"
  | brokenChain slot =>
    s!"Dominator chain broken at node index {Numeral.decimal slot} during intersection"
  | cancelled passes => s!"Dominator computation cancelled after {Numeral.decimal passes} passes"

/-- What a reader of a tree should know. -/
inductive Warning where
  | emptyRootSet
  | unreachableNodes (count : Nat)
deriving DecidableEq, Repr

/-- The warning for the reader. -/
def Warning.message : Warning → String
  | emptyRootSet => "empty root set"
  | unreachableNodes count => s!"{Numeral.decimal count} node(s) unreachable from any root"

end HeapRetention
