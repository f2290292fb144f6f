-- The dominator tree of a graph. Every reachable node has an immediate
-- dominator: another node or the sentinel, which stands above all roots. In
-- the table of parents a node has the place of its dense index, and the
-- sentinel has the place after the last node.
import HeapRetention.Dominator.Error
import HeapRetention.Graph.Basic

namespace HeapRetention

/-- A dominator: the sentinel above all roots, or a node. -/
inductive Dominator (α : Type) where
  | sentinel
  | node (value : α)
deriving DecidableEq, Repr

namespace Dominator

/-- The dominator with its node under another name. -/
def map {α β : Type} (f : α → β) : Dominator α → Dominator β
  | sentinel => sentinel
  | node value => node (f value)

/-- Whether the dominator is the sentinel. -/
def isSentinel {α : Type} : Dominator α → Bool
  | sentinel => true
  | node _ => false

/-- The node, if it is one. -/
def node? {α : Type} : Dominator α → Option α
  | sentinel => none
  | node value => some value

/-- The dominator as reports show it. -/
def text : Dominator NodeId → String
  | sentinel => "<sentinel>"
  | node id => id.text

end Dominator

/-- A table of parents by place. A place without a parent is not reached, or not yet. -/
abbrev Parents := Array (Option Nat)

/-- The parent of a place. -/
def Parents.parent? (parents : Parents) (slot : Nat) : Option Nat := parents[slot]?.join

/-- The immediate dominators of the reachable nodes of a graph. -/
structure DominatorTree where
  /-- The places of the dominators, with one more entry for the sentinel. -/
  parents : Parents
  /-- The reachable nodes, each after the node that dominates it. -/
  order : List Nat
  /-- The passes that were made, with the one that changed nothing. -/
  passes : Nat
  warnings : List Warning
deriving DecidableEq, Repr

namespace DominatorTree

/-! ## One node -/

/-- The place of the sentinel. -/
def sentinelSlot (t : DominatorTree) : Nat := t.parents.size - 1

/-- The dominator at a place. -/
def atSlot (t : DominatorTree) (slot : Nat) : Dominator Nat :=
  if slot = t.sentinelSlot then .sentinel else .node slot

/-- The place of a dominator. -/
def slotOf (t : DominatorTree) : Dominator Nat → Nat
  | .sentinel => t.sentinelSlot
  | .node i => i

/-- The immediate dominator of a node, if it is reachable. -/
def get? (t : DominatorTree) (i : Nat) : Option (Dominator Nat) :=
  if i < t.sentinelSlot then (t.parents.parent? i).map t.atSlot else none

/-- Whether a node is reachable. -/
def isReachable (t : DominatorTree) (i : Nat) : Bool := (t.get? i).isSome

/-- The number of reachable nodes. -/
def size (t : DominatorTree) : Nat := t.order.length

/-! ## Chains -/

/-- The dominators above a node, added to those that were met before, at most `steps` of them. -/
def climb (t : DominatorTree) : (steps i : Nat) → (met : Array (Dominator Nat)) →
    Array (Dominator Nat)
  | 0, _, met => met
  | steps + 1, i, met =>
    match t.get? i with
    | none => met
    | some .sentinel => met.push .sentinel
    | some (.node above) => climb t steps above (met.push (.node above))

/-- The dominators of a node from the nearest one up to the sentinel. No chain is longer than the
table of parents. -/
def chain (t : DominatorTree) (i : Nat) : List (Dominator Nat) :=
  (t.climb t.parents.size i #[]).toList

/-- Whether the way up from a dominator over the parents, of at most `steps` nodes, has the node
`a` on it. -/
def meets (t : DominatorTree) (a : Nat) : (steps : Nat) → Dominator Nat → Bool
  | _, .sentinel => false
  | 0, .node _ => false
  | steps + 1, .node i =>
    if i = a then true
    else match t.parents.parent? i with
      | none => false
      | some above => t.meets a steps (t.atSlot above)

/-- Whether `a` lies on every way from a root to `b`. A reachable node dominates itself. -/
def dominates (t : DominatorTree) (a b : Nat) : Bool :=
  if t.isReachable b then t.meets a (t.parents.size + 1) (.node b) else false

/-- The nodes right below a dominator, in the order of the tree. -/
def children (t : DominatorTree) (parent : Dominator Nat) : List Nat :=
  t.order.filter fun i => t.parents.parent? i = some (t.slotOf parent)

/-! ## The two ways up -/

section Climb

variable {t : DominatorTree}

theorem atSlot_eq_node {slot i : Nat} (h : t.atSlot slot = .node i) :
    slot = i ∧ i ≠ t.sentinelSlot := by
  unfold atSlot at h
  split at h
  · cases h
  · next hne =>
    cases h
    exact ⟨rfl, hne⟩

/-- Only the sentinel has a place in the table and is not asked for its dominator. -/
theorem get?_eq_map {i : Nat} (hi : i ≠ t.sentinelSlot) :
    t.get? i = (t.parents.parent? i).map t.atSlot := by
  unfold get?
  split
  · rfl
  · next hlt =>
    unfold sentinelSlot at hi hlt
    rw [Parents.parent?, Array.getElem?_eq_none (by omega)]
    rfl

theorem toList_climb (steps i : Nat) (met : Array (Dominator Nat)) :
    (t.climb steps i met).toList = met.toList ++ (t.climb steps i #[]).toList := by
  induction steps generalizing i met with
  | zero => simp [climb]
  | succ steps ih =>
    rw [climb, climb]
    split
    · simp
    · simp
    · next above _ =>
      rw [ih, ih above (#[].push (.node above))]
      simp

theorem meets_zero (a : Nat) (dominator : Dominator Nat) : t.meets a 0 dominator = false := by
  cases dominator <;> rfl

/-- The way up over the parents has the nodes on it that the dominators above are listed with. -/
theorem meets_eq {a i : Nat} (hi : i ≠ t.sentinelSlot) (steps : Nat) :
    t.meets a (steps + 1) (.node i) =
      (decide (i = a) || (t.climb steps i #[]).toList.contains (.node a)) := by
  induction steps generalizing i with
  | zero =>
    rw [meets, climb]
    cases t.parents.parent? i <;> simp [meets_zero]
  | succ steps ih =>
    rw [meets, climb, get?_eq_map hi]
    cases t.parents.parent? i with
    | none => simp
    | some slot =>
      simp only [Option.map_some]
      cases hslot : t.atSlot slot with
      | sentinel => simp [meets]
      | node above =>
        have hmore := ih (atSlot_eq_node hslot).2
        rw [toList_climb]
        simp [hmore, eq_comm]

/-- A node dominates itself and all nodes whose chains have it. -/
theorem dominates_eq (t : DominatorTree) (a b : Nat) :
    t.dominates a b = (t.isReachable b && (decide (b = a) || (t.chain b).contains (.node a))) := by
  unfold dominates
  split
  · next hb =>
    have hne : b ≠ t.sentinelSlot := by
      rintro rfl
      simp [isReachable, get?] at hb
    rw [meets_eq hne, hb, Bool.true_and, chain]
  · next hb => simp [hb]

end Climb

/-! ## The whole tree -/

/-- The reachable nodes with their dominators, each after the node that dominates it. -/
def toList (t : DominatorTree) : List (Nat × Dominator Nat) :=
  t.order.filterMap fun i => (t.parents.parent? i).map fun slot => (i, t.atSlot slot)

end DominatorTree

/-! ## By id -/

/-- A dominator under its id. -/
def HeapGraph.dominatorId? (g : HeapGraph) : Dominator Nat → Option (Dominator NodeId)
  | .sentinel => some .sentinel
  | .node i => (g.node? i).map fun node => .node node.id

namespace DominatorTree

/-- The immediate dominator of the node with an id. -/
def getById? (t : DominatorTree) (g : HeapGraph) (id : NodeId) : Option (Dominator NodeId) :=
  ((g.indexOf? id).bind t.get?).bind g.dominatorId?

/-- The tree by ids, in ascending order of ids. The sentinel is only ever a value. -/
def byId (t : DominatorTree) (g : HeapGraph) : List (NodeId × Dominator NodeId) :=
  let entries := t.toList.filterMap fun (i, dominator) => do
    let node ← g.node? i
    let dominator ← g.dominatorId? dominator
    pure (node.id, dominator)
  entries.mergeSort fun a b => decide (a.1 ≤ b.1)

end DominatorTree

end HeapRetention
