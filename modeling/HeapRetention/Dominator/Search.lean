-- The search for dominators. The parents of all reachable places are improved
-- pass by pass, in the order of the depth-first traversal, until a pass
-- changes nothing. A place's parent is where the chains of its predecessors
-- meet; on a chain the numbers of the traversal only go up.
import HeapRetention.Dominator.Traversal
import HeapRetention.Dominator.Tree
import HeapRetention.Graph.CompressedRows
import HeapRetention.Settings

namespace HeapRetention

/-! ## The graph below the sentinel -/

namespace HeapGraph

/-- The targets of a place: those of a node are its references, those of the sentinel are the
roots, each once. -/
def successors (g : HeapGraph) (slot : Nat) : List Nat :=
  if slot = g.size then g.rootIndices else g.references slot

/-- The traversal of everything that the roots reach, with the sentinel as its start. -/
def traversal (g : HeapGraph) : Traversal := Traversal.run g.successors (g.size + 1) g.size

end HeapGraph

namespace Traversal

/-- The edges that leave the reached places, in the order of the traversal. -/
def edges (t : Traversal) (successors : Nat → List Nat) : List (Nat × Nat) :=
  t.order.flatMap fun slot => (successors slot).map fun target => (slot, target)

/-- The reached places with an edge to each place, once for every such edge and in the order of
the traversal. -/
def predecessors (t : Traversal) (successors : Nat → List Nat) (slots : Nat) : CompressedRows :=
  .ofItems slots (t.edges successors)

/-! ## Where two chains meet -/

/-- The parent of a place, if it has a larger number than the place itself. -/
def above? (t : Traversal) (parents : Parents) (slot : Nat) : Option Nat :=
  (parents.parent? slot).filter fun parent => t.number slot < t.number parent

theorem number_lt_of_above? {t : Traversal} {parents : Parents} {slot parent : Nat}
    (h : t.above? parents slot = some parent) : t.number slot < t.number parent := by
  simpa using (Option.filter_eq_some_iff.mp h).2

/-- The place where two chains meet. The place with the smaller number is the deeper one, so its
side climbs. -/
def meet (t : Traversal) (parents : Parents) (left right : Nat) : Except SearchError Nat :=
  if left = right then .ok left
  else if t.number left < t.number right then
    match _h : t.above? parents left with
    | some above => meet t parents above right
    | none => .error (.brokenChain left)
  else
    match _h : t.above? parents right with
    | some above => meet t parents left above
    | none => .error (.brokenChain right)
termination_by (t.order.length - t.number left) + (t.order.length - t.number right)
decreasing_by
  · have := number_lt_of_above? _h
    have := t.number_le above
    omega
  · have := number_lt_of_above? _h
    have := t.number_le above
    omega

/-- Two fingers climb by the parents alone until they stand at one place. While their numbers
differ, the one with the smaller number climbs. -/
inductive Climbs (t : Traversal) (parents : Parents) : (left right m : Nat) → Prop
  | met {m : Nat} : Climbs t parents m m m
  | left {left right above m : Nat} : t.number left < t.number right →
      parents.parent? left = some above → Climbs t parents above right m →
      Climbs t parents left right m
  | right {left right above m : Nat} : t.number right < t.number left →
      parents.parent? right = some above → Climbs t parents left above m →
      Climbs t parents left right m

/-- What makes the chains of parents rise: each parent has a parent itself, and a larger number than
what it is the parent of, unless this is the parent itself, where the chain ends. No two places on
chains have the same number. -/
structure Rises (t : Traversal) (parents : Parents) : Prop where
  parent_has_parent : ∀ v p, parents.parent? v = some p → (parents.parent? p).isSome
  number_lt : ∀ v p, parents.parent? v = some p → p ≠ v → t.number v < t.number p
  number_inj : ∀ u v, (parents.parent? u).isSome → (parents.parent? v).isSome →
    t.number u = t.number v → u = v

theorem parent?_of_above? {t : Traversal} {parents : Parents} {slot above : Nat}
    (h : t.above? parents slot = some above) : parents.parent? slot = some above :=
  (Option.filter_eq_some_iff.mp h).1

theorem climbs_of_meet {t : Traversal} {parents : Parents} (h : t.Rises parents)
    {left right m : Nat} (hleft : (parents.parent? left).isSome)
    (hright : (parents.parent? right).isSome) (hm : t.meet parents left right = .ok m) :
    t.Climbs parents left right m := by
  fun_induction meet t parents left right with
  | case1 left =>
    obtain rfl := Except.ok.inj hm
    exact .met
  | case2 left right hne hlt above habove ih =>
    have hp := parent?_of_above? habove
    exact .left hlt hp (ih (h.parent_has_parent _ _ hp) hright hm)
  | case3 left right hne hlt habove => cases hm
  | case4 left right hne hnlt above habove ih =>
    have hp := parent?_of_above? habove
    have hlt : t.number right < t.number left := by
      apply Nat.lt_of_le_of_ne (Nat.not_lt.mp hnlt)
      exact fun heq => hne (h.number_inj left right hleft hright heq.symm)
    exact .right hlt hp (ih hleft (h.parent_has_parent _ _ hp) hm)
  | case5 left right hne hnlt habove => cases hm

theorem meet_of_climbs {t : Traversal} {parents : Parents} (h : t.Rises parents)
    {left right m : Nat} (hclimbs : t.Climbs parents left right m) :
    t.meet parents left right = .ok m := by
  induction hclimbs with
  | met => simp [meet]
  | @left left right above m hlt hp _ ih =>
    by_cases hself : above = left
    · rwa [hself] at ih
    · have habove : t.above? parents left = some above := by
        simp [above?, hp, Option.filter, h.number_lt left above hp hself]
      have hne : left ≠ right := fun heq => Nat.lt_irrefl _ (heq ▸ hlt)
      rw [meet, if_neg hne, if_pos hlt]
      split
      · next hfound =>
        obtain rfl := Option.some.inj (habove.symm.trans hfound)
        exact ih
      · next hnone =>
        rw [habove] at hnone
        cases hnone
  | @right left right above m hlt hp _ ih =>
    by_cases hself : above = right
    · rwa [hself] at ih
    · have habove : t.above? parents right = some above := by
        simp [above?, hp, Option.filter, h.number_lt right above hp hself]
      have hne : left ≠ right := fun heq => Nat.lt_irrefl _ (heq ▸ hlt)
      rw [meet, if_neg hne, if_neg (Nat.lt_asymm hlt)]
      split
      · next hfound =>
        obtain rfl := Option.some.inj (habove.symm.trans hfound)
        exact ih
      · next hnone =>
        rw [habove] at hnone
        cases hnone

/-- The fingers need no look at the number of a parent: where chains rise, they meet by the parents
alone where `meet` says. -/
theorem meet_eq_ok_iff {t : Traversal} {parents : Parents} (h : t.Rises parents)
    {left right m : Nat} (hleft : (parents.parent? left).isSome)
    (hright : (parents.parent? right).isSome) :
    t.meet parents left right = .ok m ↔ t.Climbs parents left right m :=
  ⟨climbs_of_meet h hleft hright, meet_of_climbs h⟩

/-! ## Passes -/

/-- Where the chains of those predecessors meet that have a parent already. -/
def candidate (t : Traversal) (parents : Parents) (predecessors : List Nat) :
    Except SearchError (Option Nat) :=
  match predecessors.filter fun p => (parents.parent? p).isSome with
  | [] => .ok none
  | first :: more => (more.foldlM (fun best p => t.meet parents p best) first).map some

/-- Gives a place the parent that its predecessors agree on, and tells whether that is new. -/
def improve (t : Traversal) (predecessors : CompressedRows) (state : Parents × Bool)
    (slot : Nat) : Except SearchError (Parents × Bool) :=
  let (parents, changed) := state
  match t.candidate parents (predecessors.row slot) with
  | .error error => .error error
  | .ok none => .ok (parents, changed)
  | .ok (some parent) =>
    if parents.parent? slot = some parent then .ok (parents, changed)
    else .ok (parents.set! slot (some parent), true)

/-- One pass over all reached places but the start, and whether it changed a parent. -/
def pass (t : Traversal) (predecessors : CompressedRows) (parents : Parents) :
    Except SearchError (Parents × Bool) :=
  t.order.tail.foldlM (t.improve predecessors) (parents, false)

/-- Makes passes until one changes nothing, and counts them. Before each pass the token is looked
at, and then the passes that remain. -/
def settle (t : Traversal) (predecessors : CompressedRows) (cancelled : Bool) :
    (remaining passes : Nat) → Parents → Except SearchError (Parents × Nat)
  | remaining, passes, parents =>
    if cancelled then .error (.cancelled passes)
    else match remaining with
    | 0 => .error (.unsettled passes)
    | remaining + 1 =>
      match t.pass predecessors parents with
      | .error error => .error error
      | .ok (parents, true) => settle t predecessors cancelled remaining (passes + 1) parents
      | .ok (parents, false) => .ok (parents, passes + 1)

end Traversal

namespace HeapGraph

/-- The table of predecessors that the search for dominators reads. -/
def predecessors (g : HeapGraph) : CompressedRows :=
  g.traversal.predecessors g.successors (g.size + 1)

/-- One pass over the reachable nodes, and whether it changed a parent. -/
def pass (g : HeapGraph) (parents : Parents) : Except SearchError (Parents × Bool) :=
  g.traversal.pass g.predecessors parents

end HeapGraph

namespace DominatorTree

/-! ## The tree of a graph -/

/-- The tree of a graph that has no roots. -/
def rootless (g : HeapGraph) : DominatorTree :=
  ⟨Array.replicate (g.size + 1) none, [], 0, [.emptyRootSet]⟩

/-- The warnings about a graph with so many reachable nodes. -/
def warningsFor (g : HeapGraph) (reachable : Nat) : List Warning :=
  if reachable < g.size then [.unreachableNodes (g.size - reachable)] else []

/-- The dominator tree of a graph, under a pass limit and with a token that may be cancelled. A
graph without roots needs no pass, so nothing stops its search. -/
def search (g : HeapGraph) (maxPasses : Option UInt64) (cancelled : Bool) :
    Except SearchError DominatorTree :=
  if g.rootIndices.isEmpty then .ok (rootless g)
  else
    let t := g.traversal
    let start := (Array.replicate (g.size + 1) none).set! g.size (some g.size)
    match t.settle g.predecessors cancelled (passesAllowed maxPasses t.reachable) 0 start with
    | .error error => .error error
    | .ok (parents, passes) =>
      .ok ⟨parents, t.order.tail, passes, warningsFor g t.reachable⟩

/-- The dominator tree of a graph, with no limit but the one that follows from the graph. -/
def ofGraph (g : HeapGraph) : Except SearchError DominatorTree := search g none false

end DominatorTree

end HeapRetention
