-- Depth-first numbering. The places of a directed graph are numbered in the
-- order in which a depth-first search from one place leaves them. The list of
-- places in the opposite order, with the start in front, is the order in
-- which the search for dominators visits them.

namespace HeapRetention

/-- A place that the search has entered and the targets that it has yet to look at. -/
structure Frame where
  slot : Nat
  pending : List Nat
deriving Repr

namespace DepthFirst

/-! ## The search -/

theorem count_set!_lt {visited : Array Bool} {target : Nat} (h : visited[target]? = some false) :
    (visited.set! target true).count false < visited.count false := by
  obtain ⟨hlt, hfalse⟩ := Array.getElem?_eq_some_iff.mp h
  have hpos : 0 < visited.count false :=
    Array.count_pos_iff.mpr (hfalse ▸ Array.getElem_mem hlt)
  rw [Array.set!_eq_setIfInBounds, Array.setIfInBounds_def]
  simp only [hlt, ↓reduceDIte]
  rw [Array.count_set hlt]
  simp only [hfalse, beq_self_eq_true, ↓reduceIte, Bool.true_eq_false, beq_iff_eq]
  omega

/-- The steps that the frames still take where no more places are entered. -/
def stepsLeft : List Frame → Nat
  | [] => 0
  | frame :: stack => frame.pending.length + 1 + stepsLeft stack

/-- Goes on with the search: `visited` tells the places that were entered, `left` lists those that
were left, the latest first, and the frames are the way from the newest place back to the start.
A frame that has looked at all its targets is left. -/
def search (successors : Nat → List Nat) (visited : Array Bool) (left : List Nat) :
    List Frame → List Nat
  | [] => left
  | ⟨slot, []⟩ :: stack => search successors visited (slot :: left) stack
  | ⟨slot, target :: pending⟩ :: stack =>
    if _h : visited[target]? = some false then
      search successors (visited.set! target true) left
        (⟨target, successors target⟩ :: ⟨slot, pending⟩ :: stack)
    else search successors visited left (⟨slot, pending⟩ :: stack)
termination_by stack => (visited.count false, stepsLeft stack)
decreasing_by
  · apply Prod.Lex.right
    simp only [stepsLeft, List.length_nil]
    omega
  · exact Prod.Lex.left _ _ (count_set!_lt _h)
  · apply Prod.Lex.right
    simp only [stepsLeft, List.length_cons]
    omega

/-- The places reached from a start, in the opposite of the order in which the search leaves
them. -/
def order (successors : Nat → List Nat) (slots start : Nat) : List Nat :=
  search successors ((Array.replicate slots false).set! start true) []
    [⟨start, successors start⟩]

/-! ## The numbers -/

/-- Gives the next number to a place. -/
def assign (slot : Nat) (state : Array (Option Nat) × Nat) : Array (Option Nat) × Nat :=
  (state.1.set! slot (some state.2), state.2 + 1)

/-- The numbers of the places of an order: its last place has number zero. -/
def numbering (slots : Nat) (order : List Nat) : Array (Option Nat) :=
  (order.foldr assign (Array.replicate slots none, 0)).1

theorem foldr_assign_snd (order : List Nat) (table : Array (Option Nat)) :
    (order.foldr assign (table, 0)).2 = order.length := by
  induction order with
  | nil => rfl
  | cons slot rest ih => simp [assign, ih]

theorem numbering_lt {slots : Nat} {order : List Nat} {slot number : Nat}
    (h : (numbering slots order)[slot]? = some (some number)) : number < order.length := by
  unfold numbering at h
  induction order with
  | nil => simp [Array.getElem?_replicate] at h
  | cons first rest ih =>
    simp only [List.foldr_cons, assign, Array.set!_eq_setIfInBounds,
      Array.getElem?_setIfInBounds, foldr_assign_snd] at h
    rw [List.length_cons]
    split at h
    · split at h
      · have := Option.some.inj (Option.some.inj h)
        omega
      · simp at h
    · have := ih h
      omega

end DepthFirst

/-- The reached places in the order of the search and their numbers. -/
structure Traversal where
  /-- The reached places, the start first. -/
  order : List Nat
  /-- The number of each reached place. The start has the largest number. -/
  numbers : Array (Option Nat)
  numbers_lt : ∀ slot number : Nat, numbers[slot]? = some (some number) → number < order.length

namespace Traversal

/-- The traversal of the first `slots` places from a start. -/
def run (successors : Nat → List Nat) (slots start : Nat) : Traversal :=
  let order := DepthFirst.order successors slots start
  ⟨order, DepthFirst.numbering slots order, fun _ _ => DepthFirst.numbering_lt⟩

/-- The number of a place; zero where it was not reached. -/
def number (t : Traversal) (slot : Nat) : Nat := (t.numbers[slot]?.join).getD 0

/-- The number of reached places besides the start. -/
def reachable (t : Traversal) : Nat := t.order.length - 1

theorem number_le (t : Traversal) (slot : Nat) : t.number slot ≤ t.order.length := by
  unfold number
  cases h : t.numbers[slot]? with
  | none => simp
  | some entry =>
    cases entry with
    | none => simp
    | some number =>
      have := t.numbers_lt slot number h
      simp only [Option.join_some, Option.getD_some]
      omega

end Traversal

end HeapRetention
