-- The laws of the traversal as a depth-first postorder. Its loop takes one
-- turn for each place that is reached and one for each edge that leaves such
-- a place, and then no frame is left. The numbers count the places of the
-- order from its end, and an edge that does not lead forward in the order has
-- a path back.
import HeapRetention.Proofs.Dominance
import HeapRetention.Proofs.Retreats

namespace HeapRetention

namespace DepthFirst

/-! ## Turns -/

/-- What the search holds between two turns of its loop. -/
structure Stage where
  visited : Array Bool
  left : List Nat
  stack : List Frame

/-- One turn of the loop. The newest frame looks at its next target or, after the last one, is
left. Without a frame there is no turn, and neither is there one for a target out of range. -/
def turn (successors : Nat → List Nat) : Stage → Option Stage
  | ⟨_, _, []⟩ => none
  | ⟨visited, left, ⟨slot, []⟩ :: stack⟩ => some ⟨visited, slot :: left, stack⟩
  | ⟨visited, left, ⟨slot, target :: pending⟩ :: stack⟩ =>
    visited[target]?.map fun entered =>
      if entered then ⟨visited, left, ⟨slot, pending⟩ :: stack⟩
      else ⟨visited.set! target true, left,
        ⟨target, successors target⟩ :: ⟨slot, pending⟩ :: stack⟩

/-- What the search holds after so many turns. -/
def turns (successors : Nat → List Nat) : Nat → Stage → Option Stage
  | 0, stage => some stage
  | count + 1, stage => (turn successors stage).bind (turns successors count)

/-- What the search holds before its first turn: only the start was entered. -/
def firstStage (successors : Nat → List Nat) (slots start : Nat) : Stage :=
  ⟨(Array.replicate slots false).set! start true, [], [⟨start, successors start⟩]⟩

section Turns

variable {successors : Nat → List Nat} {start : Nat}

/-- The turns end with what the search gives. A turn looks at one target of a place that was
entered or leaves that place, so the turns are counted by the places and the edges that leave
them. -/
theorem turns_search {visited : Array Bool} {left : List Nat} {stack : List Frame}
    (hrange : ∀ u, ∀ v ∈ successors u, v < visited.size)
    (h : SearchInvariant successors start visited left stack) :
    ∃ count all, turns successors count ⟨visited, left, stack⟩ =
        some ⟨all, search successors visited left stack, []⟩ ∧
      count + (left.length + (left.flatMap successors).length +
          (stack.flatMap fun frame => successors frame.slot).length) =
        (search successors visited left stack).length +
          ((search successors visited left stack).flatMap successors).length +
          (stack.flatMap Frame.pending).length := by
  fun_induction search successors visited left stack with
  | case1 visited left => exact ⟨0, visited, rfl, by simp⟩
  | case2 visited left slot stack ih =>
    obtain ⟨count, all, hturns, hcount⟩ := ih hrange (invariant_leave h)
    refine ⟨count + 1, all, hturns, ?_⟩
    simp only [List.flatMap_cons, List.length_append, List.length_cons,
      List.length_nil] at hcount ⊢
    omega
  | case3 visited left slot target pending stack hnew ih =>
    obtain ⟨count, all, hturns, hcount⟩ :=
      ih (by simpa using hrange) (invariant_enter h hnew)
    refine ⟨count + 1, all, ?_, ?_⟩
    · simp only [turns, turn, hnew, Option.map_some, Bool.false_eq_true, if_false,
        Option.bind_some]
      exact hturns
    · simp only [List.flatMap_cons, List.length_append, List.length_cons] at hcount ⊢
      omega
  | case4 visited left slot target pending stack hold ih =>
    have hlt : target < visited.size :=
      hrange slot target (h.pending_sub _ List.mem_cons_self _ List.mem_cons_self)
    have hseen : visited[target]? = some true := by simpa [hlt] using hold
    obtain ⟨count, all, hturns, hcount⟩ := ih hrange (invariant_skip h hseen)
    refine ⟨count + 1, all, ?_, ?_⟩
    · simp only [turns, turn, hseen, Option.map_some, if_true, Option.bind_some]
      exact hturns
    · simp only [List.flatMap_cons, List.length_append, List.length_cons] at hcount ⊢
      omega

theorem turns_order {slots : Nat} (hstart : start < slots)
    (hrange : ∀ u, ∀ v ∈ successors u, v < slots) :
    ∃ all, turns successors ((order successors slots start).length +
        ((order successors slots start).flatMap successors).length)
        (firstStage successors slots start) =
      some ⟨all, order successors slots start, []⟩ := by
  obtain ⟨count, all, hturns, hcount⟩ :=
    turns_search (by simpa using hrange) (invariant_start hstart)
  refine ⟨all, ?_⟩
  simp only [List.length_nil, List.flatMap_nil, List.flatMap_cons, List.append_nil,
    Nat.zero_add] at hcount
  have hexact : count = (order successors slots start).length +
      ((order successors slots start).flatMap successors).length :=
    Nat.add_right_cancel hcount
  rw [← hexact]
  exact hturns

end Turns

/-! ## Numbers -/

theorem numbering_getElem? {slots : Nat} {order : List Nat} (hslots : ∀ v ∈ order, v < slots)
    (hnodup : order.Nodup) {k v : Nat} (h : order[k]? = some v) :
    (numbering slots order)[v]? = some (some (order.length - 1 - k)) := by
  induction order generalizing k with
  | nil => simp at h
  | cons first rest ih =>
    obtain ⟨hnew, hrest⟩ := List.nodup_cons.mp hnodup
    rw [numbering_cons (hslots first List.mem_cons_self), List.length_cons]
    cases k with
    | zero =>
      rw [List.getElem?_cons_zero] at h
      rw [if_pos (Option.some.inj h)]
      rfl
    | succ k =>
      rw [List.getElem?_cons_succ] at h
      have hne : first ≠ v := by
        rintro rfl
        exact hnew (List.mem_of_getElem? h)
      rw [if_neg hne, ih (fun w hw => hslots w (List.mem_cons_of_mem _ hw)) hrest h]
      congr 2
      omega

theorem numbering_of_not_mem {slots : Nat} {order : List Nat} (hslots : ∀ v ∈ order, v < slots)
    {v : Nat} (hv : v < slots) (hnot : v ∉ order) : (numbering slots order)[v]? = some none := by
  induction order with
  | nil => simp [numbering, hv]
  | cons first rest ih =>
    obtain ⟨hne, hrest⟩ := not_or.mp (mt List.mem_cons.mpr hnot)
    rw [numbering_cons (hslots first List.mem_cons_self), if_neg (Ne.symm hne)]
    exact ih (fun w hw => hslots w (List.mem_cons_of_mem _ hw)) hrest

end DepthFirst

/-! ## The order and the numbers of a traversal -/

namespace Traversal

/-- The traversal is a postorder of a depth-first search from the start, turned round. -/
structure IsPostorder (t : Traversal) (successors : Nat → List Nat) (slots start : Nat) :
    Prop where
  /-- The loop ends after one turn for each place of the order and one for each of its edges. -/
  ends : ∃ all, DepthFirst.turns successors (t.order.length + (t.edges successors).length)
    (DepthFirst.firstStage successors slots start) = some ⟨all, t.order, []⟩
  head : t.order.head? = some start
  nodup : t.order.Nodup
  mem_order : ∀ v, v ∈ t.order ↔ Reaches successors start v
  number : ∀ k v : Nat, t.order[k]? = some v →
    t.numbers[v]? = some (some (t.order.length - 1 - k))
  no_number : ∀ v : Nat, v < slots →
    (t.numbers[v]? = some none ↔ ¬ Reaches successors start v)
  /-- Every place but the start comes after a place that refers to it. -/
  earlier : ∀ k v : Nat, t.order[k]? = some v → v ≠ start →
    ∃ j u : Nat, j < k ∧ t.order[j]? = some u ∧ v ∈ successors u
  /-- An edge that does not lead forward in the order has a path back. -/
  back : ∀ i j u v : Nat, t.order[i]? = some u → t.order[j]? = some v → v ∈ successors u → j ≤ i →
    Reaches successors v u
  /-- Without cycles every edge leads forward. -/
  forward : (∀ u ∈ t.order, ∀ v ∈ successors u, ¬ Reaches successors v u) →
    ∀ i j u v : Nat, t.order[i]? = some u → t.order[j]? = some v → v ∈ successors u → i < j

section Laws

variable {successors : Nat → List Nat} {slots start : Nat}

theorem length_edges (t : Traversal) (successors : Nat → List Nat) :
    (t.edges successors).length = (t.order.flatMap successors).length := by
  simp [edges, List.length_flatMap]

/-- The number of a place counts the places that come after it in the order. -/
theorem numbers_run (hstart : start < slots) (hrange : ∀ u, ∀ v ∈ successors u, v < slots)
    {k v : Nat} (hk : (run successors slots start).order[k]? = some v) :
    (run successors slots start).numbers[v]? =
      some (some ((run successors slots start).order.length - 1 - k)) := by
  have hc := covers_run hstart hrange
  apply DepthFirst.numbering_getElem? _ (nodup_order hc) hk
  intro w hw
  exact reaches_lt hstart hrange ((hc.mem_order w).mp hw)

theorem number_run (hstart : start < slots) (hrange : ∀ u, ∀ v ∈ successors u, v < slots)
    {k v : Nat} (hk : (run successors slots start).order[k]? = some v) :
    (run successors slots start).number v =
      (run successors slots start).order.length - 1 - k := by
  rw [number, numbers_run hstart hrange hk]
  rfl

theorem reaches_of_getElem?_le (hstart : start < slots)
    (hrange : ∀ u, ∀ v ∈ successors u, v < slots) {i j u v : Nat}
    (hi : (run successors slots start).order[i]? = some u)
    (hj : (run successors slots start).order[j]? = some v) (hedge : v ∈ successors u)
    (hle : j ≤ i) : Reaches successors v u := by
  apply reaches_of_retreat hstart hrange (List.mem_of_getElem? hi) hedge
  rw [number_run hstart hrange hi, number_run hstart hrange hj]
  omega

theorem isPostorder_run (hstart : start < slots)
    (hrange : ∀ u, ∀ v ∈ successors u, v < slots) :
    (run successors slots start).IsPostorder successors slots start := by
  have hc := covers_run hstart hrange
  refine ⟨?_, ?_, nodup_order hc, hc.mem_order, ?_, ?_, ?_, ?_, ?_⟩
  · rw [length_edges]
    exact DepthFirst.turns_order hstart hrange
  · rw [hc.order_eq]
    rfl
  · intro k v hk
    exact numbers_run hstart hrange hk
  · intro v hv
    rw [← hc.mem_order]
    refine ⟨?_, ?_⟩
    · intro hnone hmem
      obtain ⟨k, hk⟩ := List.getElem?_of_mem hmem
      cases hnone.symm.trans (numbers_run hstart hrange hk)
    · apply DepthFirst.numbering_of_not_mem _ hv
      intro w hw
      exact reaches_lt hstart hrange ((hc.mem_order w).mp hw)
  · intro k v hk hne
    obtain ⟨u, hu, hedge, hlt⟩ := hc.earlier v (List.mem_of_getElem? hk) hne
    obtain ⟨j, hj⟩ := List.getElem?_of_mem hu
    refine ⟨j, u, ?_, hj, hedge⟩
    rw [number_run hstart hrange hk, number_run hstart hrange hj] at hlt
    omega
  · intro i j u v hi hj hedge hle
    exact reaches_of_getElem?_le hstart hrange hi hj hedge hle
  · intro hacyclic i j u v hi hj hedge
    by_contra hle
    exact hacyclic u (List.mem_of_getElem? hi) v hedge
      (reaches_of_getElem?_le hstart hrange hi hj hedge (Nat.not_lt.mp hle))

end Laws

end Traversal

/-! ## The traversal of a graph -/

namespace HeapGraph

/-- The traversal of a graph is a depth-first postorder of all that the sentinel reaches over the
roots, by one edge to each, and over references. All places and numbers are smaller than the largest
word, which is left to mark what has no number. -/
theorem the_traversal_is_a_depth_first_postorder (g : HeapGraph) :
    g.traversal.IsPostorder g.successors (g.size + 1) g.size ∧
    (∀ u, Reaches g.successors g.size u → u ≠ g.size →
      g.references? u = some (g.successors u)) ∧
    g.successors g.size = g.rootIndices ∧ g.rootIndices.Nodup ∧
    (∀ v, v ∈ g.rootIndices ↔ ∃ root ∈ g.roots, root.node = v) ∧
    g.size < UInt32.size - 1 ∧
    ∀ v number : Nat, g.traversal.numbers[v]? = some (some number) → number < UInt32.size - 1 := by
  have hsize : g.size ≤ UInt32.size - 2 := g.nodes_size_le
  have hwords : UInt32.size - 2 < UInt32.size - 1 := by decide
  refine ⟨Traversal.isPostorder_run (Nat.lt_succ_self _) g.successors_lt_slots,
    fun u => references?_of_reaches, g.successors_sentinel, g.nodup_rootIndices,
    fun v => mem_rootIndices, Nat.lt_of_le_of_lt hsize hwords, ?_⟩
  intro v number hnumber
  have hlt := g.traversal.numbers_lt v number hnumber
  have hreachable : g.traversal.order.length - 1 ≤ g.size := g.reachable_le_size
  omega

end HeapGraph

end HeapRetention
