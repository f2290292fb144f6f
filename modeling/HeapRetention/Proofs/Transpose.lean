-- The laws of the table of predecessors. It is the transpose of the edges that
-- leave the reached places: with each edge once for every time that it was
-- recorded, and in the order in which the traversal lists the sources.
import HeapRetention.Proofs.Dominance
import HeapRetention.Proofs.Recorded

namespace HeapRetention

namespace Traversal

section Laws

variable {t : Traversal} {successors : Nat → List Nat} {start : Nat}

/-! ## A row of the table -/

/-- A place is listed once for each of its edges, where its turn comes in the traversal. -/
theorem row_predecessors {slots : Nat} (hrange : ∀ u, ∀ v ∈ successors u, v < slots) {v : Nat}
    (hv : v < slots) :
    (t.predecessors successors slots).row v =
      t.order.flatMap fun u => List.replicate ((successors u).count v) u := by
  have hrow : ∀ u, (((successors u).map fun target => (u, target)).filter (·.2 = v)).map (·.1) =
      List.replicate ((successors u).count v) u := by
    intro u
    rw [List.eq_replicate_iff]
    refine ⟨?_, ?_⟩
    · rw [List.length_map, List.filter_map, List.length_map, List.count_eq_length_filter]
      rfl
    · simp
  rw [predecessors, CompressedRows.row_ofItems (target_lt hrange) hv]
  simp only [CompressedRows.entriesOf, edges, List.filter_flatMap, List.map_flatMap, hrow]

/-- The sources of a row stand in the order of the traversal. -/
theorem pairwise_row {slots : Nat} (hc : t.Covers successors start)
    (hrange : ∀ u, ∀ v ∈ successors u, v < slots) {v : Nat} (hv : v < slots) :
    ((t.predecessors successors slots).row v).Pairwise
      fun u w => t.order.idxOf u ≤ t.order.idxOf w := by
  rw [row_predecessors hrange hv]
  apply List.pairwise_flatMap.mpr
  refine ⟨?_, ?_⟩
  · intro u _
    simp
  · apply (pairwise_idxOf (nodup_order hc)).imp
    intro u w hle a ha b hb
    rw [(List.mem_replicate.mp ha).2, (List.mem_replicate.mp hb).2]
    exact hle

end Laws

end Traversal

/-! ## The table of a graph -/

namespace HeapGraph

/-- The row of a place lists each reached place as often as it has an edge there, no place that is
not reached, and the sources in the order of the traversal. While the table is built nothing is
looked at or written to out of bounds. The edges of the sentinel lead to the roots, once to each. -/
theorem predecessors_are_the_reached_edges_turned_round (g : HeapGraph) :
    (∀ v ≤ g.size,
      (∀ u, Reaches g.successors g.size u →
        (g.predecessors.row v).count u = (g.successors u).count v) ∧
      (∀ u ∈ g.predecessors.row v, Reaches g.successors g.size u) ∧
      (g.predecessors.row v).Pairwise
        fun u w => g.traversal.order.idxOf u ≤ g.traversal.order.idxOf w) ∧
    CompressedRows.StaysInBounds (g.size + 1) (g.traversal.edges g.successors) ∧
    (∀ u, Reaches g.successors g.size u → u ≠ g.size →
      g.references? u = some (g.successors u)) ∧
    g.successors g.size = g.rootIndices ∧ g.rootIndices.Nodup ∧
    ∀ v, v ∈ g.rootIndices ↔ ∃ root ∈ g.roots, root.node = v := by
  have hc := g.covers_traversal
  have hrange := g.successors_lt_slots
  refine ⟨?_, CompressedRows.staysInBounds (Traversal.target_lt hrange),
    fun u => references?_of_reaches, g.successors_sentinel, g.nodup_rootIndices,
    fun v => mem_rootIndices⟩
  intro v hv
  have hslot : v < g.size + 1 := Nat.lt_succ_of_le hv
  refine ⟨?_, ?_, Traversal.pairwise_row hc hrange hslot⟩
  · intro u hu
    rw [predecessors, Traversal.row_predecessors hrange hslot,
      count_flatMap_replicate (Traversal.nodup_order hc),
      if_pos ((hc.mem_order u).mpr hu)]
  · intro u hu
    exact (hc.mem_order u).mp ((g.listsPredecessors v u).mp hu).1

end HeapGraph

end HeapRetention
