-- The laws of the listing of a tree. It has every reachable node once, with
-- the immediate dominator of the node, and a dominator stands before the nodes
-- below it. The nodes that no root reaches are counted in a warning.
import HeapRetention.Proofs.Ancestors

namespace HeapRetention

/-- All nodes but those that the traversal counts are out of reach. -/
theorem HeapGraph.ncard_unreachable (g : HeapGraph) :
    {v | v < g.size ∧ ¬ g.Reachable v}.ncard = g.size - g.traversal.reachable := by
  have hnodes : {v | v < g.size} = ↑(Finset.range g.size) := by
    ext v
    simp
  have hsub : {v | g.Reachable v} ⊆ {v | v < g.size} := fun _ => reachable_lt
  have hfinite : {v | g.Reachable v}.Finite := by
    apply Set.Finite.subset _ hsub
    rw [hnodes]
    exact Finset.finite_toSet _
  have hsplit : {v | v < g.size ∧ ¬ g.Reachable v} =
      {v | v < g.size} \ {v | g.Reachable v} := rfl
  rw [hsplit, Set.ncard_sdiff hsub hfinite, ncard_reachable, hnodes, Set.ncard_coe_finset,
    Finset.card_range]

namespace DominatorTree

/-- The listing has the reachable nodes, each once and with its dominator, and a node that is
itself a dominator comes strictly before the nodes right below it. -/
structure ListsReachable (t : DominatorTree) (g : HeapGraph) : Prop where
  nodup : (t.toList.map Prod.fst).Nodup
  mem_iff : ∀ v, v ∈ t.toList.map Prod.fst ↔ g.Reachable v
  paired : ∀ v dominator, (v, dominator) ∈ t.toList → t.get? v = some dominator
  parent_first : ∀ k v d : Nat, t.toList[k]? = some (v, .node d) →
    ∃ j < k, ∃ dominator, t.toList[j]? = some (d, dominator)

section Listing

variable {t : DominatorTree} {g : HeapGraph} (h : t.IsOf g)

include h

/-! ## The places of the listing -/

/-- The tree lists the reachable nodes with their dominators. -/
theorem mem_toList {i : Nat} {dominator : Dominator Nat} :
    (i, dominator) ∈ t.toList ↔ g.Reachable i ∧ t.get? i = some dominator := by
  have hget : g.Reachable i → t.get? i = (t.parents.parent? i).map t.atSlot := by
    intro hi
    rw [get?, sentinelSlot_eq h, if_pos (HeapGraph.reachable_lt hi)]
  unfold toList
  rw [List.mem_filterMap]
  refine ⟨?_, ?_⟩
  · rintro ⟨j, hj, hentry⟩
    obtain ⟨slot, hslot, heq⟩ := Option.map_eq_some_iff.mp hentry
    obtain ⟨rfl, rfl⟩ := Prod.mk.inj heq
    have hreach := (h.mem_order j).mp hj
    exact ⟨hreach, by rw [hget hreach, hslot]; rfl⟩
  · rintro ⟨hi, hdominator⟩
    rw [hget hi, Option.map_eq_some_iff] at hdominator
    obtain ⟨slot, hslot, rfl⟩ := hdominator
    exact ⟨i, (h.mem_order i).mpr hi, by rw [hslot]; rfl⟩

/-- No node of the order is without a dominator, so the listing keeps all of them in place. -/
theorem keys_toList : t.toList.map Prod.fst = t.order := by
  unfold toList
  rw [List.map_filterMap]
  have hkeep : ∀ i ∈ t.order, Option.map Prod.fst
      ((t.parents.parent? i).map fun slot => (i, t.atSlot slot)) = some i := by
    intro i hi
    obtain ⟨p, hp⟩ := exists_parent h ((h.mem_order i).mp hi)
    simp [hp]
  rw [List.filterMap_congr hkeep, List.filterMap_some]

theorem getElem?_order_of_toList {k v : Nat} {dominator : Dominator Nat}
    (hk : t.toList[k]? = some (v, dominator)) : t.order[k]? = some v := by
  rw [← keys_toList h, List.getElem?_map, hk]
  rfl

theorem exists_toList_of_order {j v : Nat} (hj : t.order[j]? = some v) :
    ∃ dominator, t.toList[j]? = some (v, dominator) := by
  rw [← keys_toList h, List.getElem?_map, Option.map_eq_some_iff] at hj
  obtain ⟨⟨_, dominator⟩, hentry, rfl⟩ := hj
  exact ⟨dominator, hentry⟩

/-- A node that has another one as its dominator finds it earlier in the listing. -/
theorem exists_earlier {k v d : Nat} (hk : t.toList[k]? = some (v, .node d)) :
    ∃ j < k, ∃ dominator, t.toList[j]? = some (d, dominator) := by
  obtain ⟨hv, hget⟩ := (mem_toList h).mp (List.mem_of_getElem? hk)
  obtain ⟨hparent, hd⟩ := (get?_eq_node_iff h hv).mp hget
  have hdmem : d ∈ t.order := (h.mem_order d).mpr
    (HeapGraph.reachable_of_onEveryPath hv (onEveryPath_parent h hv hparent hd))
  obtain ⟨hlt, horder⟩ := List.getElem?_eq_some_iff.mp (getElem?_order_of_toList h hk)
  have hplace : t.order.idxOf v = k := by
    rw [← horder, h.nodup_order.idxOf_getElem]
  refine ⟨t.order.idxOf d, ?_, ?_⟩
  · rw [← hplace]
    exact idxOf_parent_lt h hv hparent hd
  · apply exists_toList_of_order h
    rw [List.getElem?_eq_getElem (List.idxOf_lt_length_of_mem hdmem), List.getElem_idxOf]

theorem listsReachable : t.ListsReachable g := by
  refine ⟨?_, ?_, ?_, ?_⟩
  · rw [keys_toList h]
    exact h.nodup_order
  · intro v
    rw [keys_toList h]
    exact h.mem_order v
  · intro v dominator hmem
    exact ((mem_toList h).mp hmem).2
  · intro k v d hk
    exact exists_earlier h hk

theorem size_eq_ncard : t.size = {v | g.Reachable v}.ncard := by
  have hset : {v | g.Reachable v} = ↑t.order.toFinset := by
    ext v
    simp [h.mem_order]
  rw [hset, Set.ncard_coe_finset, List.toFinset_card_of_nodup h.nodup_order, size]

end Listing

/-! ## The warnings -/

/-- A graph with roots is warned about for the nodes that they do not reach. -/
theorem warningsFor_eq (g : HeapGraph) :
    ((∀ v < g.size, g.Reachable v) → warningsFor g g.traversal.reachable = []) ∧
    ((∃ v < g.size, ¬ g.Reachable v) → warningsFor g g.traversal.reachable =
      [.unreachableNodes {v | v < g.size ∧ ¬ g.Reachable v}.ncard]) := by
  have hcount := g.ncard_unreachable
  have hfinite : {v | v < g.size ∧ ¬ g.Reachable v}.Finite :=
    (Set.finite_lt_nat g.size).subset fun _ hv => hv.1
  unfold warningsFor
  rw [← hcount]
  refine ⟨?_, ?_⟩
  · intro hall
    have hnone : {v | v < g.size ∧ ¬ g.Reachable v} = ∅ := by
      ext v
      simpa using hall v
    rw [hnone, Set.ncard_empty] at hcount
    rw [if_neg (by omega)]
  · rintro ⟨v, hv, hout⟩
    have hpos : 0 < {v | v < g.size ∧ ¬ g.Reachable v}.ncard :=
      (Set.ncard_pos hfinite).mpr ⟨v, hv, hout⟩
    rw [if_pos (by omega)]

/-- The tree has the reachable nodes and no others, a dominator before the nodes below it, and
counts the nodes out of reach in its one warning. Without roots it warns about that instead. -/
theorem the_tree_lists_the_reachable_nodes (g : HeapGraph) :
    ∃ t, ofGraph g = .ok t ∧
      (∀ v, (t.get? v).isSome = true ↔ g.Reachable v) ∧
      (∀ v, t.isReachable v = true ↔ g.Reachable v) ∧
      t.ListsReachable g ∧
      t.size = {v | g.Reachable v}.ncard ∧
      (g.roots = [] → t.warnings = [.emptyRootSet]) ∧
      (g.roots ≠ [] → (∀ v < g.size, g.Reachable v) → t.warnings = []) ∧
      (g.roots ≠ [] → (∃ v < g.size, ¬ g.Reachable v) →
        t.warnings = [.unreachableNodes {v | v < g.size ∧ ¬ g.Reachable v}.ncard]) := by
  by_cases hroots : g.roots = []
  · have h := isOf_rootless hroots
    refine ⟨rootless g, ofGraph_rootless hroots, fun _ => isReachable_iff h,
      fun _ => isReachable_iff h, listsReachable h, size_eq_ncard h, fun _ => rfl, ?_, ?_⟩
    · intro hsome
      exact absurd hroots hsome
    · intro hsome
      exact absurd hroots hsome
  · obtain ⟨parents, passes, hsearch, hexact, _⟩ := ofGraph_rooted hroots
    have h := isOf_of_exact passes (warningsFor g g.traversal.reachable) hexact
    obtain ⟨hall, hout⟩ := warningsFor_eq g
    refine ⟨_, hsearch, fun _ => isReachable_iff h, fun _ => isReachable_iff h, listsReachable h,
      size_eq_ncard h, ?_, fun _ => hall, fun _ => hout⟩
    intro hnone
    exact absurd hnone hroots

end DominatorTree

end HeapRetention
