-- The laws of balance. The nodes right below the sentinel and right below each
-- node are all reachable nodes, each once. What a node retains of a heap is
-- its own size and what the nodes right below it retain, cut at the largest
-- count, though the sweep that fills a column never looks downwards.
import HeapRetention.Proofs.Ancestors
import HeapRetention.Proofs.RetainedBytes

namespace HeapRetention

/-- All that can be an immediate dominator: the sentinel and the nodes. -/
def HeapGraph.dominators (g : HeapGraph) : List (Dominator Nat) :=
  .sentinel :: (List.range g.size).map .node

theorem HeapGraph.node_mem_dominators {g : HeapGraph} {v : Nat} :
    .node v ∈ g.dominators ↔ v < g.size := by
  simp [dominators]

theorem HeapGraph.nodup_dominators (g : HeapGraph) : g.dominators.Nodup := by
  refine List.nodup_cons.mpr ⟨by simp, ?_⟩
  apply List.nodup_range.map
  intro v w hnode
  exact Dominator.node.inj hnode

theorem HeapGraph.exists_node {g : HeapGraph} {v : Nat} (h : v < g.size) :
    ∃ node, g.node? v = some node := by
  unfold node?
  exact ⟨_, Array.getElem?_eq_getElem h⟩

/-! ## Right below a dominator -/

namespace DominatorTree

section Children

variable {t : DominatorTree} {g : HeapGraph} (h : t.IsOf g)

include h

theorem atSlot_eq_iff {parent : Dominator Nat} (hparent : parent ∈ g.dominators) {slot : Nat} :
    t.atSlot slot = parent ↔ slot = t.slotOf parent := by
  unfold atSlot
  cases parent with
  | sentinel => simp [slotOf]
  | node d =>
    have hd : d ≠ t.sentinelSlot := by
      rw [sentinelSlot_eq h]
      exact Nat.ne_of_lt (HeapGraph.node_mem_dominators.mp hparent)
    simp only [slotOf]
    grind

/-- The nodes right below a dominator are those that have it as their immediate one. -/
theorem mem_children {parent : Dominator Nat} (hparent : parent ∈ g.dominators) {w : Nat} :
    w ∈ t.children parent ↔ t.get? w = some parent := by
  unfold children
  rw [List.mem_filter, decide_eq_true_eq, h.mem_order]
  by_cases hw : g.Reachable w
  · obtain ⟨slot, hslot⟩ := exists_parent h hw
    have hget : t.get? w = some (t.atSlot slot) := by
      rw [get?, sentinelSlot_eq h, if_pos (HeapGraph.reachable_lt hw), hslot]
      rfl
    rw [hget, hslot, Option.some.injEq, Option.some.injEq, atSlot_eq_iff h hparent]
    exact and_iff_right hw
  · simp [hw, get?_of_not_reachable h hw]

theorem mem_dominators_of_get? {w : Nat} {parent : Dominator Nat}
    (hget : t.get? w = some parent) : parent ∈ g.dominators := by
  have hw : g.Reachable w := by
    rw [← isReachable_iff h, isReachable, hget]
    rfl
  cases parent with
  | sentinel => exact List.mem_cons_self
  | node d =>
    obtain ⟨hparent, hd⟩ := (get?_eq_node_iff h hw).mp hget
    exact HeapGraph.node_mem_dominators.mpr
      (HeapGraph.onEveryPath_lt hw (onEveryPath_parent h hw hparent hd))

theorem nodup_children (parent : Dominator Nat) : (t.children parent).Nodup :=
  h.nodup_order.filter _

theorem disjoint_children {p q : Dominator Nat} (hp : p ∈ g.dominators) (hq : q ∈ g.dominators)
    (hne : p ≠ q) : (t.children p).Disjoint (t.children q) := by
  intro w hwp hwq
  rw [mem_children h hp] at hwp
  rw [mem_children h hq, hwp] at hwq
  exact hne (Option.some.inj hwq)

/-- Each reachable node is right below some dominator. -/
theorem exists_mem_children_iff {w : Nat} :
    (∃ parent ∈ g.dominators, w ∈ t.children parent) ↔ g.Reachable w := by
  rw [← isReachable_iff h, isReachable, Option.isSome_iff_exists]
  refine ⟨?_, ?_⟩
  · rintro ⟨parent, hparent, hw⟩
    exact ⟨parent, (mem_children h hparent).mp hw⟩
  · rintro ⟨parent, hget⟩
    have hparent := mem_dominators_of_get? h hget
    exact ⟨parent, hparent, (mem_children h hparent).mpr hget⟩

end Children

end DominatorTree

/-! ## Sums over the nodes right below -/

/-- To cut the summands first changes nothing about a sum that is cut. -/
theorem min_add_sum_min {ι : Type} (s : Finset ι) (f : ι → Nat) (start most : Nat) :
    min (start + ∑ z ∈ s, min (f z) most) most = min (start + ∑ z ∈ s, f z) most := by
  classical
  induction s using Finset.induction_on generalizing start with
  | empty => rfl
  | insert z s hz ih =>
    have hcut := ih (start + min (f z) most)
    rw [Finset.sum_insert hz, Finset.sum_insert hz]
    omega

namespace RetainedTable

section Balance

variable {t : DominatorTree} {g : HeapGraph} (h : t.IsOf g)

include h

theorem toFinset_children (parent : Dominator Nat) :
    (t.children parent).toFinset = nodesRightBelow g t (t.slotOf parent) := by
  ext w
  rw [List.mem_toFinset, mem_nodesRightBelow h]
  unfold DominatorTree.children
  rw [List.mem_filter, decide_eq_true_eq, h.mem_order]
  refine and_congr_right fun hw => ?_
  rw [parent?_eq_above h hw, Option.some.injEq]

/-- The exact sum of what the nodes right below a dominator retain. -/
theorem sum_children (parent : Dominator Nat) (heap : HeapId) :
    Bytes.sum ((t.children parent).map ((ofTree g t).size · heap)) =
      ∑ z ∈ nodesRightBelow g t (t.slotOf parent),
        min (∑ w ∈ nodesBelow t z, (own g heap w).toNat) Bytes.most := by
  rw [Bytes.sum_eq, List.map_map, ← toFinset_children h,
    List.sum_toFinset _ (DominatorTree.nodup_children h parent)]
  congr 1
  apply List.map_congr_left
  intro z hz
  have hreach := (h.mem_order z).mp (List.mem_filter.mp hz).1
  have hne := Nat.ne_of_lt (HeapGraph.reachable_lt hreach)
  rw [Function.comp_apply, toNat_size h, sum_nodesBelow_node h heap hne]

/-- The entry of a dominator is the bytes of its node, if it is a reachable one, and the entries
right below. -/
theorem toNat_entry_children {parent : Dominator Nat} {slot : Nat}
    (hslot : t.slotOf parent = slot) (heap : HeapId) :
    ((ofTree g t).entry heap.slot slot).toNat =
      min ((if slot ∈ t.order then (own g heap slot).toNat else 0) +
        Bytes.sum ((t.children parent).map ((ofTree g t).size · heap))) Bytes.most := by
  rw [toNat_entry h, sum_nodesBelow h, sum_children h, hslot, min_add_sum_min]

theorem size_balances {v : Nat} (hv : g.Reachable v) (heap : HeapId) :
    ((ofTree g t).size v heap).toNat = min ((own g heap v).toNat +
      Bytes.sum ((t.children (.node v)).map ((ofTree g t).size · heap))) Bytes.most := by
  have hslot : t.slotOf (.node v) = v := rfl
  have hsize : (ofTree g t).size v heap = (ofTree g t).entry heap.slot v := by
    unfold size
    rw [sentinelSlot_ofTree h, if_pos (HeapGraph.reachable_lt hv)]
  rw [hsize, toNat_entry_children h hslot, if_pos ((h.mem_order v).mpr hv)]

theorem sentinel_balances (heap : HeapId) :
    ((ofTree g t).sentinel heap).toNat =
      min (Bytes.sum ((t.children .sentinel).map ((ofTree g t).size · heap))) Bytes.most := by
  have hslot : t.slotOf .sentinel = g.size := DominatorTree.sentinelSlot_eq h
  have hnone : g.size ∉ t.order := by
    rw [h.mem_order]
    exact fun hreach => Nat.lt_irrefl _ (HeapGraph.reachable_lt hreach)
  unfold sentinel
  rw [sentinelSlot_ofTree h, toNat_entry_children h hslot, if_neg hnone, Nat.zero_add]

end Balance

/-- The nodes right below the sentinel and the nodes of the graph are the reachable nodes, each in
one list and there once. What a node retains of a heap is its own size, if it lies there, and what
the nodes right below it retain. The sentinel retains what those right below it do. -/
theorem the_tree_balances_at_every_dominator (g : HeapGraph) :
    ∃ t, DominatorTree.ofGraph g = .ok t ∧
      (∀ parent ∈ g.dominators, (t.children parent).Nodup) ∧
      g.dominators.Pairwise (fun p q => (t.children p).Disjoint (t.children q)) ∧
      (∀ w, (∃ parent ∈ g.dominators, w ∈ t.children parent) ↔ g.Reachable w) ∧
      ∀ heap,
        (∀ v, g.Reachable v → ∃ node, g.node? v = some node ∧
          ((ofTree g t).size v heap).toNat =
            min ((if node.heap = heap then node.size.toNat else 0) +
              Bytes.sum ((t.children (.node v)).map ((ofTree g t).size · heap))) (2 ^ 64 - 1)) ∧
        ((ofTree g t).sentinel heap).toNat =
          min (Bytes.sum ((t.children .sentinel).map ((ofTree g t).size · heap))) (2 ^ 64 - 1) := by
  obtain ⟨t, hsearch, h⟩ := DominatorTree.exists_tree g
  refine ⟨t, hsearch, fun parent _ => DominatorTree.nodup_children h parent, ?_,
    fun _ => DominatorTree.exists_mem_children_iff h, ?_⟩
  · apply g.nodup_dominators.imp_of_mem
    intro p q hp hq hne
    exact DominatorTree.disjoint_children h hp hq hne
  · intro heap
    refine ⟨?_, sentinel_balances h heap⟩
    intro v hv
    obtain ⟨node, hnode⟩ := HeapGraph.exists_node (HeapGraph.reachable_lt hv)
    refine ⟨node, hnode, ?_⟩
    rw [size_balances h hv, toNat_own hnode]
    rfl

end RetainedTable

end HeapRetention
