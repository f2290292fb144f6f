-- The laws of retained bytes. A column is filled in one sweep that goes up the
-- dominator tree. Each entry comes to hold the bytes of all nodes at or below
-- its place, cut once at the largest count, wherever the sweep cut on its way.
import Mathlib.Algebra.BigOperators.Fin
import HeapRetention.Retained
import HeapRetention.Proofs.Dominance

namespace HeapRetention

/-! ## Exact sums -/

theorem Bytes.sum_eq (counts : List Bytes) : sum counts = (counts.map UInt64.toNat).sum := by
  induction counts with
  | nil => rfl
  | cons count rest ih =>
    rw [List.map_cons, List.sum_cons, ← ih]
    rfl

/-- The places of the heap table are no more than heap ids can tell apart. -/
theorem HeapGraph.slot_ofSlot (g : HeapGraph) {slot : Nat} (h : slot < g.heaps.size) :
    (HeapId.ofSlot slot).slot = slot := by
  have hroom := g.heaps_size_le
  apply HeapId.slot_ofSlot
  unfold maxHeaps at hroom
  omega

open Classical in
/-- The sizes of the picked nodes of a heap, summed without a ceiling. -/
noncomputable def HeapGraph.bytesWhere (g : HeapGraph) (heap : HeapId) (picked : Nat → Prop) :
    Nat :=
  ∑ w : Fin g.nodes.size with picked w.val ∧ g.nodes[w].heap = heap, g.nodes[w].size.toNat

namespace RetainedTable

theorem toNat_own {g : HeapGraph} {v : Nat} {node : Node} (hnode : g.node? v = some node)
    (heap : HeapId) :
    (own g heap v).toNat = if node.heap = heap then node.size.toNat else 0 := by
  unfold own
  rw [hnode]
  simp only
  split
  · rfl
  · rfl

open Classical in
theorem bytesWhere_eq (g : HeapGraph) (heap : HeapId) (picked : Nat → Prop) :
    g.bytesWhere heap picked =
      ∑ w ∈ Finset.range g.size with picked w, (own g heap w).toNat := by
  rw [Finset.sum_filter, HeapGraph.size,
    ← Fin.sum_univ_eq_sum_range (fun w => if picked w then (own g heap w).toNat else 0)]
  unfold HeapGraph.bytesWhere
  rw [Finset.sum_filter]
  apply Finset.sum_congr rfl
  intro w _
  have hnode : g.node? w = some g.nodes[w] := Array.getElem?_eq_getElem w.isLt
  rw [toNat_own hnode, ite_and]

theorem bytesWhere_eq_zero {g : HeapGraph} (heap : HeapId) {picked : Nat → Prop}
    (hnone : ∀ w, ¬ picked w) : g.bytesWhere heap picked = 0 := by
  classical
  rw [bytesWhere_eq]
  apply Finset.sum_eq_zero
  intro w hw
  exact absurd (Finset.mem_filter.mp hw).2 (hnone w)

theorem bytesWhere_mono {g : HeapGraph} (heap : HeapId) {picked picked' : Nat → Prop}
    (h : ∀ w, picked w → picked' w) : g.bytesWhere heap picked ≤ g.bytesWhere heap picked' := by
  classical
  rw [bytesWhere_eq, bytesWhere_eq]
  apply Finset.sum_le_sum_of_subset
  exact Finset.monotone_filter_right _ fun w _ => h w

theorem bytesWhere_of_nodes_eq {g g' : HeapGraph} (h : g'.nodes = g.nodes) (heap : HeapId)
    (picked : Nat → Prop) : g'.bytesWhere heap picked = g.bytesWhere heap picked := by
  rw [bytesWhere_eq, bytesWhere_eq]
  unfold own HeapGraph.size HeapGraph.node?
  rw [h]

open Classical in
/-- The order of a tree has all reachable nodes for a sum. -/
theorem bytesWhere_reachable {t : DominatorTree} {g : HeapGraph} (h : t.IsOf g) (heap : HeapId)
    (picked : Nat → Prop) :
    g.bytesWhere heap (fun w => g.Reachable w ∧ picked w) =
      ∑ w ∈ t.order.toFinset with picked w, (own g heap w).toNat := by
  rw [bytesWhere_eq]
  refine Finset.sum_congr ?_ fun _ _ => rfl
  ext w
  simp only [Finset.mem_filter, Finset.mem_range, List.mem_toFinset, h.mem_order]
  refine ⟨?_, ?_⟩
  · rintro ⟨_, hreach, hpicked⟩
    exact ⟨hreach, hpicked⟩
  · rintro ⟨hreach, hpicked⟩
    exact ⟨HeapGraph.reachable_lt hreach, hreach, hpicked⟩

/-! ## Sums over the tree -/

section Tree

variable {t : DominatorTree} {g : HeapGraph} (h : t.IsOf g)

include h

theorem above_eq {v p : Nat} (hv : g.Reachable v) (hp : t.parents.parent? v = some p) :
    above g t v = p := by
  unfold above
  by_cases hsentinel : p = g.size
  · rw [(DominatorTree.get?_eq_sentinel_iff h hv).mpr (hsentinel ▸ hp), hsentinel]
  · rw [(DominatorTree.get?_eq_node_iff h hv).mpr ⟨hp, hsentinel⟩]

theorem parent?_eq_above {v : Nat} (hv : g.Reachable v) :
    t.parents.parent? v = some (above g t v) := by
  obtain ⟨p, hp⟩ := DominatorTree.exists_parent h hv
  rw [above_eq h hv hp, hp]

theorem above_ne_self {v : Nat} (hv : g.Reachable v) : above g t v ≠ v := by
  intro heq
  have hparent := parent?_eq_above h hv
  rw [heq] at hparent
  exact h.parent_ne_self v (Nat.ne_of_lt (HeapGraph.reachable_lt hv)) hparent

theorem onChain_antisymm {a b : Nat} (hb : g.Reachable b) (hab : OnChain t.parents a b)
    (hba : OnChain t.parents b a) : a = b := by
  by_cases ha : a = g.size
  · subst ha
    exact (DominatorTree.eq_sentinel_of_onChain h hba).symm
  · have hover := (h.onChain_iff b hb a ha).mp hab
    have hreach := HeapGraph.reachable_of_onEveryPath hb hover
    have hunder := (h.onChain_iff a hreach b (Nat.ne_of_lt (HeapGraph.reachable_lt hb))).mp hba
    exact HeapGraph.onEveryPath_antisymm hb hover hunder

/-- A chain comes to each of its places from a node right below. -/
theorem exists_child_of_onChain {a w : Nat} (hw : g.Reachable w) (hne : w ≠ a)
    (ha : OnChain t.parents a w) :
    ∃ z, g.Reachable z ∧ above g t z = a ∧ OnChain t.parents z w := by
  induction ha with
  | self => exact absurd rfl hne
  | @up v p hp hup ih =>
    by_cases hpa : p = a
    · exact ⟨v, hw, hpa ▸ above_eq h hw hp, OnChain.self⟩
    · have hnode : p ≠ g.size := by
        rintro rfl
        exact hpa (DominatorTree.eq_sentinel_of_onChain h hup).symm
      have hreach := HeapGraph.reachable_of_onEveryPath hw
        (DominatorTree.onEveryPath_parent h hw hp hnode)
      obtain ⟨z, hz, habove, hchain⟩ := ih hreach hpa
      exact ⟨z, hz, habove, OnChain.up hp hchain⟩

theorem onChain_above {z : Nat} (hz : g.Reachable z) : OnChain t.parents (above g t z) z :=
  OnChain.up (parent?_eq_above h hz) OnChain.self

theorem eq_of_same_above {y z : Nat} (hy : g.Reachable y) (hz : g.Reachable z)
    (habove : above g t y = above g t z) (hyz : OnChain t.parents y z) : y = z := by
  rcases (onChain_iff (parent?_eq_above h hz)).mp hyz with hself | hup
  · exact hself
  · rw [← habove] at hup
    exact absurd (onChain_antisymm h hy (onChain_above h hy) hup) (above_ne_self h hy)

/-- Only one node right below a place stands on a chain. -/
theorem child_unique {w y z : Nat} (hy : g.Reachable y) (hz : g.Reachable z)
    (habove : above g t y = above g t z) (hyw : OnChain t.parents y w)
    (hzw : OnChain t.parents z w) : y = z := by
  rcases onChain_total hyw hzw with hyz | hzy
  · exact eq_of_same_above h hy hz habove hyz
  · exact (eq_of_same_above h hz hy habove.symm hzy).symm

end Tree

open Classical in
/-- The nodes at or below a place. -/
noncomputable def nodesBelow (t : DominatorTree) (y : Nat) : Finset Nat :=
  t.order.toFinset.filter (OnChain t.parents y)

/-- The nodes right below a place. -/
def nodesRightBelow (g : HeapGraph) (t : DominatorTree) (y : Nat) : Finset Nat :=
  t.order.toFinset.filter (above g t · = y)

section Tree

variable {t : DominatorTree} {g : HeapGraph} (h : t.IsOf g)

include h

theorem mem_nodesBelow {y w : Nat} :
    w ∈ nodesBelow t y ↔ g.Reachable w ∧ OnChain t.parents y w := by
  classical
  unfold nodesBelow
  rw [Finset.mem_filter, List.mem_toFinset, h.mem_order]

theorem mem_nodesRightBelow {y z : Nat} :
    z ∈ nodesRightBelow g t y ↔ g.Reachable z ∧ above g t z = y := by
  unfold nodesRightBelow
  rw [Finset.mem_filter, List.mem_toFinset, h.mem_order]

theorem nodesBelow_eq (y : Nat) :
    nodesBelow t y =
      t.order.toFinset.filter (· = y) ∪ (nodesRightBelow g t y).biUnion (nodesBelow t) := by
  ext w
  rw [Finset.mem_union, Finset.mem_biUnion, mem_nodesBelow h, Finset.mem_filter,
    List.mem_toFinset, h.mem_order]
  refine ⟨?_, ?_⟩
  · rintro ⟨hw, hchain⟩
    by_cases hwy : w = y
    · exact Or.inl ⟨hw, hwy⟩
    · obtain ⟨z, hz, habove, hzw⟩ := exists_child_of_onChain h hw hwy hchain
      exact Or.inr ⟨z, (mem_nodesRightBelow h).mpr ⟨hz, habove⟩, (mem_nodesBelow h).mpr ⟨hw, hzw⟩⟩
  · rintro (⟨hw, rfl⟩ | ⟨z, hz, hzw⟩)
    · exact ⟨hw, OnChain.self⟩
    · obtain ⟨hzreach, rfl⟩ := (mem_nodesRightBelow h).mp hz
      obtain ⟨hw, hchain⟩ := (mem_nodesBelow h).mp hzw
      exact ⟨hw, onChain_trans (onChain_above h hzreach) hchain⟩

/-- No place is below the nodes right below it. -/
theorem not_mem_nodesBelow {y z : Nat} (hz : z ∈ nodesRightBelow g t y) :
    y ∉ nodesBelow t z := by
  intro hy
  obtain ⟨hzreach, rfl⟩ := (mem_nodesRightBelow h).mp hz
  have hback := ((mem_nodesBelow h).mp hy).2
  exact above_ne_self h hzreach (onChain_antisymm h hzreach (onChain_above h hzreach) hback)

theorem disjoint_nodesBelow (y : Nat) :
    (↑(nodesRightBelow g t y) : Set Nat).PairwiseDisjoint (nodesBelow t) := by
  intro a ha b hb hne
  obtain ⟨hareach, hay⟩ := (mem_nodesRightBelow h).mp ha
  obtain ⟨hbreach, hby⟩ := (mem_nodesRightBelow h).mp hb
  rw [Function.onFun, Finset.disjoint_left]
  intro w haw hbw
  exact hne (child_unique h hareach hbreach (hay.trans hby.symm) ((mem_nodesBelow h).mp haw).2
    ((mem_nodesBelow h).mp hbw).2)

/-- The bytes at or below a place: those of the node there, if there is one, and those at or below
the nodes right below it. -/
theorem sum_nodesBelow (y : Nat) (bytes : Nat → Nat) :
    ∑ w ∈ nodesBelow t y, bytes w = (if y ∈ t.order then bytes y else 0) +
      ∑ z ∈ nodesRightBelow g t y, ∑ w ∈ nodesBelow t z, bytes w := by
  have hapart : Disjoint (t.order.toFinset.filter (· = y))
      ((nodesRightBelow g t y).biUnion (nodesBelow t)) := by
    rw [Finset.disjoint_left]
    intro w hw hbelow
    obtain ⟨_, rfl⟩ := Finset.mem_filter.mp hw
    obtain ⟨z, hz, hwz⟩ := Finset.mem_biUnion.mp hbelow
    exact not_mem_nodesBelow h hz hwz
  rw [nodesBelow_eq h, Finset.sum_union hapart, Finset.sum_biUnion (disjoint_nodesBelow h y),
    Finset.sum_filter, Finset.sum_ite_eq']
  simp only [List.mem_toFinset]

end Tree

/-! ## The sweep -/

/-- The count that a column holds at a place. -/
def held (column : Array Bytes) (slot : Nat) : Nat := (column[slot]?.getD 0).toNat

@[simp]
theorem size_deposit (column : Array Bytes) (slot : Nat) (bytes : Bytes) :
    (deposit column slot bytes).size = column.size := by
  simp [deposit]

theorem held_deposit {column : Array Bytes} {slot : Nat} (hslot : slot < column.size)
    (bytes : Bytes) (y : Nat) :
    held (deposit column slot bytes) y =
      if slot = y then min (held column y + bytes.toNat) Bytes.most else held column y := by
  unfold held deposit
  rw [Array.getElem?_modify]
  by_cases hy : slot = y
  · subst hy
    rw [if_pos rfl, if_pos rfl, Array.getElem?_eq_getElem hslot]
    exact Bytes.toNat_add _ _
  · rw [if_neg hy, if_neg hy]

@[simp]
theorem size_absorb (g : HeapGraph) (t : DominatorTree) (heap : HeapId) (i : Nat)
    (column : Array Bytes) : (absorb g t heap i column).size = column.size := by
  simp [absorb]

theorem held_absorb {g : HeapGraph} {t : DominatorTree} (heap : HeapId) {i : Nat}
    {column : Array Bytes} (hi : i < column.size) (hup : above g t i < column.size)
    (hne : above g t i ≠ i) (y : Nat) :
    held (absorb g t heap i column) y =
      if y = i then min (held column i + (own g heap i).toNat) Bytes.most
      else if y = above g t i then
        min (held column y + min (held column i + (own g heap i).toNat) Bytes.most) Bytes.most
      else held column y := by
  have hself := held_deposit hi (own g heap i) i
  rw [if_pos rfl] at hself
  unfold absorb
  simp only
  rw [held_deposit (by rwa [size_deposit]), held_deposit hi, ← hself]
  by_cases hyi : y = i
  · subst hyi
    rw [if_neg hne, if_pos rfl, if_pos rfl, hself]
  · rw [if_neg (Ne.symm hyi), if_neg hyi]
    by_cases hya : y = above g t i
    · rw [if_pos hya.symm, if_pos hya]
      rfl
    · rw [if_neg (Ne.symm hya), if_neg hya]

/-- The exact count that a place has received after the nodes of `done` were absorbed: the own bytes
of an absorbed node, and all that is at or below the absorbed nodes right below the place. -/
noncomputable def received (g : HeapGraph) (t : DominatorTree) (heap : HeapId) (done : List Nat)
    (y : Nat) : Nat :=
  (if y ∈ done then (own g heap y).toNat else 0) +
    ∑ z ∈ done.toFinset with above g t z = y, ∑ w ∈ nodesBelow t z, (own g heap w).toNat

/-- A column in which the nodes of `done` were absorbed. -/
structure Swept (g : HeapGraph) (t : DominatorTree) (heap : HeapId) (done : List Nat)
    (column : Array Bytes) : Prop where
  size_eq : column.size = g.size + 1
  held_eq : ∀ y, held column y = min (received g t heap done y) Bytes.most

theorem swept_start (g : HeapGraph) (t : DominatorTree) (heap : HeapId) :
    Swept g t heap [] (Array.replicate (g.size + 1) 0) := by
  refine ⟨Array.size_replicate, ?_⟩
  intro y
  unfold held received
  rw [Array.getElem?_replicate]
  by_cases hy : y < g.size + 1
  · simp [hy]
  · simp [hy]

theorem received_cons {g : HeapGraph} {t : DominatorTree} (heap : HeapId) {x : Nat}
    {done : List Nat} (hx : x ∉ done) (y : Nat) :
    received g t heap (x :: done) y = received g t heap done y +
      (if y = x then (own g heap x).toNat else 0) +
      (if above g t x = y then ∑ w ∈ nodesBelow t x, (own g heap w).toNat else 0) := by
  have hsum : ∑ z ∈ (x :: done).toFinset with above g t z = y,
        ∑ w ∈ nodesBelow t z, (own g heap w).toNat =
      (if above g t x = y then ∑ w ∈ nodesBelow t x, (own g heap w).toNat else 0) +
        ∑ z ∈ done.toFinset with above g t z = y, ∑ w ∈ nodesBelow t z, (own g heap w).toNat := by
    rw [List.toFinset_cons, Finset.sum_filter, Finset.sum_insert (by rwa [List.mem_toFinset]),
      Finset.sum_filter]
  unfold received
  rw [hsum]
  by_cases hyx : y = x
  · subst hyx
    rw [if_pos List.mem_cons_self, if_neg hx, if_pos rfl]
    omega
  · have hmem : y ∈ x :: done ↔ y ∈ done := by simp [hyx]
    rw [if_neg hyx]
    simp only [hmem]
    omega

section Sweep

variable {t : DominatorTree} {g : HeapGraph} (h : t.IsOf g)

include h

/-- When a node is absorbed, all nodes right below it have been, and the place above it has not. -/
theorem turn_of_suffix {x : Nat} {done : List Nat} (hsuffix : x :: done <:+ t.order) :
    g.Reachable x ∧ x ∉ done ∧ above g t x ∉ x :: done ∧
      nodesRightBelow g t x = done.toFinset.filter (above g t · = x) := by
  obtain ⟨before, horder⟩ := hsuffix
  have hnodup := h.nodup_order
  have hfirst := h.parent_first
  rw [← horder] at hnodup hfirst
  have hreach : ∀ v, v ∈ before ++ x :: done → g.Reachable v :=
    fun v hv => (h.mem_order v).mp (horder ▸ hv)
  have hx : g.Reachable x := hreach x (by simp)
  have hparent := parent?_eq_above h hx
  have hself := above_ne_self h hx
  have hlater := (List.pairwise_append.mp hfirst).2.1
  have hacross := (List.pairwise_append.mp hfirst).2.2
  refine ⟨hx, (List.nodup_cons.mp (List.nodup_append.mp hnodup).2.1).1, ?_, ?_⟩
  · intro hmem
    rcases List.mem_cons.mp hmem with heq | hdone
    · exact hself heq
    · exact (List.pairwise_cons.mp hlater).1 _ hdone hparent
  · ext z
    rw [mem_nodesRightBelow h, Finset.mem_filter, List.mem_toFinset]
    refine ⟨?_, ?_⟩
    · rintro ⟨hz, habove⟩
      refine ⟨?_, habove⟩
      have hzparent := parent?_eq_above h hz
      rw [habove] at hzparent
      rcases List.mem_append.mp (horder ▸ (h.mem_order z).mpr hz) with hbefore | hrest
      · exact absurd hzparent (hacross z hbefore x List.mem_cons_self)
      · rcases List.mem_cons.mp hrest with rfl | hdone
        · exact absurd habove hself
        · exact hdone
    · rintro ⟨hz, habove⟩
      exact ⟨hreach z (by simp [hz]), habove⟩

theorem above_lt {x : Nat} (hx : g.Reachable x) : above g t x < g.size + 1 := by
  have hparent := parent?_eq_above h hx
  by_cases hsentinel : above g t x = g.size
  · omega
  · have hover := DominatorTree.onEveryPath_parent h hx hparent hsentinel
    have := HeapGraph.onEveryPath_lt hx hover
    omega

/-- A node that is absorbed has received all that is at or below it, and hands it on. -/
theorem swept_absorb (heap : HeapId) {x : Nat} {done : List Nat}
    (hsuffix : x :: done <:+ t.order) {column : Array Bytes} (hs : Swept g t heap done column) :
    Swept g t heap (x :: done) (absorb g t heap x column) := by
  obtain ⟨hx, hnew, hup, hbelow⟩ := turn_of_suffix h hsuffix
  have hsize := hs.size_eq
  have hxlt := HeapGraph.reachable_lt hx
  have huplt := above_lt h hx
  have hne := above_ne_self h hx
  have hown : (if x ∈ done then (own g heap x).toNat else 0) = 0 := if_neg hnew
  have htotal := sum_nodesBelow h x fun w => (own g heap w).toNat
  rw [if_pos ((h.mem_order x).mpr hx), hbelow] at htotal
  have hreceived : received g t heap done x + (own g heap x).toNat =
      ∑ w ∈ nodesBelow t x, (own g heap w).toNat := by
    rw [htotal, received, hown]
    omega
  refine ⟨by rw [size_absorb, hsize], ?_⟩
  -- three places: the node itself, the one above it, and all others, which stay as they were
  intro y
  rw [held_absorb heap (by omega) (by omega) hne, hs.held_eq, hs.held_eq,
    received_cons heap hnew, ← hreceived]
  by_cases hyx : y = x
  · subst hyx
    rw [if_pos rfl, if_pos rfl, if_neg hne]
    omega
  · rw [if_neg hyx, if_neg hyx]
    by_cases hya : y = above g t x
    · rw [if_pos hya, if_pos hya.symm]
      omega
    · rw [if_neg hya, if_neg (Ne.symm hya)]
      omega

theorem swept_foldr (heap : HeapId) {done : List Nat} (hsuffix : done <:+ t.order) :
    Swept g t heap done (done.foldr (absorb g t heap) (Array.replicate (g.size + 1) 0)) := by
  induction done with
  | nil => exact swept_start g t heap
  | cons x rest ih =>
    exact swept_absorb h heap hsuffix (ih ((List.suffix_cons x rest).trans hsuffix))

/-- A column holds at every place what is at or below it, cut once. -/
theorem held_column (heap : HeapId) (y : Nat) :
    held (column g t heap) y =
      min (∑ w ∈ nodesBelow t y, (own g heap w).toNat) Bytes.most := by
  unfold column
  rw [(swept_foldr h heap (List.suffix_refl _)).held_eq, sum_nodesBelow h]
  rfl

end Sweep

/-! ## The entries of a table -/

theorem columns_ofTree (g : HeapGraph) (t : DominatorTree) (slot : Nat) :
    (ofTree g t).columns[slot]? =
      if slot < g.heaps.size then some (column g t (HeapId.ofSlot slot)) else none := by
  unfold ofTree HeapGraph.heapIds
  rw [List.getElem?_toArray, List.getElem?_map, List.getElem?_map]
  by_cases hslot : slot < g.heaps.size
  · rw [if_pos hslot, List.getElem?_range hslot]
    rfl
  · rw [if_neg hslot, List.getElem?_eq_none (by rw [List.length_range]; omega)]
    rfl

/-- No node has bytes in an unknown heap. -/
theorem own_eq_zero {g : HeapGraph} {heap : HeapId} (hheap : g.heaps.size ≤ heap.slot) (w : Nat) :
    own g heap w = 0 := by
  unfold own HeapGraph.node?
  cases hnode : g.nodes[w]? with
  | none => rfl
  | some node =>
    have hlt := g.heap_lt node (Array.mem_of_getElem? hnode)
    simp only
    rw [if_neg]
    rintro rfl
    omega

section Entries

variable {t : DominatorTree} {g : HeapGraph} (h : t.IsOf g)

include h

theorem sentinelSlot_ofTree : (ofTree g t).sentinelSlot = g.size := by
  unfold sentinelSlot
  rw [columns_ofTree]
  by_cases hheaps : 0 < g.heaps.size
  · rw [if_pos hheaps]
    simp only
    rw [column, (swept_foldr h _ (List.suffix_refl _)).size_eq, Nat.add_sub_cancel]
  · rw [if_neg hheaps]
    simp only
    by_contra hsize
    have hpos : 0 < g.nodes.size := Nat.pos_of_ne_zero (Ne.symm hsize)
    have := g.heap_lt g.nodes[0] (Array.getElem_mem hpos)
    omega

theorem toNat_entry (heap : HeapId) (y : Nat) :
    ((ofTree g t).entry heap.slot y).toNat =
      min (∑ w ∈ nodesBelow t y, (own g heap w).toNat) Bytes.most := by
  unfold entry
  rw [columns_ofTree, HeapId.ofSlot_slot]
  by_cases hheap : heap.slot < g.heaps.size
  · rw [if_pos hheap]
    exact held_column h heap y
  · have hzero : ∑ w ∈ nodesBelow t y, (own g heap w).toNat = 0 := by
      refine Finset.sum_eq_zero fun w _ => ?_
      rw [own_eq_zero (by omega)]
      rfl
    rw [if_neg hheap, hzero]
    rfl

theorem sum_nodesBelow_node (heap : HeapId) {v : Nat} (hv : v ≠ g.size) :
    ∑ w ∈ nodesBelow t v, (own g heap w).toNat =
      g.bytesWhere heap fun w => g.Reachable w ∧ g.OnEveryPath v w := by
  rw [bytesWhere_reachable h]
  refine Finset.sum_congr ?_ fun _ _ => rfl
  ext w
  classical
  rw [mem_nodesBelow h, Finset.mem_filter, List.mem_toFinset, h.mem_order]
  refine ⟨?_, ?_⟩
  · rintro ⟨hw, hchain⟩
    exact ⟨hw, (h.onChain_iff w hw v hv).mp hchain⟩
  · rintro ⟨hw, hevery⟩
    exact ⟨hw, (h.onChain_iff w hw v hv).mpr hevery⟩

theorem sum_nodesBelow_sentinel (heap : HeapId) :
    ∑ w ∈ nodesBelow t g.size, (own g heap w).toNat = g.bytesWhere heap g.Reachable := by
  have hall := bytesWhere_reachable h heap fun _ => True
  simp only [and_true, Finset.filter_true] at hall
  rw [hall]
  refine Finset.sum_congr ?_ fun _ _ => rfl
  ext w
  rw [mem_nodesBelow h, List.mem_toFinset, h.mem_order]
  refine ⟨?_, ?_⟩
  · rintro ⟨hw, _⟩
    exact hw
  · intro hw
    exact ⟨hw, h.sentinel_onChain w hw⟩

theorem toNat_sentinel (heap : HeapId) :
    ((ofTree g t).sentinel heap).toNat = min (g.bytesWhere heap g.Reachable) Bytes.most := by
  unfold sentinel
  rw [sentinelSlot_ofTree h, toNat_entry h, sum_nodesBelow_sentinel h]

end Entries

/-- Where a node is not reachable, it is on every path to nothing. -/
theorem bytesWhere_of_not_reachable {g : HeapGraph} (heap : HeapId) {v : Nat}
    (hv : ¬ g.Reachable v) :
    g.bytesWhere heap (fun w => g.Reachable w ∧ g.OnEveryPath v w) = 0 := by
  apply bytesWhere_eq_zero
  rintro w ⟨hreach, hevery⟩
  exact hv (HeapGraph.reachable_of_onEveryPath hreach hevery)

theorem toNat_size {t : DominatorTree} {g : HeapGraph} (h : t.IsOf g) (v : Nat) (heap : HeapId) :
    ((ofTree g t).size v heap).toNat =
      min (g.bytesWhere heap fun w => g.Reachable w ∧ g.OnEveryPath v w) Bytes.most := by
  unfold size
  rw [sentinelSlot_ofTree h]
  by_cases hv : v < g.size
  · rw [if_pos hv, toNat_entry h, sum_nodesBelow_node h heap (Nat.ne_of_lt hv)]
  · have hnot : ¬ g.Reachable v := fun hreach => hv (HeapGraph.reachable_lt hreach)
    rw [if_neg hv, bytesWhere_of_not_reachable heap hnot]
    rfl

/-- What a node retains of a heap is the sum of the sizes of the reachable nodes that have it on
every path, and the sentinel retains the sum over all reachable nodes. Each sum is exact up to the
largest count. -/
theorem retained_bytes_are_the_sums_over_dominated_nodes (g : HeapGraph) :
    ∃ t, DominatorTree.ofGraph g = .ok t ∧ ∀ heap,
      (∀ v, ((ofTree g t).size v heap).toNat =
        min (g.bytesWhere heap fun w => g.Reachable w ∧ g.OnEveryPath v w) (2 ^ 64 - 1)) ∧
      (∀ v, ¬ g.Reachable v → (ofTree g t).size v heap = 0) ∧
      ((ofTree g t).sentinel heap).toNat = min (g.bytesWhere heap g.Reachable) (2 ^ 64 - 1) := by
  obtain ⟨t, hsearch, h⟩ := DominatorTree.exists_tree g
  refine ⟨t, hsearch, fun heap => ⟨fun v => toNat_size h v heap, ?_, toNat_sentinel h heap⟩⟩
  intro v hv
  apply UInt64.toNat_inj.mp
  rw [toNat_size h, bytesWhere_of_not_reachable heap hv]
  rfl

end RetainedTable

end HeapRetention
