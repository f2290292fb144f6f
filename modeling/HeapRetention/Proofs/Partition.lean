-- The laws of the heap partition. Every node lies in one heap, so what the
-- columns of all heaps hold adds up to the sizes of the nodes, however they
-- are parted. As long as the reachable bytes are a count, no share is cut and
-- no sum of shares is too large.
import HeapRetention.Proofs.Shape
import HeapRetention.Proofs.Totals

namespace HeapRetention

/-! ## Sums over all heaps -/

namespace HeapGraph

/-- The size of the node at a place, and zero where there is none. -/
def sizeAt (g : HeapGraph) (w : Nat) : Nat :=
  match g.node? w with
  | some node => node.size.toNat
  | none => 0

open Classical in
/-- The sizes of the picked nodes, in whatever heaps they lie, summed without a ceiling. -/
noncomputable def sizesWhere (g : HeapGraph) (picked : Nat → Prop) : Nat :=
  ∑ w ∈ Finset.range g.size with picked w, g.sizeAt w

theorem nodup_heapIds (g : HeapGraph) : g.heapIds.Nodup := by
  unfold heapIds
  apply List.Nodup.map_on _ List.nodup_range
  intro slot hslot slot' hslot' hsame
  rw [List.mem_range] at hslot hslot'
  rw [← g.slot_ofSlot hslot, hsame, g.slot_ofSlot hslot']

/-- The heap of a node is in the heap table. -/
theorem mem_heapIds {g : HeapGraph} {w : Nat} {node : Node} (hnode : g.node? w = some node) :
    node.heap ∈ g.heapIds := by
  have hlt := g.heap_lt node (Array.mem_of_getElem? hnode)
  unfold heapIds
  exact List.mem_map.mpr ⟨node.heap.slot, List.mem_range.mpr hlt, HeapId.ofSlot_slot node.heap⟩

/-- A node adds its size to one heap and nothing to the others. -/
theorem sum_own (g : HeapGraph) (w : Nat) :
    ∑ heap ∈ g.heapIds.toFinset, (RetainedTable.own g heap w).toNat = g.sizeAt w := by
  unfold sizeAt
  cases hnode : g.node? w with
  | none =>
    apply Finset.sum_eq_zero
    intro heap _
    unfold RetainedTable.own
    rw [hnode]
    rfl
  | some node =>
    simp only [RetainedTable.toNat_own hnode]
    rw [Finset.sum_ite_eq, if_pos (List.mem_toFinset.mpr (mem_heapIds hnode))]

/-- The bytes of the picked nodes, heap by heap, are the sizes of the picked nodes. -/
theorem sum_bytesWhere (g : HeapGraph) (picked : Nat → Prop) :
    (g.heapIds.map fun heap => g.bytesWhere heap picked).sum = g.sizesWhere picked := by
  unfold sizesWhere
  rw [← List.sum_toFinset _ g.nodup_heapIds]
  simp only [RetainedTable.bytesWhere_eq]
  rw [Finset.sum_comm]
  apply Finset.sum_congr rfl
  intro w _
  exact g.sum_own w

/-- Where all sizes add up to a count, no heap's share is cut. -/
theorem sum_min_bytesWhere {g : HeapGraph} {picked : Nat → Prop}
    (hfits : g.sizesWhere picked ≤ Bytes.most) :
    (g.heapIds.map fun heap => min (g.bytesWhere heap picked) Bytes.most).sum =
      g.sizesWhere picked := by
  rw [← sum_bytesWhere] at hfits ⊢
  congr 1
  apply List.map_congr_left
  intro heap hheap
  have hshare : g.bytesWhere heap picked ≤
      (g.heapIds.map fun heap => g.bytesWhere heap picked).sum :=
    List.le_sum_of_mem (List.mem_map.mpr ⟨heap, hheap, rfl⟩)
  omega

theorem sizesWhere_mono {g : HeapGraph} {picked picked' : Nat → Prop}
    (h : ∀ w, picked w → picked' w) : g.sizesWhere picked ≤ g.sizesWhere picked' := by
  classical
  unfold sizesWhere
  apply Finset.sum_le_sum_of_subset
  exact Finset.monotone_filter_right _ fun w _ => h w

theorem sizesWhere_congr {g' g : HeapGraph} (hsize : g'.size = g.size)
    (hat : ∀ w, g'.sizeAt w = g.sizeAt w) (picked : Nat → Prop) :
    g'.sizesWhere picked = g.sizesWhere picked := by
  unfold sizesWhere
  rw [hsize]
  exact Finset.sum_congr rfl fun w _ => hat w

/-- The sizes of all nodes are those that the node table lists. -/
theorem sizesWhere_all (g : HeapGraph) :
    (g.sizesWhere fun _ => True) = Bytes.sum (g.nodes.toList.map Node.size) := by
  have hlist : (List.range g.size).map g.sizeAt =
      (g.nodes.toList.map Node.size).map UInt64.toNat := by
    apply List.ext_getElem
    · simp [size]
    · intro w _ hw
      simp only [List.length_map, Array.length_toList] at hw
      simp [sizeAt, node?, Array.getElem?_eq_getElem hw]
  unfold sizesWhere
  rw [Finset.filter_true, Bytes.sum_eq, ← hlist, ← List.sum_toFinset _ List.nodup_range,
    List.toFinset_range]

/-- Whatever is picked, its sizes are at most the sum of all sizes, if they are a count at all. -/
theorem sizesWhere_le_totalSize {g : HeapGraph} {picked : Nat → Prop}
    (hfits : g.sizesWhere picked ≤ Bytes.most) : g.sizesWhere picked ≤ g.totalSize.toNat := by
  have hle : g.sizesWhere picked ≤ g.sizesWhere fun _ => True :=
    sizesWhere_mono fun _ _ => trivial
  rw [sizesWhere_all] at hle
  unfold totalSize
  rw [Bytes.toNat_total]
  exact Nat.le_min.mpr ⟨hle, hfits⟩

end HeapGraph

namespace Bytes

theorem exists_ofNat? {n : Nat} (h : n ≤ most) :
    ∃ count, ofNat? n = some count ∧ count.toNat = n := by
  refine ⟨UInt64.ofNat n, ofNat?_of_le h, ?_⟩
  unfold most UInt64.size at h
  rw [UInt64.toNat_ofNat', Nat.mod_eq_of_lt (by omega)]

end Bytes

namespace RetainedTable

section Totals

variable {t : DominatorTree} {g : HeapGraph} (h : t.IsOf g)
  (hfits : g.sizesWhere g.Reachable ≤ Bytes.most)

include h hfits

/-- What a node retains over all heaps is the sizes of the nodes that it dominates. -/
theorem total?_of_fits (v : Nat) : (ofTree g t).total? v =
    Bytes.ofNat? (g.sizesWhere fun w => t.dominates v w = true) := by
  rw [← DominatorTree.guarded_eq h, total?_ofTree h]
  unfold HeapGraph.retainedTotal
  rw [HeapGraph.sum_min_bytesWhere]
  exact Nat.le_trans (HeapGraph.sizesWhere_mono fun _ hw => hw.1) hfits

theorem sentinelTotal?_of_fits :
    (ofTree g t).sentinelTotal? = Bytes.ofNat? (g.sizesWhere g.Reachable) := by
  rw [sentinelTotal?_ofTree h]
  unfold HeapGraph.reachableTotal
  rw [HeapGraph.sum_min_bytesWhere hfits]

end Totals

end RetainedTable

/-! ## Other partitions of the same nodes -/

/-- What is recorded of a node besides its heap. -/
def NodeRecord.unplaced (record : NodeRecord) : NodeId × NodeKind × Footprint :=
  (record.id, record.kind, record.footprint)

namespace Recording

theorem idsOf_eq_unplaced (calls : List Call) :
    idsOf calls = ((nodesOf calls).map NodeRecord.unplaced).map Prod.fst := by
  unfold idsOf
  rw [List.map_map]
  rfl

/-- The size of a node does not depend on its heap. -/
theorem sizeAt_replay {width : IdWidth} {calls : List Call} {g : HeapGraph}
    (hbuild : (replay width calls).build = .ok g) (w : Nat) :
    g.sizeAt w = (((nodesOf calls).map NodeRecord.unplaced)[w]?).elim 0
      fun parts => (parts.2.2.resolve width).toNat := by
  unfold HeapGraph.sizeAt
  rw [node?_replay hbuild, List.getElem?_map]
  cases (nodesOf calls)[w]? with
  | none => rfl
  | some record => rfl

/-- When the same nodes, references and roots are recorded with the nodes in other heaps, the same
tree is found. As long as the sizes of the reachable nodes add up to a count, every node retains the
same over all heaps, which is the sizes of the nodes that it dominates, and the reachable bytes are
the same, which are all sizes of reachable nodes and no more than the sizes of all nodes. -/
theorem totals_do_not_depend_on_the_heaps {width : IdWidth} {calls calls' : List Call}
    {g g' : HeapGraph} (hbuild : (replay width calls).build = .ok g)
    (hbuild' : (replay width calls').build = .ok g')
    (hnodes : (nodesOf calls').map NodeRecord.unplaced =
      (nodesOf calls).map NodeRecord.unplaced)
    (hedges : edgesOf calls' = edgesOf calls) (hroots : rootsOf calls' = rootsOf calls) :
    ∃ t, DominatorTree.ofGraph g = .ok t ∧ DominatorTree.ofGraph g' = .ok t ∧
      (g.sizesWhere g.Reachable ≤ 2 ^ 64 - 1 →
        (∀ v, ∃ total, (RetainedTable.ofTree g t).total? v = some total ∧
          (RetainedTable.ofTree g' t).total? v = some total ∧
          total.toNat = g.sizesWhere fun w => t.dominates v w = true) ∧
        ∃ total, (RetainedTable.ofTree g t).sentinelTotal? = some total ∧
          (RetainedTable.ofTree g' t).sentinelTotal? = some total ∧
          total.toNat = g.sizesWhere g.Reachable ∧ total ≤ g.totalSize ∧ total ≤ g'.totalSize) := by
  have hids : idsOf calls' = idsOf calls := by
    rw [idsOf_eq_unplaced, idsOf_eq_unplaced, hnodes]
  have hshape : g'.SameShape g := sameShape_replay hbuild' hbuild hids hedges hroots
  obtain ⟨t, hsearch, hsearch', ht, ht'⟩ := DominatorTree.exists_shared_tree hshape
  have hsizes : ∀ picked, g'.sizesWhere picked = g.sizesWhere picked := by
    apply HeapGraph.sizesWhere_congr hshape.size_eq
    intro w
    rw [sizeAt_replay hbuild', sizeAt_replay hbuild, hnodes]
  have hreach : g'.Reachable = g.Reachable := by
    rw [DominatorTree.reachable_eq ht', DominatorTree.reachable_eq ht]
  refine ⟨t, hsearch, hsearch', ?_⟩
  intro hfits
  have hfits' : g'.sizesWhere g'.Reachable ≤ Bytes.most := by
    rw [hsizes, hreach]
    exact hfits
  refine ⟨?_, ?_⟩
  · intro v
    have hless : (g.sizesWhere fun w => t.dominates v w = true) ≤ Bytes.most := by
      rw [← DominatorTree.guarded_eq ht]
      exact Nat.le_trans (HeapGraph.sizesWhere_mono fun _ hw => hw.1) hfits
    obtain ⟨total, htotal, hexact⟩ := Bytes.exists_ofNat? hless
    refine ⟨total, ?_, ?_, hexact⟩
    · rw [RetainedTable.total?_of_fits ht hfits, htotal]
    · rw [RetainedTable.total?_of_fits ht' hfits', hsizes, htotal]
  · obtain ⟨total, htotal, hexact⟩ := Bytes.exists_ofNat? hfits
    refine ⟨total, ?_, ?_, hexact, ?_, ?_⟩
    · rw [RetainedTable.sentinelTotal?_of_fits ht hfits, htotal]
    · rw [RetainedTable.sentinelTotal?_of_fits ht' hfits', hsizes, hreach, htotal]
    · rw [UInt64.le_iff_toNat_le, hexact]
      exact HeapGraph.sizesWhere_le_totalSize hfits
    · rw [UInt64.le_iff_toNat_le, hexact, ← hreach, ← hsizes]
      exact HeapGraph.sizesWhere_le_totalSize hfits'

/-- The knot with its nodes in three heaps. -/
def partedKnot : List Call :=
  List.flatten [
    [.heap "zygote", .root ⟨1⟩ .unknown, .heap "image", .root ⟨5⟩ .unknown, .heap "app"],
    List.zipWith (fun n heap => .node ⟨⟨n⟩, ⟨heap⟩, .instanceOf none, .bytes n⟩)
      [1, 2, 3, 4, 5] [0, 1, 1, 0, 2],
    [.reference ⟨1⟩ ⟨2⟩, .reference ⟨5⟩ ⟨3⟩, .reference ⟨2⟩ ⟨3⟩, .reference ⟨3⟩ ⟨4⟩,
      .reference ⟨4⟩ ⟨2⟩]]

/-- The inner node of the knot retains seven bytes, three of them in its own heap, once the knot is
parted. -/
theorem the_parted_knot_retains_as_much :
    ∃ g g' t, (replay .four knot).build = .ok g ∧ (replay .four partedKnot).build = .ok g' ∧
      DominatorTree.ofGraph g = .ok t ∧ DominatorTree.ofGraph g' = .ok t ∧
      g.sizesWhere g.Reachable ≤ 2 ^ 64 - 1 ∧
      (RetainedTable.ofTree g t).total? 2 = some 7 ∧
      (RetainedTable.ofTree g' t).total? 2 = some 7 ∧
      (RetainedTable.ofTree g' t).size 2 ⟨1⟩ = 3 ∧
      (RetainedTable.ofTree g t).sentinelTotal? = some 15 ∧
      (RetainedTable.ofTree g' t).sentinelTotal? = some 15 := by
  have hrun : ((replay .four knot).build.toOption.bind fun g =>
      (DominatorTree.ofGraph g).toOption.map fun t =>
        (Bytes.sum (g.nodes.toList.map Node.size), (RetainedTable.ofTree g t).total? 2,
          (RetainedTable.ofTree g t).sentinelTotal?)) = some (15, some 7, some 15) := by
    cbv
  have hrun' : ((replay .four partedKnot).build.toOption.bind fun g =>
      (DominatorTree.ofGraph g).toOption.map fun t => (RetainedTable.ofTree g t).size 2 ⟨1⟩) =
      some 3 := by
    cbv
  obtain ⟨g, t, hbuild, hsearch, hseen⟩ := DominatorTree.exists_of_run hrun
  obtain ⟨g', t', hbuild', hsearch', hshare⟩ := DominatorTree.exists_of_run hrun'
  simp only [Prod.mk.injEq] at hseen
  obtain ⟨hall, hseven, hfifteen⟩ := hseen
  obtain ⟨t₁, hfirst, hsecond, htotals⟩ :=
    totals_do_not_depend_on_the_heaps hbuild hbuild' rfl rfl rfl
  rw [hsearch] at hfirst
  obtain rfl := Except.ok.inj hfirst
  rw [hsearch'] at hsecond
  obtain rfl := Except.ok.inj hsecond
  have hfits : g.sizesWhere g.Reachable ≤ 2 ^ 64 - 1 := by
    have hle : g.sizesWhere g.Reachable ≤ g.sizesWhere fun _ => True :=
      HeapGraph.sizesWhere_mono fun _ _ => trivial
    rw [HeapGraph.sizesWhere_all, hall] at hle
    omega
  obtain ⟨hnode, total, hsentinel, hsentinel', _⟩ := htotals hfits
  obtain ⟨share, htwo, htwo', _⟩ := hnode 2
  rw [hseven] at htwo
  rw [hfifteen] at hsentinel
  exact ⟨g, g', _, hbuild, hbuild', hsearch, hsearch', hfits, hseven, htwo'.trans htwo.symm, hshare,
    hfifteen, hsentinel'.trans hsentinel.symm⟩

end Recording

end HeapRetention
