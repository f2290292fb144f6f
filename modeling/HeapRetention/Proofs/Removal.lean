-- The laws of removal. When a node is cut off, so that no reference and no root
-- leads to it, the nodes that stay reachable are those with a path around it.
-- The bytes that the node retained are exactly those that are lost.
import HeapRetention.Proofs.Calls
import HeapRetention.Proofs.RetainedBytes

namespace HeapRetention

/-! ## Cutting a node off -/

namespace HeapGraph

/-- The graph `cut` is the graph `g` without the references to `v` and without `v` as a root. -/
structure CutsOff (cut g : HeapGraph) (v : Nat) : Prop where
  nodes_eq : cut.nodes = g.nodes
  heaps_eq : cut.heaps = g.heaps
  references_eq : ∀ u, cut.references u = (g.references u).filter (· ≠ v)
  roots_eq : cut.roots = g.roots.filter (·.node ≠ v)

variable {cut g : HeapGraph} {v : Nat}

/-- The paths that are left are those around the node. -/
theorem rootPath_cut (h : cut.CutsOff g v) {trail : List Nat} {w : Nat} :
    cut.RootPath trail w ↔ g.RootPath trail w ∧ v ∉ trail := by
  refine ⟨?_, ?_⟩
  · intro hpath
    induction hpath with
    | @root root hroot =>
      rw [h.roots_eq, List.mem_filter, decide_eq_true_eq] at hroot
      refine ⟨RootPath.root hroot.1, ?_⟩
      rw [List.mem_singleton]
      exact Ne.symm hroot.2
    | step _ hedge ih =>
      rw [h.references_eq, List.mem_filter, decide_eq_true_eq] at hedge
      refine ⟨RootPath.step ih.1 hedge.1, ?_⟩
      rw [List.mem_cons, not_or]
      exact ⟨Ne.symm hedge.2, ih.2⟩
  · rintro ⟨hpath, haround⟩
    induction hpath with
    | @root root hroot =>
      rw [List.mem_singleton] at haround
      apply RootPath.root
      rw [h.roots_eq, List.mem_filter, decide_eq_true_eq]
      exact ⟨hroot, Ne.symm haround⟩
    | step _ hedge ih =>
      rw [List.mem_cons, not_or] at haround
      apply RootPath.step (ih haround.2)
      rw [h.references_eq, List.mem_filter, decide_eq_true_eq]
      exact ⟨hedge, Ne.symm haround.1⟩

theorem reachable_cut (h : cut.CutsOff g v) (w : Nat) :
    cut.Reachable w ↔ g.Reachable w ∧ ¬ g.OnEveryPath v w := by
  unfold Reachable OnEveryPath
  simp only [rootPath_cut h, not_forall]
  refine ⟨?_, ?_⟩
  · rintro ⟨trail, hpath, haround⟩
    exact ⟨⟨trail, hpath⟩, trail, hpath, haround⟩
  · rintro ⟨_, trail, hpath, haround⟩
    exact ⟨trail, hpath, haround⟩

end HeapGraph

namespace RetainedTable

theorem bytesWhere_split (g : HeapGraph) (heap : HeapId) (picked also : Nat → Prop) :
    g.bytesWhere heap picked = (g.bytesWhere heap fun w => picked w ∧ also w) +
      g.bytesWhere heap fun w => picked w ∧ ¬ also w := by
  classical
  simp only [bytesWhere_eq, Finset.sum_filter]
  rw [← Finset.sum_add_distrib]
  apply Finset.sum_congr rfl
  intro w _
  by_cases hpicked : picked w
  · by_cases halso : also w
    · simp [hpicked, halso]
    · simp [hpicked, halso]
  · simp [hpicked]

/-- The reachable bytes are those that a node retains and those that are left without it. -/
theorem bytesWhere_cut {cut g : HeapGraph} {v : Nat} (h : cut.CutsOff g v) (heap : HeapId) :
    g.bytesWhere heap g.Reachable =
      (g.bytesWhere heap fun w => g.Reachable w ∧ g.OnEveryPath v w) +
        cut.bytesWhere heap cut.Reachable := by
  have hleft : cut.Reachable = fun w => g.Reachable w ∧ ¬ g.OnEveryPath v w := by
    funext w
    exact propext (HeapGraph.reachable_cut h w)
  rw [bytesWhere_of_nodes_eq h.nodes_eq, hleft, ← bytesWhere_split]

/-- As long as the reachable bytes are a count, a node retains what its removal frees. -/
theorem size_add_sentinel_cut {cut g : HeapGraph} {t t' : DominatorTree} {v : Nat}
    (h : cut.CutsOff g v) (ht : t.IsOf g) (ht' : t'.IsOf cut) (heap : HeapId)
    (hcount : g.bytesWhere heap g.Reachable ≤ Bytes.most) :
    ((ofTree g t).size v heap).toNat + ((ofTree cut t').sentinel heap).toNat =
      ((ofTree g t).sentinel heap).toNat := by
  have hsplit := bytesWhere_cut h heap
  rw [toNat_size ht, toNat_sentinel ht', toNat_sentinel ht]
  omega

end RetainedTable

/-! ## Cutting a node off in a recording -/

namespace Recording

/-- The call without references to an id and without the id as a root. -/
def Call.avoiding (id : NodeId) : Call → Option Call
  | .reference source target =>
    if target = id then none else some (.reference source target)
  | .references source targets => some (.references source (targets.filter (· ≠ id)))
  | .root owner kind => if owner = id then none else some (.root owner kind)
  | call => some call

/-- The recording without references to an id and without the id as a root. -/
def avoiding (r : Recording) (id : NodeId) : Recording :=
  { r with
    references := r.references.filter (·.2 ≠ id)
    roots := r.roots.filter (·.1 ≠ id) }

theorem heap_avoiding (r : Recording) (id : NodeId) (name : String) :
    ((r.avoiding id).heap name).2 = (r.heap name).2.avoiding id := by
  cases hname : r.heaps.toList.idxOf? name with
  | some slot => rw [heap_of_known r hname, heap_of_known (r.avoiding id) hname]
  | none =>
    by_cases hroom : r.heaps.size < maxHeaps
    · rw [heap_of_new r hname hroom, heap_of_new (r.avoiding id) hname hroom]
      rfl
    · rw [heap_of_full r hname hroom, heap_of_full (r.avoiding id) hname hroom]
      rfl

theorem addReference_avoiding (r : Recording) (id source target : NodeId) :
    (r.addReference source target).avoiding id =
      if target = id then r.avoiding id else (r.avoiding id).addReference source target := by
  by_cases htarget : target = id
  · simp [htarget, addReference, avoiding]
  · simp [htarget, addReference, avoiding]

theorem addReferences_avoiding (r : Recording) (id source : NodeId) (targets : List NodeId) :
    (r.addReferences source targets).avoiding id =
      (r.avoiding id).addReferences source (targets.filter (· ≠ id)) := by
  unfold addReferences
  induction targets generalizing r with
  | nil => rfl
  | cons target rest ih =>
    rw [List.foldl_cons, ih, addReference_avoiding]
    by_cases htarget : target = id
    · simp [htarget]
    · simp [htarget]

theorem addRoot_avoiding (r : Recording) (id owner : NodeId) (kind : RootKind) :
    (r.addRoot owner kind).avoiding id =
      if owner = id then r.avoiding id else (r.avoiding id).addRoot owner kind := by
  by_cases howner : owner = id
  · simp [howner, addRoot, avoiding]
  · simp [howner, addRoot, avoiding]

/-- To leave a call out is to leave out what it records. -/
theorem perform_avoiding (r : Recording) (id : NodeId) (call : Call) :
    (r.perform call).avoiding id =
      ((call.avoiding id).map (r.avoiding id).perform).getD (r.avoiding id) := by
  cases call with
  | heap name => exact (heap_avoiding r id name).symm
  | node record => rfl
  | reference source target =>
    unfold perform Call.avoiding
    rw [addReference_avoiding]
    by_cases htarget : target = id
    · simp [htarget]
    · simp [htarget]
  | references source targets => exact addReferences_avoiding r id source targets
  | root owner kind =>
    unfold perform Call.avoiding
    rw [addRoot_avoiding]
    by_cases howner : owner = id
    · simp [howner]
    · simp [howner]

theorem foldl_perform_avoiding (calls : List Call) (r : Recording) (id : NodeId) :
    (calls.filterMap (·.avoiding id)).foldl perform (r.avoiding id) =
      (calls.foldl perform r).avoiding id := by
  induction calls generalizing r with
  | nil => rfl
  | cons call rest ih =>
    rw [List.foldl_cons, ← ih, perform_avoiding, List.filterMap_cons]
    cases call.avoiding id with
    | none => rfl
    | some kept => rfl

theorem replay_avoiding (width : IdWidth) (calls : List Call) (id : NodeId) :
    replay width (calls.filterMap (·.avoiding id)) = (replay width calls).avoiding id :=
  foldl_perform_avoiding calls (start width) id

/-- What is left has no holes where there were none. -/
theorem holes_avoiding {r : Recording} {index : Std.TreeMap NodeId Nat} (id : NodeId)
    (h : r.holes index = []) : (r.avoiding id).holes index = [] := by
  rw [holes_eq_nil_iff] at h ⊢
  refine ⟨?_, ?_⟩
  · intro reference hreference
    exact h.1 reference (Array.mem_filter.mp hreference).1
  · intro root hroot
    exact h.2 root (Array.mem_filter.mp hroot).1

/-- Only one id has the place of a node. -/
theorem index_unique {roster : Roster} {ids : List NodeId} (h : roster.Lists ids) {id : NodeId}
    {v : Nat} (hv : roster.index[id]? = some v) {other : NodeId} {i : Nat}
    (hi : roster.index[other]? = some i) : i = v ↔ other = id := by
  refine ⟨?_, ?_⟩
  · rintro rfl
    have hsame := (h.index_iff other i).mp hi
    rw [(h.index_iff id i).mp hv] at hsame
    exact (Option.some.inj hsame).symm
  · rintro rfl
    rw [hi] at hv
    exact Option.some.inj hv

theorem edges_avoiding {r : Recording} {roster : Roster} (h : roster.Lists r.ids) {id : NodeId}
    {v : Nat} (hv : roster.index[id]? = some v) :
    (r.avoiding id).references.toList.filterMap (edge? roster.index) =
      (r.references.toList.filterMap (edge? roster.index)).filter (·.2 ≠ v) := by
  unfold avoiding
  rw [Array.toList_filter]
  apply filterMap_filter_of_agree
  intro reference edge hedge
  simp [index_unique h hv (edge?_eq_some_iff.mp hedge).2]

theorem roots_avoiding {r : Recording} {roster : Roster} (h : roster.Lists r.ids) {id : NodeId}
    {v : Nat} (hv : roster.index[id]? = some v) :
    (r.avoiding id).roots.toList.filterMap (root? roster.index) =
      (r.roots.toList.filterMap (root? roster.index)).filter (·.node ≠ v) := by
  unfold avoiding
  rw [Array.toList_filter]
  apply filterMap_filter_of_agree
  intro entry root hroot
  obtain ⟨node, hnode, rfl⟩ := Option.map_eq_some_iff.mp hroot
  simp [index_unique h hv hnode]

/-- What builds still builds without the references to a node, with the node cut off. -/
theorem build_avoiding {r : Recording} {g : HeapGraph} (hbuild : r.build = .ok g) {v : Nat}
    {id : NodeId} (hv : g.indexOf? id = some v) :
    ∃ cut, (r.avoiding id).build = .ok cut ∧ cut.CutsOff g v := by
  obtain ⟨hrep, htoo, hholes, hlists, hsize, hheaps, rfl⟩ := build_eq_ok_iff.mp hbuild
  have hlists' : (Roster.ofIds r.ids).Lists (r.avoiding id).ids := hlists
  have hsize' : (r.avoiding id).nodes.size ≤ maxNodes := hsize
  have hheaps' : ∀ record ∈ (r.avoiding id).nodes,
      record.heap.slot < (r.avoiding id).heaps.size := hheaps
  refine ⟨(r.avoiding id).graph (Roster.ofIds r.ids) hlists' hsize' hheaps',
    build_eq_ok_iff.mpr
      ⟨hrep, htoo, holes_avoiding id hholes, hlists', hsize', hheaps', rfl⟩, rfl, rfl, ?_, ?_⟩
  · intro u
    rw [references_graph, references_graph, edges_avoiding hlists hv, List.filter_map,
      List.filter_comm]
    rfl
  · exact roots_avoiding hlists hv

end Recording

namespace RetainedTable

/-- What a node retains of a heap, as long as its reachable bytes are a count, is what is freed
when the same calls are made without the references to the node and without the node as a root. -/
theorem a_node_retains_what_its_removal_frees (width : IdWidth) (calls : List Recording.Call)
    {g : HeapGraph} (hbuild : (Recording.replay width calls).build = .ok g) {v : Nat} {node : Node}
    (hnode : g.node? v = some node) (heap : HeapId)
    (hcount : g.bytesWhere heap g.Reachable ≤ 2 ^ 64 - 1) :
    ∃ cut t t',
      (Recording.replay width (calls.filterMap (·.avoiding node.id))).build = .ok cut ∧
      cut.nodes = g.nodes ∧ cut.heaps = g.heaps ∧
      DominatorTree.ofGraph g = .ok t ∧ DominatorTree.ofGraph cut = .ok t' ∧
      ((ofTree g t).size v heap).toNat + ((ofTree cut t').sentinel heap).toNat =
        ((ofTree g t).sentinel heap).toNat := by
  have hindex : g.indexOf? node.id = some v := by
    rw [HeapGraph.indexOf?_eq_some_iff, hnode]
    rfl
  obtain ⟨cut, hcut, h⟩ := Recording.build_avoiding hbuild hindex
  obtain ⟨t, hsearch, ht⟩ := DominatorTree.exists_tree g
  obtain ⟨t', hsearch', ht'⟩ := DominatorTree.exists_tree cut
  refine ⟨cut, t, t', ?_, h.nodes_eq, h.heaps_eq, hsearch, hsearch', ?_⟩
  · rw [Recording.replay_avoiding]
    exact hcut
  · exact size_add_sentinel_cut h ht ht' heap hcount

/-- Of the fifteen bytes of the knot, the eight that its inner node does not retain stay. -/
theorem the_knot_without_its_inner_node_keeps_eight_bytes :
    ∃ cut t', (Recording.replay .four (Recording.knot.filterMap (·.avoiding ⟨3⟩))).build = .ok cut ∧
      DominatorTree.ofGraph cut = .ok t' ∧ ((ofTree cut t').sentinel ⟨0⟩).toNat = 8 := by
  have hrun : ((Recording.replay .four Recording.knot).build.toOption.bind fun g =>
      (DominatorTree.ofGraph g).toOption.map fun t =>
        (g.node? 2, (ofTree g t).size 2 ⟨0⟩, (ofTree g t).sentinel ⟨0⟩)) =
      some (some ⟨⟨3⟩, .instanceOf none, 3, ⟨0⟩⟩, 7, 15) := by
    cbv
  obtain ⟨g, hbuild, hrest⟩ := Option.bind_eq_some_iff.mp hrun
  obtain ⟨t, hsearch, hseen⟩ := Option.map_eq_some_iff.mp hrest
  simp only [Prod.mk.injEq] at hseen
  obtain ⟨hnode, hsize, hsentinel⟩ := hseen
  obtain ⟨tree, htree, h⟩ := DominatorTree.exists_tree g
  rw [DominatorTree.eq_ok_of_toOption hsearch] at htree
  obtain rfl := Except.ok.inj htree
  -- the sentinel holds fifteen, so the sum behind it was not cut
  have hcount : g.bytesWhere ⟨0⟩ g.Reachable ≤ 2 ^ 64 - 1 := by
    have hcut := toNat_sentinel h ⟨0⟩
    rw [hsentinel] at hcut
    have hmost : Bytes.most = 2 ^ 64 - 1 := rfl
    have hfifteen : (15 : Bytes).toNat = 15 := rfl
    omega
  obtain ⟨cut, t₁, t', hcut, _, _, hfirst, hsecond, hsum⟩ :=
    a_node_retains_what_its_removal_frees .four Recording.knot
      (DominatorTree.eq_ok_of_toOption hbuild) hnode ⟨0⟩ hcount
  rw [DominatorTree.eq_ok_of_toOption hsearch] at hfirst
  obtain rfl := Except.ok.inj hfirst
  rw [hsize, hsentinel] at hsum
  refine ⟨cut, t', hcut, hsecond, ?_⟩
  have hseven : (7 : Bytes).toNat = 7 := rfl
  have hfifteen : (15 : Bytes).toNat = 15 := rfl
  omega

end RetainedTable

end HeapRetention
