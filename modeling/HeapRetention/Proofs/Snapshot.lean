-- The laws of the snapshot as a set. What is reported by ids depends on the
-- objects, heaps, roots and references that were recorded, and not on their
-- order or repeats, nor on references that cannot matter: those of an object
-- to itself and those of objects that no root keeps alive.
import HeapRetention.Proofs.Listing
import HeapRetention.Proofs.Recorded
import HeapRetention.Proofs.RetainedBytes

namespace HeapRetention

/-! ## Snapshots -/

/-- What a snapshot says, by ids and as sets. -/
@[ext]
structure Snapshot where
  /-- The objects with their sizes and the names of their heaps. -/
  objects : Set (NodeId × Bytes × Option String)
  heaps : Set String
  roots : Set NodeId
  /-- The references that can matter. -/
  references : Set (NodeId × NodeId)

namespace Recording

/-- A root keeps the object alive, by the references that calls record. -/
inductive Alive (calls : List Call) : NodeId → Prop
  | root {id : NodeId} {kind : RootKind} : (id, kind) ∈ rootsOf calls → Alive calls id
  | step {source target : NodeId} :
      Alive calls source → (source, target) ∈ edgesOf calls → Alive calls target

/-- The snapshot that calls record, with sizes for identifiers of a width. References of an object
to itself and references of objects that no root keeps alive are left out. -/
def snapshot (width : IdWidth) (calls : List Call) : Snapshot where
  objects := {object | ∃ record ∈ nodesOf calls,
    object = (record.id, record.footprint.resolve width, (heapsOf calls)[record.heap.slot]?)}
  heaps := {name | name ∈ heapsOf calls}
  roots := {id | ∃ kind, (id, kind) ∈ rootsOf calls}
  references := {edge | edge ∈ edgesOf calls ∧ edge.1 ≠ edge.2 ∧ Alive calls edge.1}

end Recording

namespace Snapshot

/-- A path of references from a root to an object: the objects that it passes, the latest first. -/
inductive Way (s : Snapshot) : List NodeId → NodeId → Prop
  | root {id : NodeId} : id ∈ s.roots → Way s [id] id
  | step {trail : List NodeId} {a b : NodeId} :
      Way s trail a → (a, b) ∈ s.references → Way s (b :: trail) b

/-- Some path leads from a root to the object. -/
def Reaches (s : Snapshot) (id : NodeId) : Prop := ∃ trail, s.Way trail id

/-- The object `d` lies on every path from a root to `id`. -/
def Guards (s : Snapshot) (d id : NodeId) : Prop := ∀ trail, s.Way trail id → d ∈ trail

/-- The immediate dominator of an object: the nearest other object on every path to it, and the
sentinel where there is none. -/
def HasParent (s : Snapshot) (id : NodeId) : Dominator NodeId → Prop
  | .sentinel => ∀ e, s.Guards e id → e = id
  | .node d => d ≠ id ∧ s.Guards d id ∧ ∀ e, e ≠ id → s.Guards e id → s.Guards e d

/-- The objects of a named heap that an object guards, with their sizes. -/
def guarded (s : Snapshot) (id : NodeId) (name : String) : Set (NodeId × Bytes) :=
  {share | (share.1, share.2, some name) ∈ s.objects ∧ s.Reaches share.1 ∧ s.Guards id share.1}

/-- The bytes of a named heap that an object retains. -/
noncomputable def retained (s : Snapshot) (id : NodeId) (name : String) : Bytes :=
  Bytes.clamp (∑ᶠ share ∈ s.guarded id name, share.2.toNat)

end Snapshot

/-! ## The snapshot of a graph -/

namespace HeapGraph

/-- The graph has the objects, heaps, roots and references of a snapshot under their ids. -/
structure Shows (g : HeapGraph) (s : Snapshot) : Prop where
  mem_objects : ∀ id size name, (id, size, name) ∈ s.objects ↔
    ∃ node ∈ g.nodes, node.id = id ∧ node.size = size ∧ g.heapName? node.heap = name
  mem_heaps : ∀ name, name ∈ s.heaps ↔ name ∈ g.heaps
  mem_roots : ∀ id, id ∈ s.roots ↔ ∃ root ∈ g.roots, g.indexOf? id = some root.node
  mem_references : ∀ a b, (a, b) ∈ s.references ↔ a ≠ b ∧
    ∃ i j, g.indexOf? a = some i ∧ g.indexOf? b = some j ∧ g.Reachable i ∧ j ∈ g.references i

end HeapGraph

namespace Recording

section Built

variable {width : IdWidth} {calls : List Call} {g : HeapGraph}
  (h : (replay width calls).build = .ok g)

include h

theorem alive_iff_reachable {id : NodeId} :
    Alive calls id ↔ ∃ i, g.indexOf? id = some i ∧ g.Reachable i := by
  refine ⟨?_, ?_⟩
  · intro halive
    induction halive with
    | @root id kind hroot =>
      rw [← roots_replay width] at hroot
      obtain ⟨i, hi⟩ := exists_root h hroot
      obtain ⟨root, hmem, rfl⟩ := (mem_roots_built h hi).mpr ⟨kind, hroot⟩
      exact ⟨root.node, hi, HeapGraph.reachable_root hmem⟩
    | @step a b _ hedge ih =>
      obtain ⟨i, hi, trail, hpath⟩ := ih
      rw [← references_replay width] at hedge
      obtain ⟨edge, hresolved⟩ := exists_edge h hedge
      have hb : g.indexOf? b = some edge.2 := (edge?_eq_some_iff.mp hresolved).2
      exact ⟨edge.2, hb, _,
        HeapGraph.RootPath.step hpath ((mem_references_built h hi hb).mpr hedge)⟩
  · rintro ⟨i, hi, trail, hpath⟩
    induction hpath generalizing id with
    | @root root hroot =>
      obtain ⟨kind, hkind⟩ := (mem_roots_built h hi).mp ⟨root, hroot, rfl⟩
      rw [roots_replay] at hkind
      exact Alive.root hkind
    | @step trail u v hpath hedge ih =>
      obtain ⟨a, ha⟩ := HeapGraph.exists_id (HeapGraph.reachable_lt ⟨trail, hpath⟩)
      have hrecorded := (mem_references_built h ha hi).mp hedge
      rw [references_replay] at hrecorded
      exact Alive.step (ih ha) hrecorded

/-- What was built shows the snapshot that was recorded. -/
theorem shows_built : g.Shows (snapshot width calls) := by
  obtain ⟨hheaps, hroom⟩ := heaps_built h
  have htable := heaps_replay hroom
  refine ⟨?objects, ?heaps, ?roots, ?references⟩
  case objects =>
    intro id size name
    have hname : ∀ heap, g.heapName? heap = (heapsOf calls)[heap.slot]? := by
      intro heap
      rw [HeapGraph.heapName?, hheaps, ← Array.getElem?_toList, htable]
    have hnodes : ∀ node,
        node ∈ g.nodes ↔ ∃ record ∈ nodesOf calls, record.resolve width = node := by
      intro node
      rw [nodes_built h, width_replay, Array.mem_map]
      simp only [← Array.mem_toList_iff, nodes_replay]
    refine ⟨?_, ?_⟩
    · rintro ⟨record, hrecord, hobject⟩
      obtain ⟨hid, hsize, hheap⟩ := by simpa only [Prod.mk.injEq] using hobject
      exact ⟨record.resolve width, (hnodes _).mpr ⟨record, hrecord, rfl⟩, hid.symm, hsize.symm,
        (hname record.heap).trans hheap.symm⟩
    · rintro ⟨node, hnode, rfl, rfl, rfl⟩
      obtain ⟨record, hrecord, rfl⟩ := (hnodes node).mp hnode
      refine ⟨record, hrecord, ?_⟩
      rw [hname]
      rfl
  case heaps =>
    intro name
    rw [hheaps, ← Array.mem_toList_iff, htable]
    rfl
  case roots =>
    intro id
    refine ⟨?_, ?_⟩
    · rintro ⟨kind, hkind⟩
      rw [← roots_replay width] at hkind
      obtain ⟨i, hi⟩ := exists_root h hkind
      obtain ⟨root, hroot, rfl⟩ := (mem_roots_built h hi).mpr ⟨kind, hkind⟩
      exact ⟨root, hroot, hi⟩
    · rintro ⟨root, hroot, hi⟩
      obtain ⟨kind, hkind⟩ := (mem_roots_built h hi).mp ⟨root, hroot, rfl⟩
      exact ⟨kind, roots_replay width calls ▸ hkind⟩
  case references =>
    intro a b
    refine ⟨?_, ?_⟩
    · rintro ⟨hedge, hne, halive⟩
      obtain ⟨i, hi, hreach⟩ := (alive_iff_reachable h).mp halive
      rw [← references_replay width] at hedge
      obtain ⟨edge, hresolved⟩ := exists_edge h hedge
      have hb : g.indexOf? b = some edge.2 := (edge?_eq_some_iff.mp hresolved).2
      exact ⟨hne, i, edge.2, hi, hb, hreach, (mem_references_built h hi hb).mpr hedge⟩
    · rintro ⟨hne, i, j, hi, hj, hreach, hmem⟩
      have hedge := (mem_references_built h hi hj).mp hmem
      rw [references_replay] at hedge
      exact ⟨hedge, hne, (alive_iff_reachable h).mpr ⟨i, hi, hreach⟩⟩

end Built

end Recording

/-! ## Exports -/

theorem HeapGraph.nodup_keys {g : HeapGraph} {β : Type} {lookup : Nat → Option (NodeId × β)}
    (hkey : ∀ i entry, lookup i = some entry → g.indexOf? entry.1 = some i) {order : List Nat}
    (hnodup : order.Nodup) : ((order.filterMap lookup).map Prod.fst).Nodup := by
  rw [List.map_filterMap]
  refine List.Nodup.filterMap ?_ hnodup
  intro i j id hi hj
  obtain ⟨entry, hentry, rfl⟩ := Option.map_eq_some_iff.mp hi
  obtain ⟨entry', hentry', hsame⟩ := Option.map_eq_some_iff.mp hj
  have hplace := hkey j entry' hentry'
  rw [hsame] at hplace
  exact Option.some.inj ((hkey i entry hentry).symm.trans hplace)

/-! ## Paths by ids -/

namespace HeapGraph

section Shown

variable {g : HeapGraph} {s : Snapshot} (h : g.Shows s)

include h

/-- A path of the graph, without the steps from a node to itself, is a path by ids. -/
theorem way_of_rootPath {trail : List Nat} {i : Nat} (hpath : g.RootPath trail i) {id : NodeId}
    (hi : g.indexOf? id = some i) :
    ∃ ids, s.Way ids id ∧ ∀ x ∈ ids, ∃ k ∈ trail, g.indexOf? x = some k := by
  induction hpath generalizing id with
  | @root root hroot =>
    refine ⟨[id], Snapshot.Way.root ((h.mem_roots id).mpr ⟨root, hroot, hi⟩), ?_⟩
    intro x hx
    obtain rfl := List.mem_singleton.mp hx
    exact ⟨root.node, List.mem_cons_self, hi⟩
  | @step trail u v hpath hedge ih =>
    have hu : g.Reachable u := ⟨trail, hpath⟩
    obtain ⟨a, ha⟩ := exists_id (reachable_lt hu)
    obtain ⟨ids, hway, hon⟩ := ih ha
    have hbefore : ∀ x ∈ ids, ∃ k ∈ v :: trail, g.indexOf? x = some k := by
      intro x hx
      obtain ⟨k, hk, hplace⟩ := hon x hx
      exact ⟨k, List.mem_cons_of_mem _ hk, hplace⟩
    by_cases hsame : a = id
    · exact ⟨ids, hsame ▸ hway, hbefore⟩
    · refine ⟨id :: ids, Snapshot.Way.step hway
        ((h.mem_references a id).mpr ⟨hsame, u, v, ha, hi, hu, hedge⟩), ?_⟩
      intro x hx
      rcases List.mem_cons.mp hx with rfl | hrest
      · exact ⟨v, List.mem_cons_self, hi⟩
      · exact hbefore x hrest

/-- A path by ids is a path of the graph. -/
theorem rootPath_of_way {ids : List NodeId} {id : NodeId} (hway : s.Way ids id) :
    ∃ trail i, g.indexOf? id = some i ∧ g.RootPath trail i ∧
      ∀ k ∈ trail, ∃ x ∈ ids, g.indexOf? x = some k := by
  induction hway with
  | @root id hroot =>
    obtain ⟨root, hmem, hi⟩ := (h.mem_roots id).mp hroot
    refine ⟨[root.node], root.node, hi, RootPath.root hmem, ?_⟩
    intro k hk
    obtain rfl := List.mem_singleton.mp hk
    exact ⟨id, List.mem_cons_self, hi⟩
  | @step ids a b _ hedge ih =>
    obtain ⟨trail, i, ha, hpath, hon⟩ := ih
    obtain ⟨_, i', j, ha', hb, _, hmem⟩ := (h.mem_references a b).mp hedge
    obtain rfl := Option.some.inj (ha.symm.trans ha')
    refine ⟨j :: trail, j, hb, RootPath.step hpath hmem, ?_⟩
    intro k hk
    rcases List.mem_cons.mp hk with rfl | hrest
    · exact ⟨b, List.mem_cons_self, hb⟩
    · obtain ⟨x, hx, hplace⟩ := hon k hrest
      exact ⟨x, List.mem_cons_of_mem _ hx, hplace⟩

theorem reaches_iff {id : NodeId} {i : Nat} (hi : g.indexOf? id = some i) :
    s.Reaches id ↔ g.Reachable i := by
  refine ⟨?_, ?_⟩
  · rintro ⟨ids, hway⟩
    obtain ⟨trail, i', hi', hpath, _⟩ := rootPath_of_way h hway
    obtain rfl := Option.some.inj (hi.symm.trans hi')
    exact ⟨trail, hpath⟩
  · rintro ⟨trail, hpath⟩
    obtain ⟨ids, hway, _⟩ := way_of_rootPath h hpath hi
    exact ⟨ids, hway⟩

theorem exists_index {id : NodeId} (hreach : s.Reaches id) : ∃ i, g.indexOf? id = some i := by
  obtain ⟨ids, hway⟩ := hreach
  obtain ⟨_, i, hi, _⟩ := rootPath_of_way h hway
  exact ⟨i, hi⟩

theorem guards_iff {d id : NodeId} {k i : Nat} (hd : g.indexOf? d = some k)
    (hi : g.indexOf? id = some i) : s.Guards d id ↔ g.OnEveryPath k i := by
  refine ⟨?_, ?_⟩
  · intro hguards trail hpath
    obtain ⟨ids, hway, hon⟩ := way_of_rootPath h hpath hi
    obtain ⟨k', hk', hplace⟩ := hon d (hguards ids hway)
    obtain rfl := Option.some.inj (hd.symm.trans hplace)
    exact hk'
  · intro hevery ids hway
    obtain ⟨trail, i', hi', hpath, hon⟩ := rootPath_of_way h hway
    obtain rfl := Option.some.inj (hi.symm.trans hi')
    obtain ⟨x, hx, hplace⟩ := hon k (hevery trail hpath)
    rwa [indexOf?_inj hd hplace]

/-- What is on every path to a reachable object is in the graph. -/
theorem exists_index_of_guards {d id : NodeId} (hreach : s.Reaches id) (hguards : s.Guards d id) :
    ∃ k, g.indexOf? d = some k := by
  obtain ⟨i, hi⟩ := exists_index h hreach
  obtain ⟨trail, hpath⟩ := (reaches_iff h hi).mp hreach
  obtain ⟨ids, hway, hon⟩ := way_of_rootPath h hpath hi
  obtain ⟨k, _, hk⟩ := hon d (hguards ids hway)
  exact ⟨k, hk⟩

end Shown

theorem dominatorId?_eq_sentinel {g : HeapGraph} {dominator : Dominator Nat} :
    g.dominatorId? dominator = some .sentinel ↔ dominator = .sentinel := by
  cases dominator with
  | sentinel => simp [dominatorId?]
  | node k => simp [dominatorId?]

theorem dominatorId?_eq_node {g : HeapGraph} {dominator : Dominator Nat} {d : NodeId} :
    g.dominatorId? dominator = some (.node d) ↔
      ∃ k, dominator = .node k ∧ g.indexOf? d = some k := by
  cases dominator with
  | sentinel => simp [dominatorId?]
  | node k => simp [dominatorId?, indexOf?_eq_some_iff]

end HeapGraph

/-! ## The tree by ids -/

namespace DominatorTree

section Tree

variable {t : DominatorTree} {g : HeapGraph} (ht : t.IsOf g)

include ht

theorem mem_byId {id : NodeId} {parent : Dominator NodeId} :
    (id, parent) ∈ t.byId g ↔ ∃ i, g.indexOf? id = some i ∧ g.Reachable i ∧
      ∃ dominator, t.get? i = some dominator ∧ g.dominatorId? dominator = some parent := by
  unfold byId
  simp only [List.mem_mergeSort, List.mem_filterMap]
  refine ⟨?_, ?_⟩
  · rintro ⟨⟨i, dominator⟩, hmem, hentry⟩
    obtain ⟨hreach, hget⟩ := (mem_toList ht).mp hmem
    obtain ⟨node, hnode, hrest⟩ := Option.bind_eq_some_iff.mp hentry
    obtain ⟨named, hnamed, hpair⟩ := Option.bind_eq_some_iff.mp hrest
    obtain ⟨rfl, rfl⟩ := Prod.mk.inj (Option.some.inj hpair)
    refine ⟨i, g.indexOf?_eq_some_iff.mpr ?_, hreach, dominator, hget, hnamed⟩
    rw [hnode]
    rfl
  · rintro ⟨i, hi, hreach, dominator, hget, hnamed⟩
    obtain ⟨node, hnode, rfl⟩ := Option.map_eq_some_iff.mp (g.indexOf?_eq_some_iff.mp hi)
    refine ⟨(i, dominator), (mem_toList ht).mpr ⟨hreach, hget⟩, ?_⟩
    simp [hnode, hnamed]

theorem nodup_keys_byId : ((t.byId g).map Prod.fst).Nodup := by
  unfold byId toList
  simp only
  rw [((List.mergeSort_perm _ _).map Prod.fst).nodup_iff, List.filterMap_filterMap]
  refine HeapGraph.nodup_keys (g := g) ?_ ht.nodup_order
  intro i entry hentry
  obtain ⟨⟨j, dominator⟩, hj, hrest⟩ := Option.bind_eq_some_iff.mp hentry
  obtain ⟨_, _, heq⟩ := Option.map_eq_some_iff.mp hj
  obtain ⟨rfl, rfl⟩ := Prod.mk.inj heq
  obtain ⟨node, hnode, hrest⟩ := Option.bind_eq_some_iff.mp hrest
  obtain ⟨named, _, hpair⟩ := Option.bind_eq_some_iff.mp hrest
  obtain rfl := Option.some.inj hpair
  rw [g.indexOf?_eq_some_iff, hnode]
  rfl

section Shown

variable {s : Snapshot} (hs : g.Shows s)

include hs

theorem hasParent_sentinel_iff {id : NodeId} {i : Nat} (hi : g.indexOf? id = some i)
    (hreach : g.Reachable i) : t.get? i = some .sentinel ↔ s.HasParent id .sentinel := by
  rw [parent_sentinel_iff ht hreach, Snapshot.HasParent]
  refine ⟨?_, ?_⟩
  · intro halone e he
    have hreaches := (HeapGraph.reaches_iff hs hi).mpr hreach
    obtain ⟨k, hk⟩ := HeapGraph.exists_index_of_guards hs hreaches he
    have hsame := halone k ((HeapGraph.guards_iff hs hk hi).mp he)
    exact HeapGraph.indexOf?_inj (hsame ▸ hk) hi
  · intro halone k hk
    obtain ⟨e, he⟩ := HeapGraph.exists_id (HeapGraph.onEveryPath_lt hreach hk)
    have hsame := halone e ((HeapGraph.guards_iff hs he hi).mpr hk)
    exact Option.some.inj (he.symm.trans (hsame ▸ hi))

theorem hasParent_node_iff {id d : NodeId} {i : Nat} (hi : g.indexOf? id = some i)
    (hreach : g.Reachable i) :
    (∃ k, t.get? i = some (.node k) ∧ g.indexOf? d = some k) ↔ s.HasParent id (.node d) := by
  have hreaches := (HeapGraph.reaches_iff hs hi).mpr hreach
  refine ⟨?_, ?_⟩
  · rintro ⟨k, hget, hk⟩
    obtain ⟨hne, hevery, hnearest⟩ := (parent_node_iff ht hreach k).mp hget
    refine ⟨?_, (HeapGraph.guards_iff hs hk hi).mpr hevery, ?_⟩
    · rintro rfl
      exact hne (Option.some.inj (hk.symm.trans hi))
    · intro e hei he
      obtain ⟨j, hj⟩ := HeapGraph.exists_index_of_guards hs hreaches he
      have hji : j ≠ i := by
        rintro rfl
        exact hei (HeapGraph.indexOf?_inj hj hi)
      exact (HeapGraph.guards_iff hs hj hk).mpr
        (hnearest j hji ((HeapGraph.guards_iff hs hj hi).mp he))
  · rintro ⟨hne, hguards, hnearest⟩
    obtain ⟨k, hk⟩ := HeapGraph.exists_index_of_guards hs hreaches hguards
    refine ⟨k, (parent_node_iff ht hreach k).mpr ⟨?_, ?_, ?_⟩, hk⟩
    · rintro rfl
      exact hne (HeapGraph.indexOf?_inj hk hi)
    · exact (HeapGraph.guards_iff hs hk hi).mp hguards
    · intro j hji hj
      obtain ⟨e, he⟩ := HeapGraph.exists_id (HeapGraph.onEveryPath_lt hreach hj)
      have hei : e ≠ id := by
        rintro rfl
        exact hji (Option.some.inj (he.symm.trans hi))
      exact (HeapGraph.guards_iff hs he hk).mp
        (hnearest e hei ((HeapGraph.guards_iff hs he hi).mpr hj))

/-- The export by ids has the reachable objects with their immediate dominators. -/
theorem mem_byId_iff_hasParent {id : NodeId} {parent : Dominator NodeId} :
    (id, parent) ∈ t.byId g ↔ s.Reaches id ∧ s.HasParent id parent := by
  have hfound : ∀ i, g.indexOf? id = some i → g.Reachable i →
      ((∃ dominator, t.get? i = some dominator ∧ g.dominatorId? dominator = some parent) ↔
        s.HasParent id parent) := by
    intro i hi hreach
    cases parent with
    | sentinel =>
      rw [← hasParent_sentinel_iff ht hs hi hreach]
      simp [HeapGraph.dominatorId?_eq_sentinel]
    | node d =>
      rw [← hasParent_node_iff ht hs hi hreach]
      simp only [HeapGraph.dominatorId?_eq_node]
      grind
  rw [mem_byId ht]
  refine ⟨?_, ?_⟩
  · rintro ⟨i, hi, hreach, hdominator⟩
    exact ⟨(HeapGraph.reaches_iff hs hi).mpr hreach, (hfound i hi hreach).mp hdominator⟩
  · rintro ⟨hreaches, hparent⟩
    obtain ⟨i, hi⟩ := HeapGraph.exists_index hs hreaches
    have hreach := (HeapGraph.reaches_iff hs hi).mp hreaches
    exact ⟨i, hi, hreach, (hfound i hi hreach).mpr hparent⟩

end Shown

end Tree

theorem pairwise_byId (t : DominatorTree) (g : HeapGraph) :
    (t.byId g).Pairwise fun a b => a.1 ≤ b.1 := pairwise_mergeSort_key Prod.fst _

/-- Trees of graphs that show the same snapshot are the same by ids. -/
theorem byId_eq {t t' : DominatorTree} {g g' : HeapGraph} {s : Snapshot} (ht : t.IsOf g)
    (ht' : t'.IsOf g') (hs : g.Shows s) (hs' : g'.Shows s) : t.byId g = t'.byId g' := by
  refine eq_of_sorted_keys Prod.fst (pairwise_byId t g) (pairwise_byId t' g')
    (nodup_keys_byId ht) (nodup_keys_byId ht') ?_
  rintro ⟨id, parent⟩
  rw [mem_byId_iff_hasParent ht hs, mem_byId_iff_hasParent ht' hs']

end DominatorTree

/-! ## Retained sizes by ids -/

namespace HeapGraph

variable {g : HeapGraph}

theorem heapName?_inj {heap heap' : HeapId} {name : String} (h : g.heapName? heap = some name)
    (h' : g.heapName? heap' = some name) : heap = heap' := by
  rw [heapName?, ← Array.getElem?_toList] at h h'
  exact eq_of_getElem?_slot g.heaps_nodup h h'

theorem heapName?_of_mem {name : String} {heap : HeapId} (h : (name, heap) ∈ g.heapsByName) :
    g.heapName? heap = some name := by
  unfold heapsByName heapIds at h
  rw [List.mem_mergeSort, List.mem_iff_getElem?] at h
  obtain ⟨slot, hslot⟩ := h
  obtain ⟨hname, hheap⟩ := List.getElem?_zip_eq_some.mp hslot
  obtain ⟨place, hplace, rfl⟩ := Option.map_eq_some_iff.mp (List.getElem?_map ▸ hheap)
  obtain ⟨hlt, hrange⟩ := List.getElem?_eq_some_iff.mp hplace
  rw [List.getElem_range] at hrange
  rw [List.length_range] at hlt
  rw [heapName?, g.slot_ofSlot (hrange ▸ hlt), ← hrange, ← Array.getElem?_toList, hname]

theorem names_heapsByName (g : HeapGraph) :
    g.heapsByName.map Prod.fst = g.heaps.toList.mergeSort fun a b => decide (a ≤ b) := by
  have hzip : (g.heaps.toList.zip g.heapIds).map Prod.fst = g.heaps.toList :=
    List.map_fst_zip (by simp [heapIds])
  have hmap := List.map_mergeSort (f := Prod.fst) (l := g.heaps.toList.zip g.heapIds)
    (r := fun a b => decide (a.1 ≤ b.1)) (s := fun a b => decide (a ≤ b)) fun _ _ _ _ => rfl
  rw [heapsByName, hmap, hzip]

/-- Graphs that show the same snapshot list the same heap names. -/
theorem names_eq {g' : HeapGraph} {s : Snapshot} (hs : g.Shows s) (hs' : g'.Shows s) :
    g.heapsByName.map Prod.fst = g'.heapsByName.map Prod.fst := by
  have hnodup : ∀ g : HeapGraph,
      ((g.heaps.toList.mergeSort fun a b => decide (a ≤ b)).map id).Nodup := by
    intro g
    rw [List.map_id, (List.mergeSort_perm _ _).nodup_iff]
    exact g.heaps_nodup
  rw [names_heapsByName, names_heapsByName]
  refine eq_of_sorted_keys id (pairwise_mergeSort_key id _) (pairwise_mergeSort_key id _)
    (hnodup g) (hnodup g') ?_
  intro name
  rw [List.mem_mergeSort, List.mem_mergeSort, Array.mem_toList_iff, Array.mem_toList_iff,
    ← hs.mem_heaps, ← hs'.mem_heaps]

section Shown

variable {s : Snapshot} (hs : g.Shows s)

include hs

/-- The objects that an object guards are the nodes that have its node on every path. -/
theorem mem_guarded {id other : NodeId} {i : Nat} (hi : g.indexOf? id = some i) {heap : HeapId}
    {name : String} (hname : g.heapName? heap = some name) {size : Bytes} :
    (other, size) ∈ s.guarded id name ↔ ∃ w, ∃ hw : w < g.nodes.size,
      (g.Reachable w ∧ g.OnEveryPath i w) ∧ g.nodes[w].heap = heap ∧
        g.nodes[w].id = other ∧ g.nodes[w].size = size := by
  simp only [Snapshot.guarded, Set.mem_ofPred_eq, hs.mem_objects]
  refine ⟨?_, ?_⟩
  · rintro ⟨⟨node, hnode, rfl, rfl, hheap⟩, hreaches, hguards⟩
    obtain ⟨w, hw, rfl⟩ := Array.mem_iff_getElem.mp hnode
    have hplace := g.indexOf?_getElem hw
    exact ⟨w, hw, ⟨(reaches_iff hs hplace).mp hreaches, (guards_iff hs hi hplace).mp hguards⟩,
      heapName?_inj hheap hname, rfl, rfl⟩
  · rintro ⟨w, hw, ⟨hreach, hevery⟩, hheap, rfl, rfl⟩
    have hplace := g.indexOf?_getElem hw
    exact ⟨⟨g.nodes[w], Array.getElem_mem hw, rfl, rfl, hheap ▸ hname⟩,
      (reaches_iff hs hplace).mpr hreach, (guards_iff hs hi hplace).mpr hevery⟩

theorem bytesWhere_eq_finsum {id : NodeId} {i : Nat} (hi : g.indexOf? id = some i) {heap : HeapId}
    {name : String} (hname : g.heapName? heap = some name) :
    (g.bytesWhere heap fun w => g.Reachable w ∧ g.OnEveryPath i w) =
      ∑ᶠ share ∈ s.guarded id name, share.2.toNat := by
  have himage : s.guarded id name =
      (fun w : Fin g.nodes.size => (g.nodes[w].id, g.nodes[w].size)) ''
        {w | (g.Reachable w ∧ g.OnEveryPath i w) ∧ g.nodes[w].heap = heap} := by
    ext ⟨other, size⟩
    rw [mem_guarded hs hi hname]
    refine ⟨?_, ?_⟩
    · rintro ⟨w, hw, hguards, hheap, hid, hsize⟩
      exact ⟨⟨w, hw⟩, ⟨hguards, hheap⟩, Prod.ext hid hsize⟩
    · rintro ⟨w, ⟨hguards, hheap⟩, hsame⟩
      obtain ⟨hid, hsize⟩ := Prod.mk.inj hsame
      exact ⟨w.val, w.isLt, hguards, hheap, hid, hsize⟩
  have hinj : ∀ w w' : Fin g.nodes.size, g.nodes[w].id = g.nodes[w'].id → w = w' := by
    intro w w' hid
    have hplace' := g.indexOf?_getElem w'.isLt
    rw [← Fin.getElem_fin, ← hid] at hplace'
    exact Fin.ext (Option.some.inj ((g.indexOf?_getElem w.isLt).symm.trans hplace'))
  rw [himage, finsum_mem_image, bytesWhere, ← finsum_mem_coe_finset]
  · simp
  · intro w _ w' _ hsame
    exact hinj w w' (Prod.mk.inj hsame).1

end Shown

end HeapGraph

namespace RetainedTable

section Tree

variable {t : DominatorTree} {g : HeapGraph} {s : Snapshot} (ht : t.IsOf g) (hs : g.Shows s)

include ht hs

theorem size_eq_retained {id : NodeId} {i : Nat} (hi : g.indexOf? id = some i) {heap : HeapId}
    {name : String} (hname : g.heapName? heap = some name) :
    (ofTree g t).size i heap = s.retained id name := by
  apply UInt64.toNat_inj.mp
  rw [toNat_size ht, HeapGraph.bytesWhere_eq_finsum hs hi hname, Snapshot.retained,
    Bytes.toNat_clamp]

theorem byName_eq {id : NodeId} {i : Nat} (hi : g.indexOf? id = some i) :
    (ofTree g t).byName g i =
      (g.heapsByName.map Prod.fst).map fun name => (name, s.retained id name) := by
  unfold byName
  rw [List.map_map]
  apply List.map_congr_left
  rintro ⟨name, heap⟩ hmem
  simp [size_eq_retained ht hs hi (HeapGraph.heapName?_of_mem hmem)]

/-- The export by ids has the reachable objects with what they retain of each heap. -/
theorem mem_byId {id : NodeId} {shares : List (String × Bytes)} :
    (id, shares) ∈ (ofTree g t).byId g t ↔ s.Reaches id ∧
      shares = (g.heapsByName.map Prod.fst).map fun name => (name, s.retained id name) := by
  unfold byId
  simp only [List.mem_mergeSort, List.mem_filterMap, ht.mem_order]
  refine ⟨?_, ?_⟩
  · rintro ⟨i, hreach, hentry⟩
    obtain ⟨node, hnode, heq⟩ := Option.map_eq_some_iff.mp hentry
    obtain ⟨rfl, rfl⟩ := Prod.mk.inj heq
    have hi : g.indexOf? node.id = some i := g.indexOf?_eq_some_iff.mpr (by rw [hnode]; rfl)
    exact ⟨(HeapGraph.reaches_iff hs hi).mpr hreach, byName_eq ht hs hi⟩
  · rintro ⟨hreaches, rfl⟩
    obtain ⟨i, hi⟩ := HeapGraph.exists_index hs hreaches
    obtain ⟨node, hnode, hid⟩ := Option.map_eq_some_iff.mp (g.indexOf?_eq_some_iff.mp hi)
    refine ⟨i, (HeapGraph.reaches_iff hs hi).mp hreaches, ?_⟩
    rw [hnode, Option.map_some, byName_eq ht hs hi, hid]

omit hs in
theorem nodup_keys_byId : (((ofTree g t).byId g t).map Prod.fst).Nodup := by
  unfold byId
  simp only
  rw [((List.mergeSort_perm _ _).map Prod.fst).nodup_iff]
  refine HeapGraph.nodup_keys (g := g) ?_ ht.nodup_order
  intro i entry hentry
  obtain ⟨node, hnode, rfl⟩ := Option.map_eq_some_iff.mp hentry
  rw [g.indexOf?_eq_some_iff, hnode]
  rfl

end Tree

theorem pairwise_byId (table : RetainedTable) (g : HeapGraph) (t : DominatorTree) :
    (table.byId g t).Pairwise fun a b => a.1 ≤ b.1 := pairwise_mergeSort_key Prod.fst _

/-- Tables of graphs that show the same snapshot are the same by ids. -/
theorem byId_eq {t t' : DominatorTree} {g g' : HeapGraph} {s : Snapshot} (ht : t.IsOf g)
    (ht' : t'.IsOf g') (hs : g.Shows s) (hs' : g'.Shows s) :
    (ofTree g t).byId g t = (ofTree g' t').byId g' t' := by
  refine eq_of_sorted_keys Prod.fst (pairwise_byId _ g t) (pairwise_byId _ g' t')
    (nodup_keys_byId ht) (nodup_keys_byId ht') ?_
  rintro ⟨id, shares⟩
  rw [mem_byId ht hs, mem_byId ht' hs', HeapGraph.names_eq hs hs']

end RetainedTable

/-! ## The laws -/

namespace Recording

/-- What is reported by ids is the same for any two recordings of one snapshot, in whatever order
and how often they record its objects, heaps, roots and references, of whatever kinds its objects
and roots are, and whatever else refers to itself or is kept alive by no root. -/
theorem answers_depend_on_the_snapshot_alone {width width' : IdWidth} {calls calls' : List Call}
    {g g' : HeapGraph} (hbuild : (replay width calls).build = .ok g)
    (hbuild' : (replay width' calls').build = .ok g')
    (hsame : snapshot width calls = snapshot width' calls') :
    ∃ t t', DominatorTree.ofGraph g = .ok t ∧ DominatorTree.ofGraph g' = .ok t' ∧
      t.byId g = t'.byId g' ∧
      (RetainedTable.ofTree g t).byId g t = (RetainedTable.ofTree g' t').byId g' t' := by
  obtain ⟨t, hsearch, ht⟩ := DominatorTree.exists_tree g
  obtain ⟨t', hsearch', ht'⟩ := DominatorTree.exists_tree g'
  have hs := shows_built hbuild
  have hs' := hsame ▸ shows_built hbuild'
  exact ⟨t, t', hsearch, hsearch', DominatorTree.byId_eq ht ht' hs hs',
    RetainedTable.byId_eq ht ht' hs hs'⟩

/-- One object that a root keeps alive through another, and one that is lost. -/
def tidy : List Call :=
  [.heap "app", .heap "zygote", .node ⟨⟨1⟩, ⟨0⟩, .instanceOf none, .fields [.object]⟩,
    .node ⟨⟨2⟩, ⟨1⟩, .instanceOf none, .bytes 9⟩, .node ⟨⟨3⟩, ⟨0⟩, .instanceOf none, .bytes 5⟩,
    .reference ⟨1⟩ ⟨2⟩, .root ⟨1⟩ .unknown]

/-- The same snapshot in another order, with repeats, with a reference of an object to itself and
with a reference of the lost object. -/
def untidy : List Call :=
  [.root ⟨1⟩ .threadObject, .references ⟨3⟩ [⟨2⟩], .references ⟨2⟩ [⟨2⟩], .heap "zygote",
    .node ⟨⟨3⟩, ⟨1⟩, .classObject "A", .bytes 5⟩, .reference ⟨1⟩ ⟨2⟩, .heap "app", .heap "zygote",
    .node ⟨⟨2⟩, ⟨0⟩, .instanceOf none, .bytes 9⟩, .reference ⟨1⟩ ⟨2⟩, .root ⟨1⟩ .jniLocal,
    .node ⟨⟨1⟩, ⟨1⟩, .instanceOf none, .bytes 8⟩]

theorem snapshot_tidy : snapshot .eight tidy = snapshot .four untidy := by
  have hentry : (⟨1⟩, .unknown) ∈ rootsOf tidy := by decide
  have hentry' : (⟨1⟩, .threadObject) ∈ rootsOf untidy := by decide
  have hroot : Alive tidy ⟨1⟩ := Alive.root hentry
  have hroot' : Alive untidy ⟨1⟩ := Alive.root hentry'
  have hlost : ¬ Alive untidy ⟨3⟩ := by
    intro h
    cases h with
    | root hmem => simp [rootsOf, untidy, Call.roots] at hmem
    | step _ hmem => simp [edgesOf, untidy, Call.edges] at hmem
  have hheaps : heapsOf tidy = ["app", "zygote"] := rfl
  have hheaps' : heapsOf untidy = ["zygote", "app"] := rfl
  have hobjects : (snapshot .eight tidy).objects = (snapshot .four untidy).objects := by
    ext object
    simp only [snapshot, hheaps, hheaps']
    simp only [nodesOf, tidy, untidy, Call.nodes, List.flatMap_cons, List.flatMap_nil,
      List.nil_append, List.cons_append, Set.mem_ofPred_eq, List.mem_cons, List.not_mem_nil,
      or_false, exists_eq_or_imp, exists_eq_left]
    change object = (⟨1⟩, 8, some "app") ∨ object = (⟨2⟩, 9, some "zygote") ∨
      object = (⟨3⟩, 5, some "app") ↔ object = (⟨3⟩, 5, some "app") ∨
      object = (⟨2⟩, 9, some "zygote") ∨ object = (⟨1⟩, 8, some "app")
    tauto
  have hnames : (snapshot .eight tidy).heaps = (snapshot .four untidy).heaps := by
    ext name
    simp only [snapshot, hheaps, hheaps']
    simp [or_comm]
  have hroots : (snapshot .eight tidy).roots = (snapshot .four untidy).roots := by
    ext id
    have hone : rootsOf tidy = [(⟨1⟩, .unknown)] := rfl
    have htwo : rootsOf untidy = [(⟨1⟩, .threadObject), (⟨1⟩, .jniLocal)] := rfl
    simp only [snapshot, hone, htwo]
    simp [exists_or]
  have hreferences : (snapshot .eight tidy).references = (snapshot .four untidy).references := by
    ext ⟨a, b⟩
    have hone : edgesOf tidy = [(⟨1⟩, ⟨2⟩)] := rfl
    have hfour : edgesOf untidy = [(⟨3⟩, ⟨2⟩), (⟨2⟩, ⟨2⟩), (⟨1⟩, ⟨2⟩), (⟨1⟩, ⟨2⟩)] := rfl
    simp only [snapshot, hone, hfour, Set.mem_ofPred_eq, List.mem_cons, List.not_mem_nil, or_false,
      Prod.mk.injEq]
    grind
  exact Snapshot.ext hobjects hnames hroots hreferences

/-- The untidy calls have the answers of the tidy ones. -/
theorem untidy_calls_have_the_answers_of_tidy_ones :
    ∃ g t, (replay .four untidy).build = .ok g ∧ DominatorTree.ofGraph g = .ok t ∧
      t.byId g = [(⟨1⟩, .sentinel), (⟨2⟩, .node ⟨1⟩)] ∧
      (RetainedTable.ofTree g t).byId g t =
        [(⟨1⟩, [("app", 8), ("zygote", 9)]), (⟨2⟩, [("app", 0), ("zygote", 9)])] := by
  have hrun : ((replay .eight tidy).build.toOption.bind fun g =>
      (DominatorTree.ofGraph g).toOption.map fun t =>
        (t.byId g, (RetainedTable.ofTree g t).byId g t)) =
      some ([(⟨1⟩, .sentinel), (⟨2⟩, .node ⟨1⟩)],
        [(⟨1⟩, [("app", 8), ("zygote", 9)]), (⟨2⟩, [("app", 0), ("zygote", 9)])]) := by
    cbv
  have hok : ((replay .four untidy).build.toOption).isSome = true := by
    cbv
  obtain ⟨g, hbuild, hrest⟩ := Option.bind_eq_some_iff.mp hrun
  obtain ⟨t, hsearch, hseen⟩ := Option.map_eq_some_iff.mp hrest
  obtain ⟨g', hbuild'⟩ := Option.isSome_iff_exists.mp hok
  obtain ⟨t₁, t', hfirst, hsearch', htrees, htables⟩ := answers_depend_on_the_snapshot_alone
    (DominatorTree.eq_ok_of_toOption hbuild) (DominatorTree.eq_ok_of_toOption hbuild') snapshot_tidy
  rw [DominatorTree.eq_ok_of_toOption hsearch] at hfirst
  obtain rfl := Except.ok.inj hfirst
  obtain ⟨htree, htable⟩ := Prod.mk.inj hseen
  exact ⟨g', t', DominatorTree.eq_ok_of_toOption hbuild', hsearch', htrees ▸ htree,
    htables ▸ htable⟩

end Recording

end HeapRetention
