-- The laws of a built graph. A graph holds exactly what the calls before it
-- recorded: the nodes at their places, the references of each node in order
-- and with every repeat, and the roots. Calls of other kinds in between
-- change nothing about that.
import Mathlib
import HeapRetention.Proofs.Calls
import HeapRetention.Proofs.Path

namespace HeapRetention

namespace Recording

/-! ## What calls record -/

/-- The nodes that a call records. -/
def Call.nodes : Call → List NodeRecord
  | .node record => [record]
  | _ => []

/-- The references that a call records, by the ids of source and target. -/
def Call.edges : Call → List (NodeId × NodeId)
  | .reference source target => [(source, target)]
  | .references source targets => targets.map fun target => (source, target)
  | _ => []

/-- The roots that a call records. -/
def Call.roots : Call → List (NodeId × RootKind)
  | .root id kind => [(id, kind)]
  | _ => []

/-- The heap names that a call registers. -/
def Call.heaps : Call → List String
  | .heap name => [name]
  | _ => []

/-- The nodes that calls record, in order. -/
def nodesOf (calls : List Call) : List NodeRecord := calls.flatMap Call.nodes

/-- The references that calls record, in order. -/
def edgesOf (calls : List Call) : List (NodeId × NodeId) := calls.flatMap Call.edges

/-- The roots that calls record, in order. -/
def rootsOf (calls : List Call) : List (NodeId × RootKind) := calls.flatMap Call.roots

/-- The heap names that calls register, each at its first use. -/
def heapsOf (calls : List Call) : List String := (calls.flatMap Call.heaps).eraseDups

/-- To ask for a heap changes nothing but the heap table. -/
theorem heap_keeps (r : Recording) (name : String) :
    (r.heap name).2.width = r.width ∧ (r.heap name).2.nodes = r.nodes ∧
      (r.heap name).2.references = r.references ∧ (r.heap name).2.roots = r.roots := by
  cases hname : r.heaps.toList.idxOf? name with
  | some slot => simp [heap_of_known r hname]
  | none =>
    by_cases hroom : r.heaps.size < maxHeaps
    · simp [heap_of_new r hname hroom]
    · simp [heap_of_full r hname hroom]

theorem addReferences_eq (r : Recording) (source : NodeId) (targets : List NodeId) :
    r.addReferences source targets =
      { r with
        references := r.references ++ (targets.map fun target => (source, target)).toArray } := by
  unfold addReferences
  induction targets generalizing r with
  | nil => simp
  | cons target rest ih =>
    rw [List.foldl_cons, ih]
    simp [addReference]

theorem width_perform (r : Recording) (call : Call) : (r.perform call).width = r.width := by
  cases call with
  | heap name => exact (heap_keeps r name).1
  | node _ => rfl
  | reference _ _ => rfl
  | references source targets => simp [perform, addReferences_eq]
  | root _ _ => rfl

theorem nodes_perform (r : Recording) (call : Call) :
    (r.perform call).nodes.toList = r.nodes.toList ++ call.nodes := by
  cases call with
  | heap name => simp [perform, Call.nodes, (heap_keeps r name).2.1]
  | node record => simp [perform, Call.nodes, addNode]
  | reference source target => simp [perform, Call.nodes, addReference]
  | references source targets => simp [perform, Call.nodes, addReferences_eq]
  | root id kind => simp [perform, Call.nodes, addRoot]

theorem references_perform (r : Recording) (call : Call) :
    (r.perform call).references.toList = r.references.toList ++ call.edges := by
  cases call with
  | heap name => simp [perform, Call.edges, (heap_keeps r name).2.2.1]
  | node record => simp [perform, Call.edges, addNode]
  | reference source target => simp [perform, Call.edges, addReference]
  | references source targets => simp [perform, Call.edges, addReferences_eq]
  | root id kind => simp [perform, Call.edges, addRoot]

theorem roots_perform (r : Recording) (call : Call) :
    (r.perform call).roots.toList = r.roots.toList ++ call.roots := by
  cases call with
  | heap name => simp [perform, Call.roots, (heap_keeps r name).2.2.2]
  | node record => simp [perform, Call.roots, addNode]
  | reference source target => simp [perform, Call.roots, addReference]
  | references source targets => simp [perform, Call.roots, addReferences_eq]
  | root id kind => simp [perform, Call.roots, addRoot]

/-- What every call adds its part to, a list of calls adds all parts to. -/
theorem foldl_perform_view {α : Type} (view : Recording → List α) {part : Call → List α}
    (h : ∀ r call, view (r.perform call) = view r ++ part call) (calls : List Call)
    (r : Recording) : view (calls.foldl perform r) = view r ++ calls.flatMap part := by
  induction calls generalizing r with
  | nil => simp
  | cons call rest ih => rw [List.foldl_cons, ih, h, List.flatMap_cons, List.append_assoc]

theorem width_replay (width : IdWidth) (calls : List Call) :
    (replay width calls).width = width := by
  have hfold : ∀ r : Recording, (calls.foldl perform r).width = r.width := by
    induction calls with
    | nil => exact fun _ => rfl
    | cons call rest ih =>
      intro r
      rw [List.foldl_cons, ih, width_perform]
  exact hfold (start width)

theorem nodes_replay (width : IdWidth) (calls : List Call) :
    (replay width calls).nodes.toList = nodesOf calls :=
  foldl_perform_view (·.nodes.toList) nodes_perform calls (start width)

theorem references_replay (width : IdWidth) (calls : List Call) :
    (replay width calls).references.toList = edgesOf calls :=
  foldl_perform_view (·.references.toList) references_perform calls (start width)

theorem roots_replay (width : IdWidth) (calls : List Call) :
    (replay width calls).roots.toList = rootsOf calls :=
  foldl_perform_view (·.roots.toList) roots_perform calls (start width)

/-! ## The heap table -/

/-- As long as the table has room, a name comes into it at its first use. -/
theorem heaps_heap {r : Recording} {name : String}
    (h : (r.heap name).2.tooManyHeaps = false) :
    r.tooManyHeaps = false ∧ (r.heap name).2.heaps.toList =
      if name ∈ r.heaps.toList then r.heaps.toList else r.heaps.toList ++ [name] := by
  cases hname : r.heaps.toList.idxOf? name with
  | some slot =>
    have hmem : name ∈ r.heaps.toList := by
      by_contra hnot
      rw [List.idxOf?_eq_none_iff.mpr hnot] at hname
      cases hname
    rw [heap_of_known r hname] at h ⊢
    exact ⟨h, (if_pos hmem).symm⟩
  | none =>
    have hnot := List.idxOf?_eq_none_iff.mp hname
    by_cases hroom : r.heaps.size < maxHeaps
    · rw [heap_of_new r hname hroom] at h ⊢
      rw [if_neg hnot]
      exact ⟨h, Array.toList_push⟩
    · rw [heap_of_full r hname hroom] at h
      cases h

theorem heaps_perform {r : Recording} {names : List String} {call : Call}
    (hr : r.tooManyHeaps = false → r.heaps.toList = names.eraseDups)
    (h : (r.perform call).tooManyHeaps = false) :
    (r.perform call).heaps.toList = (names ++ call.heaps).eraseDups := by
  cases call with
  | heap name =>
    obtain ⟨hroom, htable⟩ := heaps_heap h
    have hmem : name ∈ names.eraseDups ↔ name ∈ names := List.mem_eraseDups
    rw [hr hroom] at htable
    rw [perform, Call.heaps, eraseDups_concat, htable]
    simp only [hmem]
  | node _ => simpa [Call.heaps, perform, addNode] using hr h
  | reference _ _ => simpa [Call.heaps, perform, addReference] using hr h
  | references source targets =>
    rw [perform, addReferences_eq] at h ⊢
    simpa [Call.heaps] using hr h
  | root _ _ => simpa [Call.heaps, perform, addRoot] using hr h

/-- The heap table has the names in the order of their first use, unless it was full. -/
theorem heaps_replay {width : IdWidth} {calls : List Call}
    (h : (replay width calls).tooManyHeaps = false) :
    (replay width calls).heaps.toList = heapsOf calls := by
  have hfold : ∀ (r : Recording) (names : List String),
      (r.tooManyHeaps = false → r.heaps.toList = names.eraseDups) →
      (calls.foldl perform r).tooManyHeaps = false →
      (calls.foldl perform r).heaps.toList = (names ++ calls.flatMap Call.heaps).eraseDups := by
    clear h
    induction calls with
    | nil =>
      intro r names hr h
      simpa using hr h
    | cons call rest ih =>
      intro r names hr h
      rw [List.foldl_cons, List.flatMap_cons, ← List.append_assoc]
      exact ih _ _ (heaps_perform hr) h
  exact hfold (start width) [] (fun _ => rfl) h

end Recording

/-! ## Places, ids and names -/

/-- In a table without repeats, a partition is known by its name. -/
theorem ofSlot_idxOf {names : List String} (hnodup : names.Nodup) {name : String} {heap : HeapId}
    (h : names[heap.slot]? = some name) : HeapId.ofSlot (names.idxOf name) = heap := by
  obtain ⟨hlt, rfl⟩ := List.getElem?_eq_some_iff.mp h
  rw [hnodup.idxOf_getElem, HeapId.ofSlot_slot]

theorem eq_of_getElem?_slot {names : List String} (hnodup : names.Nodup) {name : String}
    {heap heap' : HeapId} (h : names[heap.slot]? = some name)
    (h' : names[heap'.slot]? = some name) : heap = heap' := by
  rw [← ofSlot_idxOf hnodup h, ofSlot_idxOf hnodup h']

namespace HeapGraph

theorem indexOf?_inj {g : HeapGraph} {a b : NodeId} {i : Nat} (ha : g.indexOf? a = some i)
    (hb : g.indexOf? b = some i) : a = b := by
  rw [indexOf?_eq_some_iff] at ha hb
  exact Option.some.inj (ha.symm.trans hb)

theorem indexOf?_getElem (g : HeapGraph) {i : Nat} (h : i < g.nodes.size) :
    g.indexOf? g.nodes[i].id = some i := by
  rw [indexOf?_eq_some_iff, node?, Array.getElem?_eq_getElem h]
  rfl

theorem exists_id {g : HeapGraph} {i : Nat} (h : i < g.size) : ∃ id, g.indexOf? id = some i :=
  ⟨_, g.indexOf?_getElem h⟩

end HeapGraph

namespace Recording

/-- References that lie in a graph leave its nodes. -/
theorem source_lt_of_edge? (g : HeapGraph) (references : List (NodeId × NodeId)) :
    ∀ edge ∈ references.filterMap (edge? g.index), edge.1 < g.size := by
  intro edge hedge
  obtain ⟨reference, _, hresolved⟩ := List.mem_filterMap.mp hedge
  exact g.indexOf?_lt (edge?_eq_some_iff.mp hresolved).1

section Built

variable {r : Recording} {g : HeapGraph} (h : r.build = .ok g)

include h

theorem nodes_built : g.nodes = r.nodes.map (·.resolve r.width) := by
  obtain ⟨_, _, _, hlists, hsize, hheaps, rfl⟩ := build_eq_ok_iff.mp h
  rfl

theorem width_built : g.width = r.width := by
  obtain ⟨_, _, _, hlists, hsize, hheaps, rfl⟩ := build_eq_ok_iff.mp h
  rfl

theorem heaps_built : g.heaps = r.heaps ∧ r.tooManyHeaps = false := by
  obtain ⟨_, htoo, _, hlists, hsize, hheaps, rfl⟩ := build_eq_ok_iff.mp h
  exact ⟨rfl, htoo⟩

theorem size_built : g.size = r.nodes.size := by
  rw [HeapGraph.size, nodes_built h, Array.size_map]

theorem indexOf?_built (id : NodeId) (i : Nat) : g.indexOf? id = some i ↔ r.ids[i]? = some id := by
  obtain ⟨_, _, _, hlists, hsize, hheaps, rfl⟩ := build_eq_ok_iff.mp h
  exact hlists.index_iff id i

/-- A reference that was recorded has both of its ends in the graph. -/
theorem exists_edge {reference : NodeId × NodeId} (hmem : reference ∈ r.references.toList) :
    ∃ edge, edge? g.index reference = some edge := by
  obtain ⟨_, _, hholes, hlists, hsize, hheaps, rfl⟩ := build_eq_ok_iff.mp h
  have hwhole := (holes_eq_nil_iff.mp hholes).1 reference (Array.mem_toList_iff.mp hmem)
  unfold referenceHole? at hwhole
  split at hwhole
  · cases hwhole
  · split at hwhole
    · cases hwhole
    · rename_i hsource htarget
      rw [Bool.not_eq_true', Bool.not_eq_false, Std.TreeMap.contains_eq_isSome_getElem?,
        Option.isSome_iff_exists] at hsource htarget
      obtain ⟨s, hs⟩ := hsource
      obtain ⟨t, ht⟩ := htarget
      exact ⟨(s, t), edge?_eq_some_iff.mpr ⟨hs, ht⟩⟩

/-- A root that was recorded is in the graph. -/
theorem exists_root {root : NodeId × RootKind} (hmem : root ∈ r.roots.toList) :
    ∃ i, g.indexOf? root.1 = some i := by
  obtain ⟨_, _, hholes, hlists, hsize, hheaps, rfl⟩ := build_eq_ok_iff.mp h
  have hwhole := (holes_eq_nil_iff.mp hholes).2 root (Array.mem_toList_iff.mp hmem)
  unfold rootHole? at hwhole
  split at hwhole
  · cases hwhole
  · rename_i hin
    rw [Bool.not_eq_true', Bool.not_eq_false, Std.TreeMap.contains_eq_isSome_getElem?] at hin
    exact Option.isSome_iff_exists.mp hin

theorem rows_built : g.rows = edgeTable g.size (r.references.toList.filterMap (edge? g.index)) := by
  obtain ⟨_, _, _, hlists, hsize, hheaps, rfl⟩ := build_eq_ok_iff.mp h
  simp [graph, HeapGraph.size]

/-- The references of a node are those that were recorded under its id, in order and with every
repeat. -/
theorem references_built {i : Nat} {id : NodeId} (hi : g.indexOf? id = some i) :
    (g.references i).map some =
      (r.references.toList.filter (·.1 = id)).map fun reference => g.indexOf? reference.2 := by
  have hagree : ∀ reference edge, edge? g.index reference = some edge →
      decide (edge.1 = i) = decide (reference.1 = id) := by
    intro reference edge hedge
    have hsource : g.indexOf? reference.1 = some edge.1 := (edge?_eq_some_iff.mp hedge).1
    rw [decide_eq_decide]
    refine ⟨?_, ?_⟩
    · rintro rfl
      exact HeapGraph.indexOf?_inj hsource hi
    · rintro rfl
      exact Option.some.inj (hsource.symm.trans hi)
  have hrow : g.references i =
      ((r.references.toList.filter (·.1 = id)).filterMap (edge? g.index)).map (·.2) := by
    have hlt := g.indexOf?_lt hi
    rw [filterMap_filter_of_agree hagree, HeapGraph.references, g.references?_of_lt hlt,
      Option.getD_some, rows_built h, row_edgeTable (source_lt_of_edge? g _) hlt]
  rw [hrow, List.map_map]
  apply map_filterMap_of_found
  intro reference hmem
  obtain ⟨edge, hedge⟩ := exists_edge h (List.mem_filter.mp hmem).1
  exact ⟨edge, hedge, (edge?_eq_some_iff.mp hedge).2.symm⟩

theorem roots_built :
    g.roots.map (fun root => (some root.node, root.kind)) =
      r.roots.toList.map fun root => (g.indexOf? root.1, root.2) := by
  have hroots : g.roots = r.roots.toList.filterMap (root? g.index) := by
    obtain ⟨_, _, _, hlists, hsize, hheaps, rfl⟩ := build_eq_ok_iff.mp h
    rfl
  rw [hroots]
  apply map_filterMap_of_found
  intro root hmem
  obtain ⟨i, hi⟩ := exists_root h hmem
  have hindex : g.index[root.1]? = some i := hi
  exact ⟨⟨i, root.2⟩, by simp [root?, hindex], by rw [hi]⟩

theorem mem_roots_built {id : NodeId} {i : Nat} (hi : g.indexOf? id = some i) :
    (∃ root ∈ g.roots, root.node = i) ↔ ∃ kind, (id, kind) ∈ r.roots.toList := by
  have hroots := roots_built h
  refine ⟨?_, ?_⟩
  · rintro ⟨root, hroot, rfl⟩
    have hmem : (some root.node, root.kind) ∈ r.roots.toList.map fun root =>
        (g.indexOf? root.1, root.2) := hroots ▸ List.mem_map.mpr ⟨root, hroot, rfl⟩
    obtain ⟨⟨other, kind⟩, hother, heq⟩ := List.mem_map.mp hmem
    obtain ⟨hplace, _⟩ := Prod.mk.inj heq
    exact ⟨kind, HeapGraph.indexOf?_inj hplace hi ▸ hother⟩
  · rintro ⟨kind, hkind⟩
    have hmem : (g.indexOf? id, kind) ∈ g.roots.map fun root => (some root.node, root.kind) :=
      hroots ▸ List.mem_map.mpr ⟨_, hkind, rfl⟩
    obtain ⟨root, hroot, heq⟩ := List.mem_map.mp hmem
    obtain ⟨hplace, _⟩ := Prod.mk.inj heq
    exact ⟨root, hroot, Option.some.inj (hplace.trans hi)⟩

theorem mem_references_built {a b : NodeId} {i j : Nat} (ha : g.indexOf? a = some i)
    (hb : g.indexOf? b = some j) : j ∈ g.references i ↔ (a, b) ∈ r.references.toList := by
  have hrow := references_built h ha
  have hsome : j ∈ g.references i ↔ some j ∈ (g.references i).map some := by simp
  rw [hsome, hrow, List.mem_map]
  refine ⟨?_, ?_⟩
  · rintro ⟨⟨source, target⟩, hmem, htarget⟩
    obtain ⟨hrecorded, hsource⟩ := List.mem_filter.mp hmem
    simp only [decide_eq_true_eq] at hsource
    rw [← hsource, ← HeapGraph.indexOf?_inj htarget hb]
    exact hrecorded
  · intro hrecorded
    exact ⟨(a, b), List.mem_filter.mpr ⟨hrecorded, by simp⟩, hb⟩

/-- No reference is lost and none is counted twice. -/
theorem referenceCount_built : g.referenceCount = r.references.size := by
  have hedges : (r.references.toList.filterMap (edge? g.index)).length = r.references.size := by
    have hall := map_filterMap_of_found (p := fun _ => ()) (q := fun _ => ())
      (l := r.references.toList) (f := edge? g.index) fun reference hmem =>
        (exists_edge h hmem).imp fun _ hedge => ⟨hedge, rfl⟩
    simpa using congrArg List.length hall
  rw [HeapGraph.referenceCount, rows_built h, size_entries_edgeTable (source_lt_of_edge? g _),
    hedges]

end Built

/-! ## The whole graph -/

theorem mem_ids {r : Recording} {id : NodeId} :
    id ∈ r.ids ↔ ∃ record ∈ r.nodes.toList, record.id = id := by
  rw [ids, List.mem_map]

/-- A graph that was built has the nodes in the order in which they were added, with sizes for the
width that was set, and the places and ids of its nodes go with each other one to one. Each node
has the references that were recorded under its id, in order and with every repeat, and there are
no others; while their table is filled nothing is looked at or written to out of bounds, and the
row of every node can be cut out. The roots are in order as well, and each counts at its first
appearance. -/
theorem a_built_graph_is_what_was_recorded (width : IdWidth) (calls : List Call) {g : HeapGraph}
    (hbuild : (replay width calls).build = .ok g) :
    (∀ i, g.node? i = (nodesOf calls)[i]?.map fun record =>
      ⟨record.id, record.kind, record.footprint.resolve width, record.heap⟩) ∧
    (∀ id i, g.indexOf? id = some i ↔ (g.node? i).map Node.id = some id) ∧
    (∀ id, (∃ i, g.indexOf? id = some i) ↔ ∃ record ∈ nodesOf calls, record.id = id) ∧
    (∀ i, (∃ id, g.indexOf? id = some i) ↔ i < g.size) ∧
    g.size = (nodesOf calls).length ∧
    (∀ id i, g.indexOf? id = some i → (g.references i).map some =
      ((edgesOf calls).filter (·.1 = id)).map fun edge => g.indexOf? edge.2) ∧
    g.referenceCount = (edgesOf calls).length ∧
    (∃ edges, g.rows = edgeTable g.size edges ∧
      CompressedRows.StaysInBounds g.size (edges.map Prod.swap)) ∧
    (∀ i < g.size, g.references? i = some (g.references i)) ∧
    (∀ i, ∀ target ∈ g.references i, target < g.size) ∧
    (∀ root ∈ g.roots, root.node < g.size) ∧
    g.roots.map (fun root => (some root.node, root.kind)) =
      (rootsOf calls).map (fun root => (g.indexOf? root.1, root.2)) ∧
    g.rootIndices = (g.roots.map Root.node).eraseDups := by
  refine ⟨?nodes, fun _ _ => g.indexOf?_eq_some_iff, ?ids, ?places, ?size, ?references, ?count,
    ?table, fun _ => g.references?_eq, fun _ _ => g.references_lt, g.root_lt, ?roots,
    g.rootIndices_eq⟩
  case nodes =>
    intro i
    rw [HeapGraph.node?, nodes_built hbuild, width_replay, Array.getElem?_map,
      ← Array.getElem?_toList, nodes_replay]
    rfl
  case ids =>
    intro id
    rw [← nodes_replay width calls, ← mem_ids, List.mem_iff_getElem?]
    exact exists_congr fun i => indexOf?_built hbuild id i
  case places =>
    intro i
    refine ⟨?_, HeapGraph.exists_id⟩
    rintro ⟨id, hid⟩
    exact g.indexOf?_lt hid
  case size =>
    rw [← nodes_replay width calls, Array.length_toList, size_built hbuild]
  case references =>
    intro id i hi
    rw [references_built hbuild hi, references_replay]
  case count =>
    rw [referenceCount_built hbuild, ← references_replay width calls, Array.length_toList]
  case table =>
    exact ⟨_, rows_built hbuild,
      CompressedRows.staysInBounds (swapped_lt (source_lt_of_edge? g _))⟩
  case roots =>
    rw [roots_built hbuild, roots_replay]

/-- References and a root before their nodes, one reference made twice, and a node without any. -/
def scattered : List Call :=
  [.reference ⟨9⟩ ⟨7⟩, .root ⟨7⟩ .threadObject, .heap "app",
    .node ⟨⟨9⟩, ⟨0⟩, .instanceOf none, .fields [.object, .int]⟩, .root ⟨9⟩ .jniGlobal,
    .references ⟨3⟩ [⟨9⟩, ⟨3⟩], .node ⟨⟨7⟩, ⟨0⟩, .array .object 3, .array .object 3⟩,
    .root ⟨7⟩ .javaFrame, .reference ⟨9⟩ ⟨7⟩, .node ⟨⟨3⟩, ⟨0⟩, .classObject "A", .bytes 5⟩]

/-- The scattered calls give each node its own row. -/
theorem scattered_calls_come_into_order :
    ∃ g, (replay .eight scattered).build = .ok g ∧
      g.node? 0 = some ⟨⟨9⟩, .instanceOf none, 12, ⟨0⟩⟩ ∧
      g.node? 1 = some ⟨⟨7⟩, .array .object 3, 24, ⟨0⟩⟩ ∧
      g.references 0 = [1, 1] ∧ g.references 1 = [] ∧ g.references 2 = [0, 2] ∧
      g.referenceCount = 4 ∧ g.rootIndices = [1, 0] := by
  have hok : (replay .eight scattered).build.toOption.isSome = true := by
    cbv
  cases hbuild : (replay .eight scattered).build with
  | error _ =>
    rw [hbuild] at hok
    cases hok
  | ok g =>
    obtain ⟨hnode, hindex, _, _, _, hrow, hcount, _, _, _, _, hroots, hfirst⟩ :=
      a_built_graph_is_what_was_recorded .eight scattered hbuild
    have hnine : g.indexOf? ⟨9⟩ = some 0 := (hindex _ _).mpr (by rw [hnode 0]; rfl)
    have hseven : g.indexOf? ⟨7⟩ = some 1 := (hindex _ _).mpr (by rw [hnode 1]; rfl)
    have hthree : g.indexOf? ⟨3⟩ = some 2 := (hindex _ _).mpr (by rw [hnode 2]; rfl)
    have hplaces : (g.roots.map Root.node).map some = [1, 0, 1].map some := by
      have hfst := congrArg (List.map Prod.fst) hroots
      rw [List.map_map] at hfst ⊢
      exact hfst.trans (by simp [rootsOf, scattered, Call.roots, hnine, hseven])
    refine ⟨g, rfl, hnode 0, hnode 1, eq_of_map_some ?_, eq_of_map_some ?_, eq_of_map_some ?_,
      hcount, ?_⟩
    · rw [hrow _ _ hnine]
      simp [edgesOf, scattered, Call.edges, hseven]
    · rw [hrow _ _ hseven]
      simp [edgesOf, scattered, Call.edges]
    · rw [hrow _ _ hthree]
      simp [edgesOf, scattered, Call.edges, hnine, hthree]
    · rw [hfirst, eq_of_map_some hplaces]
      rfl

end Recording

end HeapRetention
