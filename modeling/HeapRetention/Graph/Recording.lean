-- The recording of a snapshot. A loader records heaps, nodes, references and
-- roots in any order, and ids may be named before they are added. Building
-- looks at the whole recording: it gives the first fault in a fixed order of
-- faults, or the closed graph of exactly what was recorded.
import HeapRetention.Graph.Roster

namespace HeapRetention

/-- A node as it was recorded. -/
structure NodeRecord where
  id : NodeId
  heap : HeapId
  kind : NodeKind
  footprint : Footprint
deriving DecidableEq, Repr

/-- The node, with its size for identifiers of a width. -/
def NodeRecord.resolve (width : IdWidth) (record : NodeRecord) : Node :=
  ⟨record.id, record.kind, record.footprint.resolve width, record.heap⟩

/-- What a loader has recorded. -/
structure Recording where
  /-- The width of identifiers. -/
  width : IdWidth := .four
  /-- The names of the heap partitions, in order of first use. -/
  heaps : Array String := #[]
  /-- Whether a name was asked for when the heap table was full. -/
  tooManyHeaps : Bool := false
  nodes : Array NodeRecord := #[]
  /-- The references, by the ids of source and target. -/
  references : Array (NodeId × NodeId) := #[]
  roots : Array (NodeId × RootKind) := #[]
  heaps_nodup : heaps.toList.Nodup := by simp
  heaps_size_le : heaps.size ≤ maxHeaps := by simp

namespace Recording

/-! ## What can be recorded -/

/-- The heap partition of a name, which is added to the table at its first use. When the table is
full, the last partition stands in, and the recording can no longer be built. -/
def heap (r : Recording) (name : String) : HeapId × Recording :=
  match hname : r.heaps.toList.idxOf? name with
  | some slot => (HeapId.ofSlot slot, r)
  | none =>
    if hfull : r.heaps.size < maxHeaps then
      (HeapId.ofSlot r.heaps.size,
       { r with
         heaps := r.heaps.push name
         heaps_nodup := by
           have hnew : name ∉ r.heaps.toList := by simpa using hname
           rw [Array.toList_push, List.nodup_append]
           refine ⟨r.heaps_nodup, by simp, ?_⟩
           intro a ha b hb hab
           rw [List.mem_singleton.mp hb] at hab
           exact hnew (hab ▸ ha)
         heaps_size_le := by rw [Array.size_push]; exact hfull })
    else (HeapId.ofSlot (maxHeaps - 1), { r with tooManyHeaps := true })

/-- Records a node. -/
def addNode (r : Recording) (record : NodeRecord) : Recording :=
  { r with nodes := r.nodes.push record }

/-- Records an instance of an unknown class. -/
def addInstance (r : Recording) (id : NodeId) (heap : HeapId) (size : Bytes) : Recording :=
  r.addNode ⟨id, heap, .instanceOf none, .bytes size⟩

/-- Records a class object. -/
def addClass (r : Recording) (id : NodeId) (heap : HeapId) (name : String) (size : Bytes) :
    Recording :=
  r.addNode ⟨id, heap, .classObject name, .bytes size⟩

/-- Records an array, with the size of its elements. -/
def addArray (r : Recording) (id : NodeId) (heap : HeapId) (element : ValueType)
    (length : UInt64) : Recording :=
  r.addNode ⟨id, heap, .array element length, .array element length⟩

/-- Records a reference. -/
def addReference (r : Recording) (source target : NodeId) : Recording :=
  { r with references := r.references.push (source, target) }

/-- Records references of one node, in order. -/
def addReferences (r : Recording) (source : NodeId) (targets : List NodeId) : Recording :=
  targets.foldl (·.addReference source ·) r

/-- Records a root. -/
def addRoot (r : Recording) (id : NodeId) (kind : RootKind) : Recording :=
  { r with roots := r.roots.push (id, kind) }

/-! ## Building -/

/-- The hole that a reference leaves, for a set of ids. -/
def referenceHole? (index : Std.TreeMap NodeId Nat) (reference : NodeId × NodeId) :
    Option Hole :=
  if !index.contains reference.1 then some (.source reference.1)
  else if !index.contains reference.2 then some (.target reference.1 reference.2)
  else none

/-- The hole that a root leaves, for a set of ids. -/
def rootHole? (index : Std.TreeMap NodeId Nat) (root : NodeId × RootKind) : Option Hole :=
  if !index.contains root.1 then some (.root root.1 root.2) else none

/-- All holes of the recording, in order and each once. -/
def holes (r : Recording) (index : Std.TreeMap NodeId Nat) : List Hole :=
  Hole.sorted
    (r.references.toList.filterMap (referenceHole? index) ++
      r.roots.toList.filterMap (rootHole? index))

/-- A reference between dense indices. -/
def edge? (index : Std.TreeMap NodeId Nat) (reference : NodeId × NodeId) : Option (Nat × Nat) :=
  match index[reference.1]?, index[reference.2]? with
  | some source, some target => some (source, target)
  | _, _ => none

/-- A root at a dense index. -/
def root? (index : Std.TreeMap NodeId Nat) (root : NodeId × RootKind) : Option Root :=
  index[root.1]?.map fun node => ⟨node, root.2⟩

theorem edge?_eq_some_iff {index : Std.TreeMap NodeId Nat} {reference : NodeId × NodeId}
    {edge : Nat × Nat} : edge? index reference = some edge ↔
      index[reference.1]? = some edge.1 ∧ index[reference.2]? = some edge.2 := by
  obtain ⟨source, target⟩ := edge
  unfold edge?
  split
  · rename_i s t hs ht
    simp [hs, ht]
  · rename_i hnone
    refine ⟨?_, ?_⟩
    · intro h
      cases h
    · rintro ⟨hs, ht⟩
      exact absurd ht (hnone _ _ hs)

/-! ## The table of references -/

/-- The rows of targets of all sources below `places`. Room is taken for all edges at once. -/
def edgeTable (places : Nat) (edges : List (Nat × Nat)) : CompressedRows :=
  .withRoom edges.length places (edges.map Prod.swap)

section EdgeTable

variable {places : Nat} {edges : List (Nat × Nat)} (hin : ∀ edge ∈ edges, edge.1 < places)

include hin

theorem swapped_lt : ∀ item ∈ edges.map Prod.swap, item.2 < places := by
  intro item hitem
  obtain ⟨edge, hedge, rfl⟩ := List.mem_map.mp hitem
  exact hin edge hedge

theorem edgeTable_eq : edgeTable places edges = .ofItems places (edges.map Prod.swap) := by
  rw [edgeTable, ← CompressedRows.withRoom_length (swapped_lt hin), List.length_map]

theorem isTable_edgeTable : (edgeTable places edges).IsTable places := by
  rw [edgeTable_eq hin]
  exact CompressedRows.isTable_ofItems (swapped_lt hin)

/-- The table has an entry for every edge. -/
theorem size_entries_edgeTable : (edgeTable places edges).entries.size = edges.length := by
  rw [edgeTable_eq hin, CompressedRows.size_entries_ofItems (swapped_lt hin), List.length_map]

/-- The row of a source has the targets of its edges, in the order of the edges. -/
theorem row_edgeTable {i : Nat} (hi : i < places) :
    (edgeTable places edges).row i = (edges.filter (·.1 = i)).map (·.2) := by
  rw [edgeTable_eq hin, CompressedRows.row_ofItems (swapped_lt hin) hi,
    CompressedRows.entriesOf, List.filter_map, List.map_map]
  rfl

theorem mem_row_edgeTable {i t : Nat} (hi : i < places) (ht : t ∈ (edgeTable places edges).row i) :
    ∃ edge ∈ edges, edge.2 = t := by
  rw [row_edgeTable hin hi] at ht
  obtain ⟨edge, hedge, rfl⟩ := List.mem_map.mp ht
  exact ⟨edge, (List.mem_filter.mp hedge).1, rfl⟩

end EdgeTable

/-- The ids of the recorded nodes, in order. -/
def ids (r : Recording) : List NodeId := r.nodes.toList.map NodeRecord.id

/-- The graph of a recording whose ids are distinct and whose nodes lie in known heaps. -/
def graph (r : Recording) (roster : Roster) (hlists : roster.Lists r.ids)
    (hsize : r.nodes.size ≤ maxNodes)
    (hheaps : ∀ record ∈ r.nodes, record.heap.slot < r.heaps.size) : HeapGraph :=
  have hlt : ∀ (id : NodeId) (i : Nat), roster.index[id]? = some i → i < r.nodes.size := by
    intro id i h
    obtain ⟨hi, _⟩ := List.getElem?_eq_some_iff.mp ((hlists.index_iff id i).mp h)
    simpa [ids] using hi
  have hends : ∀ edge ∈ r.references.toList.filterMap (edge? roster.index),
      edge.1 < r.nodes.size ∧ edge.2 < r.nodes.size := by
    intro edge hedge
    obtain ⟨reference, _, hresolved⟩ := List.mem_filterMap.mp hedge
    obtain ⟨hsource, htarget⟩ := edge?_eq_some_iff.mp hresolved
    exact ⟨hlt _ _ hsource, hlt _ _ htarget⟩
  have hsources := fun edge hedge => (hends edge hedge).1
  { width := r.width
    nodes := r.nodes.map (·.resolve r.width)
    index := roster.index
    rows := edgeTable r.nodes.size (r.references.toList.filterMap (edge? roster.index))
    heaps := r.heaps
    roots := r.roots.toList.filterMap (root? roster.index)
    nodes_size_le := by simpa using hsize
    index_iff := by
      intro id i
      rw [hlists.index_iff id i]
      cases h : r.nodes[i]? <;> simp [ids, h, NodeRecord.resolve]
    rows_table := by simpa using isTable_edgeTable hsources
    target_lt := by
      intro i hi t ht
      rw [Array.size_map] at hi ⊢
      obtain ⟨edge, hedge, rfl⟩ := mem_row_edgeTable hsources hi ht
      exact (hends edge hedge).2
    heaps_nodup := r.heaps_nodup
    heaps_size_le := r.heaps_size_le
    heap_lt := by
      intro node hnode
      obtain ⟨record, hrecord, rfl⟩ := Array.mem_map.mp hnode
      exact hheaps record hrecord
    root_lt := by
      intro root hroot
      obtain ⟨entry, _, hentry⟩ := List.mem_filterMap.mp hroot
      obtain ⟨node, hnode, rfl⟩ := Option.map_eq_some_iff.mp hentry
      simpa using hlt _ _ hnode }

/-- The graph of the recording, or its first fault: too many nodes, too many heaps, an id added
twice, an unknown heap, and then all holes at once. -/
def build (r : Recording) : Except RecordingError HeapGraph :=
  let roster := Roster.ofIds r.ids
  if hsize : maxNodes < roster.index.size then .error (.tooManyNodes maxNodes)
  else if r.tooManyHeaps then .error (.tooManyHeaps maxHeaps)
  else match hrep : roster.repeated with
  | some id => .error (.duplicateNode id)
  | none =>
    match hheap : r.nodes.find? (fun record => decide (r.heaps.size ≤ record.heap.slot)) with
    | some record => .error (.unknownHeap record.heap)
    | none =>
      match r.holes roster.index with
      | hole :: more => .error (.holes (hole :: more))
      | [] =>
        have hlists := Roster.lists_ofIds hrep
        .ok (r.graph roster hlists
          (by have hcount : roster.index.size = r.nodes.size := by
                rw [hlists.size_eq]; simp [ids]
              omega)
          (by intro record hrecord
              have := Array.find?_eq_none.mp hheap record hrecord
              simpa using this))

end Recording

end HeapRetention
