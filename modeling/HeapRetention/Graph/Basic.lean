-- The graph of a snapshot: a table of nodes with their references, the heap
-- table and the roots. The fields that are propositions say that the graph is
-- closed: every reference, root and heap that it mentions is in its tables.
import Std.Data.TreeMap
import HeapRetention.Graph.CountingSort
import HeapRetention.Graph.Error

namespace HeapRetention

/-- A closed graph. A node's dense index is its place in `nodes`. -/
structure HeapGraph where
  /-- The width of identifiers that the sizes of the nodes were counted with. -/
  width : IdWidth
  nodes : Array Node
  /-- The dense index of each id. -/
  index : Std.TreeMap NodeId Nat
  /-- The dense indices that each node refers to, as they were recorded. -/
  rows : CompressedRows
  /-- The names of the heap partitions. -/
  heaps : Array String
  /-- The roots as they were recorded, repeats included. -/
  roots : List Root
  nodes_size_le : nodes.size ≤ maxNodes
  index_iff : ∀ id i, index[id]? = some i ↔ nodes[i]?.map Node.id = some id
  rows_table : rows.IsTable nodes.size
  target_lt : ∀ i < nodes.size, ∀ t ∈ rows.row i, t < nodes.size
  heaps_nodup : heaps.toList.Nodup
  heaps_size_le : heaps.size ≤ maxHeaps
  heap_lt : ∀ node ∈ nodes, node.heap.slot < heaps.size
  root_lt : ∀ root ∈ roots, root.node < nodes.size

namespace HeapGraph

/-! ## Nodes -/

/-- The number of nodes. -/
def size (g : HeapGraph) : Nat := g.nodes.size

/-- The node at a dense index. -/
def node? (g : HeapGraph) (i : Nat) : Option Node := g.nodes[i]?

/-- The dense index of an id. -/
def indexOf? (g : HeapGraph) (id : NodeId) : Option Nat := g.index[id]?

/-- The node with an id. -/
def find? (g : HeapGraph) (id : NodeId) : Option Node := (g.indexOf? id).bind g.node?

/-- The first class object with this class name. -/
def findClass? (g : HeapGraph) (name : String) : Option Nat :=
  g.nodes.findIdx? (·.className? = some name)

/-- The sum of the sizes of all nodes, at most the largest count. -/
def totalSize (g : HeapGraph) : Bytes := Bytes.total (g.nodes.toList.map Node.size)

/-! ## References -/

/-- The row of references of a node. -/
def references? (g : HeapGraph) (i : Nat) : Option (List Nat) := g.rows.row? i

/-- The nodes that a node refers to; nothing for an index that is no node's. -/
def references (g : HeapGraph) (i : Nat) : List Nat := (g.references? i).getD []

/-- The number of recorded references. -/
def referenceCount (g : HeapGraph) : Nat := g.rows.entries.size

/-! ## Heaps -/

/-- The ids of the heap partitions, in table order. -/
def heapIds (g : HeapGraph) : List HeapId := (List.range g.heaps.size).map HeapId.ofSlot

/-- The name of a heap partition. -/
def heapName? (g : HeapGraph) (heap : HeapId) : Option String := g.heaps[heap.slot]?

/-- The heap partition with a name. -/
def heapNamed? (g : HeapGraph) (name : String) : Option HeapId :=
  (g.heaps.toList.idxOf? name).map HeapId.ofSlot

/-! ## Roots -/

/-- One step over a list of places: a place not seen before is kept. -/
def keepFirst (state : Array Bool × Array Nat) (i : Nat) : Array Bool × Array Nat :=
  let (seen, kept) := state
  if seen[i]? = some false then (seen.set! i true, kept.push i) else (seen, kept)

/-- The nodes that are roots, each at its first appearance. -/
def rootIndices (g : HeapGraph) : List Nat :=
  ((g.roots.map Root.node).foldl keepFirst (Array.replicate g.size false, #[])).2.toList

/-! ## The tables are closed -/

theorem references?_of_lt (g : HeapGraph) {i : Nat} (h : i < g.size) :
    g.references? i = some (g.rows.row i) := CompressedRows.row?_of_isTable g.rows_table h

theorem references?_of_le (g : HeapGraph) {i : Nat} (h : g.size ≤ i) : g.references? i = none :=
  CompressedRows.row?_of_le g.rows_table h

/-- The references of every node are a row of the table. -/
theorem references?_eq (g : HeapGraph) {i : Nat} (h : i < g.size) :
    g.references? i = some (g.references i) := by
  rw [references, g.references?_of_lt h, Option.getD_some]

theorem references_of_le (g : HeapGraph) {i : Nat} (h : g.size ≤ i) : g.references i = [] := by
  rw [references, g.references?_of_le h, Option.getD_none]

theorem references_lt (g : HeapGraph) {i t : Nat} (h : t ∈ g.references i) : t < g.size := by
  by_cases hi : i < g.size
  · rw [references, g.references?_of_lt hi, Option.getD_some] at h
    exact g.target_lt i hi t h
  · rw [g.references_of_le (Nat.not_lt.mp hi)] at h
    cases h

theorem indexOf?_eq_some_iff (g : HeapGraph) {id : NodeId} {i : Nat} :
    g.indexOf? id = some i ↔ (g.node? i).map Node.id = some id :=
  g.index_iff id i

theorem indexOf?_lt (g : HeapGraph) {id : NodeId} {i : Nat} (h : g.indexOf? id = some i) :
    i < g.size := by
  rw [indexOf?_eq_some_iff] at h
  obtain ⟨node, hnode, _⟩ := Option.map_eq_some_iff.mp h
  exact (Array.getElem?_eq_some_iff.mp hnode).1

/-- What has been kept so far are places that were looked at. -/
theorem mem_foldl_keepFirst {places : List Nat} {state : Array Bool × Array Nat} {i : Nat}
    (h : i ∈ (places.foldl keepFirst state).2) : i ∈ places ∨ i ∈ state.2 := by
  induction places generalizing state with
  | nil => exact Or.inr h
  | cons p rest ih =>
    rcases ih h with hrest | hstate
    · exact Or.inl (List.mem_cons_of_mem _ hrest)
    · unfold keepFirst at hstate
      split at hstate
      split at hstate
      · rcases Array.mem_push.mp hstate with hkept | rfl
        · exact Or.inr hkept
        · exact Or.inl List.mem_cons_self
      · exact Or.inr hstate

theorem rootIndices_lt (g : HeapGraph) {i : Nat} (h : i ∈ g.rootIndices) : i < g.size := by
  have hfold := mem_foldl_keepFirst (Array.mem_toList_iff.mp h)
  rcases hfold with hroot | hnone
  · obtain ⟨root, hmem, rfl⟩ := List.mem_map.mp hroot
    exact g.root_lt root hmem
  · simp at hnone

end HeapGraph

end HeapRetention
