-- Retained sizes. A node retains its own size and everything that only it
-- keeps alive: the nodes below it in the dominator tree. There is one column
-- of sizes per heap partition, with one entry per node and one more for the
-- sentinel, which retains all reachable bytes of the heap.
import HeapRetention.Dominator.Tree

namespace HeapRetention

/-- Retained bytes by heap partition and place. -/
structure RetainedTable where
  columns : Array (Array Bytes)
deriving DecidableEq, Repr

/-! ## Workers -/

/-- Workers who fill the columns of a list of heaps side by side. How they share the work is not
for this program to say, so they are given to it. -/
structure Workers where
  map : (HeapId → Array Bytes) → List HeapId → List (Array Bytes)

namespace Workers

/-- A single worker, who takes one heap after another. -/
def single : Workers := ⟨List.map⟩

/-- The columns come back in the order of the heaps, each as it was to be filled. -/
structure KeepsOrder (workers : Workers) : Prop where
  column_eq : ∀ (fill : HeapId → Array Bytes) (heaps : List HeapId) (i : Nat),
    (workers.map fill heaps)[i]? = heaps[i]?.map fill

theorem map_eq {workers : Workers} (h : workers.KeepsOrder) (fill : HeapId → Array Bytes)
    (heaps : List HeapId) : workers.map fill heaps = heaps.map fill := by
  apply List.ext_getElem?
  intro i
  rw [h.column_eq, List.getElem?_map]

theorem keepsOrder_single : single.KeepsOrder := ⟨fun _ _ _ => List.getElem?_map⟩

end Workers

namespace RetainedTable

/-! ## Filling a column -/

/-- The bytes that a node itself adds to a heap. -/
def own (g : HeapGraph) (heap : HeapId) (i : Nat) : Bytes :=
  match g.node? i with
  | some node => if node.heap = heap then node.size else 0
  | none => 0

/-- The place that takes in what a node retains: its immediate dominator's. -/
def above (g : HeapGraph) (t : DominatorTree) (i : Nat) : Nat :=
  match t.get? i with
  | some (.node parent) => parent
  | _ => g.size

/-- Adds bytes to an entry of a column. -/
def deposit (column : Array Bytes) (slot : Nat) (bytes : Bytes) : Array Bytes :=
  column.modify slot (Bytes.add · bytes)

/-- Adds a node's own bytes to its entry, and then the entry to the one above it. -/
def absorb (g : HeapGraph) (t : DominatorTree) (heap : HeapId) (i : Nat)
    (column : Array Bytes) : Array Bytes :=
  let column := deposit column i (own g heap i)
  let bytes := column[i]?.getD 0
  deposit column (above g t i) bytes

/-- The column of a heap. A node is absorbed only after all nodes below it. -/
def column (g : HeapGraph) (t : DominatorTree) (heap : HeapId) : Array Bytes :=
  t.order.foldr (absorb g t heap) (Array.replicate (g.size + 1) 0)

/-- The retained sizes of a graph with its dominator tree. The columns are filled one after
another. -/
def ofTree (g : HeapGraph) (t : DominatorTree) : RetainedTable :=
  ⟨(g.heapIds.map (column g t)).toArray⟩

/-- The retained sizes, where the columns may be left to workers. -/
def compute (workers : Workers) (parallel : Bool) (g : HeapGraph) (t : DominatorTree) :
    RetainedTable :=
  let columns :=
    if parallel then workers.map (column g t) g.heapIds else g.heapIds.map (column g t)
  ⟨columns.toArray⟩

/-- Workers who keep to the order of the heaps leave no trace in the sizes. -/
theorem compute_eq {workers : Workers} (h : workers.KeepsOrder) (parallel : Bool) (g : HeapGraph)
    (t : DominatorTree) : compute workers parallel g t = ofTree g t := by
  unfold compute ofTree
  cases parallel with
  | false => rfl
  | true => rw [if_pos rfl, Workers.map_eq h]

/-! ## Entries -/

/-- The place of the sentinel in every column. -/
def sentinelSlot (table : RetainedTable) : Nat :=
  match table.columns[0]? with
  | some column => column.size - 1
  | none => 0

/-- The entry of a column at a place. -/
def entry (table : RetainedTable) (heap slot : Nat) : Bytes :=
  (table.columns[heap]?.bind fun column => column[slot]?).getD 0

/-- The entries of all columns at a place. -/
def entries (table : RetainedTable) (slot : Nat) : List Bytes :=
  (List.range table.columns.size).map fun heap => table.entry heap slot

/-- The bytes of a heap that only a node keeps alive; zero for what is no node or no heap. -/
def size (table : RetainedTable) (i : Nat) (heap : HeapId) : Bytes :=
  if i < table.sentinelSlot then table.entry heap.slot i else 0

/-- What a node retains over all heaps, where that is a count. -/
def total? (table : RetainedTable) (i : Nat) : Option Bytes :=
  if i < table.sentinelSlot then Bytes.sum? (table.entries i) else some 0

/-- What a node retains of each heap of which it retains anything. -/
def byHeap (table : RetainedTable) (i : Nat) : List (HeapId × Bytes) :=
  ((List.range table.columns.size).map fun slot =>
    (HeapId.ofSlot slot, table.size i (HeapId.ofSlot slot))).filter fun share => share.2 ≠ 0

/-- The reachable bytes of a heap. -/
def sentinel (table : RetainedTable) (heap : HeapId) : Bytes :=
  table.entry heap.slot table.sentinelSlot

/-- The reachable bytes of all heaps, where that is a count. -/
def sentinelTotal? (table : RetainedTable) : Option Bytes :=
  Bytes.sum? (table.entries table.sentinelSlot)

/-! ## Rankings and views -/

/-- Whether a node with its bytes may stand before another: it has more bytes, or as many and no
larger an index. -/
def outranks (a b : Nat × Bytes) : Bool := b.2 < a.2 || (b.2 == a.2 && a.1 ≤ b.1)

/-- Nodes with their bytes, the most bytes first. -/
def ranked (sizes : List (Nat × Bytes)) : List (Nat × Bytes) := sizes.mergeSort outranks

/-- The nodes that retain the most bytes of a heap, at most `limit` of them. Among equal sizes the
smaller index comes first, and a node that retains nothing is left out. -/
def largest (table : RetainedTable) (heap : HeapId) (limit : Nat) : List (Nat × Bytes) :=
  match table.columns[heap.slot]? with
  | none => []
  | some column =>
    let sizes := (column.toList.take table.sentinelSlot).zipIdx.map fun (bytes, i) => (i, bytes)
    (ranked (sizes.filter fun share => share.2 ≠ 0)).take limit

end RetainedTable

/-- The heap partitions with their names, in ascending order of names. -/
def HeapGraph.heapsByName (g : HeapGraph) : List (String × HeapId) :=
  (g.heaps.toList.zip g.heapIds).mergeSort fun a b => decide (a.1 ≤ b.1)

namespace RetainedTable

/-- What a node retains of each heap, in ascending order of the heaps' names. -/
def byName (table : RetainedTable) (g : HeapGraph) (i : Nat) : List (String × Bytes) :=
  g.heapsByName.map fun (name, heap) => (name, table.size i heap)

/-- What each reachable node retains of each heap, in ascending order of ids and names. -/
def byId (table : RetainedTable) (g : HeapGraph) (t : DominatorTree) :
    List (NodeId × List (String × Bytes)) :=
  let entries := t.order.filterMap fun i =>
    (g.node? i).map fun node => (node.id, table.byName g i)
  entries.mergeSort fun a b => decide (a.1 ≤ b.1)

end RetainedTable

end HeapRetention
