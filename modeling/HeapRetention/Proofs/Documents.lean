-- The laws of documents. A document is the graph that it describes: its heaps
-- in the order in which their names come up, its objects with their sizes and
-- kinds, their references and the roots, all in the order of the document. A
-- document that describes no graph is rejected for the first of its faults.
import HeapRetention.Document
import HeapRetention.Proofs.HeapTable

namespace HeapRetention

/-! ## What a document describes -/

namespace Document

namespace Object

/-- It can be known how large the object is. -/
def HasLayout (object : Document.Object) : Prop :=
  object.size ≠ none ∨ object.fields ≠ none ∨ object.array ≠ none

instance (object : Document.Object) : Decidable object.HasLayout :=
  inferInstanceAs (Decidable (_ ∨ _ ∨ _))

/-- What the object is. The name of a class comes before an array. -/
inductive HasKind (object : Document.Object) : NodeKind → Prop
  | classObject {name : String} : object.className = some name → HasKind object (.classObject name)
  | array {element : ValueType} {length : UInt64} : object.className = none →
      object.array = some (element, length) → HasKind object (.array element length)
  | instanceOf : object.className = none → object.array = none →
      HasKind object (.instanceOf object.classId)

/-- How large the object is. A size comes before fields, and these before an array. -/
inductive HasSize (object : Document.Object) (width : IdWidth) : Bytes → Prop
  | size {count : Bytes} : object.size = some count → HasSize object width count
  | fields {types : List ValueType} : object.size = none → object.fields = some types →
      HasSize object width (Bytes.total (types.map (·.size width)))
  | array {element : ValueType} {length : UInt64} : object.size = none → object.fields = none →
      object.array = some (element, length) →
      HasSize object width (Bytes.mul length (element.size width))

end Object

/-- The names of heaps in the order in which the document brings them up. -/
def heapNames (document : Document) : List String :=
  document.heaps ++ document.nodes.map (·.heap)

/-- The ids of the objects, in order. -/
def ids (document : Document) : List NodeId := document.nodes.map (·.id)

/-- The holes that the references and the roots of a document leave. -/
inductive Leaves (document : Document) : Hole → Prop
  | target {object : Document.Object} {absent : NodeId} : object ∈ document.nodes →
      absent ∈ object.references → absent ∉ document.ids →
      Leaves document (.target object.id absent)
  | root {id : NodeId} {kind : RootKind} : (id, kind) ∈ document.roots → id ∉ document.ids →
      Leaves document (.root id kind)

/-- The sizes of all objects can be known: the width of identifiers is supported, and there is no
object without a layout. -/
structure Sized (document : Document) : Prop where
  width : ∀ bytes, document.idBytes = some bytes → bytes = 4 ∨ bytes = 8
  layouts : ∀ object ∈ document.nodes, object.HasLayout

/-- The document describes a graph. -/
structure Whole (document : Document) : Prop where
  sized : document.Sized
  nodup : document.ids.Nodup
  references : ∀ object ∈ document.nodes, ∀ target ∈ object.references, target ∈ document.ids
  roots : ∀ root ∈ document.roots, root.1 ∈ document.ids

/-- The fault for which a document is rejected. Each rule asks that none of the rules before it
applies. -/
inductive Fails (document : Document) : DocumentError → Prop
  | unsupportedWidth {bytes : Bytes} : document.idBytes = some bytes → bytes ≠ 4 → bytes ≠ 8 →
      Fails document (.unsupportedWidth bytes)
  | noLayout {before after : List Document.Object} {object : Document.Object} :
      (∀ bytes, document.idBytes = some bytes → bytes = 4 ∨ bytes = 8) →
      document.nodes = before ++ object :: after → (∀ earlier ∈ before, earlier.HasLayout) →
      ¬ object.HasLayout → Fails document (.noLayout object.id)
  | duplicateNode {id : NodeId} : document.Sized → Roster.FirstRepeat document.ids id →
      Fails document (.recording (.duplicateNode id))
  | holes {all : List Hole} : document.Sized → document.ids.Nodup → all ≠ [] →
      all.Pairwise Hole.Before → (∀ hole, hole ∈ all ↔ document.Leaves hole) →
      Fails document (.recording (.holes all))

/-- The node of a graph is the object of a document. -/
structure Object.IsNode (object : Document.Object) (g : HeapGraph) (i : Nat) (node : Node) :
    Prop where
  id : node.id = object.id
  heap : g.heapName? node.heap = some object.heap
  kind : object.HasKind node.kind
  size : object.HasSize g.width node.size
  references : (g.references i).map some = object.references.map g.indexOf?

/-- The graph is what the document describes, with identifiers of the configured width unless the
document has its own. -/
structure Describes (document : Document) (configured : IdWidth) (g : HeapGraph) : Prop where
  width : g.width.bytes = document.idBytes.getD configured.bytes
  heaps : g.heaps.toList = document.heapNames.eraseDups
  size : g.size = document.nodes.length
  indices : ∀ id i, g.indexOf? id = some i ↔ document.ids[i]? = some id
  nodes : ∀ i object, document.nodes[i]? = some object →
    ∃ node, g.node? i = some node ∧ object.IsNode g i node
  roots : g.roots.map (fun root => (some root.node, root.kind)) =
    document.roots.map fun root => (g.indexOf? root.1, root.2)

/-! ## Reading a document -/

theorem width_eq_ok_iff {document : Document} {configured width : IdWidth} :
    document.width configured = .ok width ↔
      width.bytes = document.idBytes.getD configured.bytes := by
  unfold Document.width
  cases document.idBytes with
  | none => cases width <;> cases configured <;> simp [IdWidth.bytes]
  | some bytes =>
    simp only [Option.getD_some, IdWidth.ofBytes?]
    by_cases hnarrow : bytes = 4
    · cases width <;> simp [hnarrow, IdWidth.bytes]
    · by_cases hwide : bytes = 8
      · cases width <;> simp [hwide, IdWidth.bytes]
      · cases width <;> simp [hnarrow, hwide, IdWidth.bytes, eq_comm]

theorem width_eq_error_iff {document : Document} {configured : IdWidth} {e : DocumentError} :
    document.width configured = .error e ↔
      ∃ bytes, document.idBytes = some bytes ∧ bytes ≠ 4 ∧ bytes ≠ 8 ∧
        e = .unsupportedWidth bytes := by
  unfold Document.width
  cases document.idBytes with
  | none => simp
  | some bytes =>
    simp only [IdWidth.ofBytes?]
    by_cases hnarrow : bytes = 4
    · simp [hnarrow]
    · by_cases hwide : bytes = 8
      · simp [hwide]
      · simp [hnarrow, hwide, eq_comm]

theorem exists_width_iff {document : Document} (configured : IdWidth) :
    (∃ width, document.width configured = .ok width) ↔
      ∀ bytes, document.idBytes = some bytes → bytes = 4 ∨ bytes = 8 := by
  refine ⟨?_, ?_⟩
  · rintro ⟨width, hwidth⟩ bytes hbytes
    rw [width_eq_ok_iff, hbytes, Option.getD_some] at hwidth
    rw [← hwidth]
    cases width
    · exact Or.inl rfl
    · exact Or.inr rfl
  · intro h
    cases hwidth : document.width configured with
    | ok width => exact ⟨width, rfl⟩
    | error e =>
      obtain ⟨bytes, hbytes, hnarrow, hwide, _⟩ := width_eq_error_iff.mp hwidth
      exact absurd (h bytes hbytes) (not_or.mpr ⟨hnarrow, hwide⟩)

namespace Object

theorem footprint?_isNone_iff {object : Document.Object} :
    object.footprint?.isNone = true ↔ ¬ object.HasLayout := by
  unfold footprint? HasLayout
  cases object.size <;> cases object.fields <;> cases object.array <;> simp

theorem find?_noLayout_eq_none_iff {objects : List Document.Object} :
    objects.find? (·.footprint?.isNone) = none ↔ ∀ object ∈ objects, object.HasLayout := by
  simp only [List.find?_eq_none, footprint?_isNone_iff, Classical.not_not]

theorem find?_noLayout_eq_some_iff {objects : List Document.Object} {object : Document.Object} :
    objects.find? (·.footprint?.isNone) = some object ↔ ¬ object.HasLayout ∧
      ∃ before after, objects = before ++ object :: after ∧
        ∀ earlier ∈ before, earlier.HasLayout := by
  rw [List.find?_eq_some_iff_append, footprint?_isNone_iff]
  simp only [Bool.not_eq_true', ← Bool.not_eq_true, footprint?_isNone_iff, Classical.not_not]

/-- How its size is known; no bytes where it is not. -/
def footprint (object : Document.Object) : Footprint := object.footprint?.getD (.bytes 0)

theorem hasKind_iff {object : Document.Object} {kind : NodeKind} :
    object.HasKind kind ↔ kind = object.kind := by
  unfold Object.kind
  refine ⟨?_, ?_⟩
  · intro h
    cases h with
    | classObject hname => rw [hname]
    | array hname harray => rw [hname, harray]
    | instanceOf hname harray => rw [hname, harray]
  · rintro rfl
    split
    · rename_i hname
      exact HasKind.classObject hname
    · rename_i hname harray
      exact HasKind.array hname harray
    · rename_i hname harray
      exact HasKind.instanceOf hname harray

theorem hasSize_iff {object : Document.Object} (hlayout : object.HasLayout) {width : IdWidth}
    {size : Bytes} : object.HasSize width size ↔ size = object.footprint.resolve width := by
  unfold footprint footprint?
  refine ⟨?_, ?_⟩
  · intro h
    cases h with
    | size hsize =>
      rw [hsize]
      rfl
    | fields hsize hfields =>
      rw [hsize, hfields]
      rfl
    | array hsize hfields harray =>
      rw [hsize, hfields, harray]
      rfl
  · rintro rfl
    split
    · rename_i hsize
      exact HasSize.size hsize
    · rename_i hsize hfields
      exact HasSize.fields hsize hfields
    · rename_i hsize hfields harray
      exact HasSize.array hsize hfields harray
    · rename_i hsize hfields harray
      simp [HasLayout, hsize, hfields, harray] at hlayout

end Object

/-- The recording with one more object, however its size is known. -/
def recorded (recording : Recording) (object : Document.Object) : Recording :=
  ((recording.heap object.heap).2.addNode
    ⟨object.id, (recording.heap object.heap).1, object.kind, object.footprint⟩).addReferences
      object.id object.references

theorem recordNode_eq (recording : Recording) (object : Document.Object) :
    recordNode recording object =
      if object.footprint?.isNone then .error (.noLayout object.id)
      else .ok (recorded recording object) := by
  unfold recordNode recorded Object.footprint
  cases object.footprint? <;> rfl

/-- Objects are recorded up to the first one without a layout. -/
theorem foldlM_recordNode (objects : List Document.Object) (recording : Recording) :
    objects.foldlM recordNode recording =
      match objects.find? (·.footprint?.isNone) with
      | some object => .error (.noLayout object.id)
      | none => .ok (objects.foldl recorded recording) := by
  induction objects generalizing recording with
  | nil => rfl
  | cons object rest ih =>
    rw [List.foldlM_cons, recordNode_eq, List.find?_cons]
    cases object.footprint?.isNone with
    | true => rfl
    | false => exact ih _

/-! ## The calls of a document -/

/-- The node record of an object, in a heap of a table. -/
def Object.record (table : List String) (object : Document.Object) : NodeRecord :=
  ⟨object.id, HeapId.ofSlot (table.idxOf object.heap), object.kind, object.footprint⟩

/-- The calls that record an object. -/
def Object.calls (table : List String) (object : Document.Object) : List Recording.Call :=
  [.heap object.heap, .node (object.record table), .references object.id object.references]

/-- The calls that record a document. -/
def calls (document : Document) : List Recording.Call :=
  document.heaps.map .heap ++
    document.nodes.flatMap (Object.calls document.heapNames.eraseDups) ++
    document.roots.map fun root => .root root.1 root.2

theorem flatMap_calls {α : Type} (part : Recording.Call → List α) (document : Document) :
    document.calls.flatMap part =
      document.heaps.flatMap (fun name => part (.heap name)) ++
        document.nodes.flatMap (fun object =>
          (object.calls document.heapNames.eraseDups).flatMap part) ++
        document.roots.flatMap fun root => part (.root root.1 root.2) := by
  unfold calls
  rw [List.flatMap_append, List.flatMap_append, List.flatMap_map, List.flatMap_assoc,
    List.flatMap_map]

theorem heapsOf_calls (document : Document) :
    Recording.heapsOf document.calls = document.heapNames.eraseDups := by
  unfold Recording.heapsOf heapNames
  rw [flatMap_calls]
  simp [Recording.Call.heaps, Object.calls, flatMap_nothing, ← List.map_eq_flatMap]

theorem nodesOf_calls (document : Document) :
    Recording.nodesOf document.calls =
      document.nodes.map (Object.record document.heapNames.eraseDups) := by
  unfold Recording.nodesOf
  rw [flatMap_calls]
  simp [Recording.Call.nodes, Object.calls, flatMap_nothing, ← List.map_eq_flatMap]

theorem idsOf_calls (document : Document) : Recording.idsOf document.calls = document.ids := by
  rw [Recording.idsOf, nodesOf_calls, List.map_map]
  rfl

theorem edgesOf_calls (document : Document) :
    Recording.edgesOf document.calls =
      document.nodes.flatMap fun object =>
        object.references.map fun target => (object.id, target) := by
  unfold Recording.edgesOf
  rw [flatMap_calls]
  simp [Recording.Call.edges, Object.calls, flatMap_nothing]

theorem rootsOf_calls (document : Document) :
    Recording.rootsOf document.calls = document.roots := by
  unfold Recording.rootsOf
  rw [flatMap_calls]
  simp [Recording.Call.roots, Object.calls, flatMap_nothing]

theorem idxOf_heap_lt {document : Document} {object : Document.Object}
    (hobject : object ∈ document.nodes) :
    document.heapNames.eraseDups.idxOf object.heap < document.heapNames.eraseDups.length :=
  List.idxOf_lt_length_of_mem
    (List.mem_eraseDups.mpr (List.mem_append_right _ (List.mem_map_of_mem hobject)))

/-- The holes of the calls are those of the document. No references are recorded for an absent
object, so no object is missed there. -/
theorem leaves_calls {document : Document} {hole : Hole} :
    Recording.Leaves document.calls hole ↔ document.Leaves hole := by
  have hids := idsOf_calls document
  have hedge : ∀ {owner target}, (owner, target) ∈ Recording.edgesOf document.calls ↔
      ∃ object ∈ document.nodes, target ∈ object.references ∧ object.id = owner := by
    intro owner target
    rw [edgesOf_calls]
    simp [List.mem_flatMap]
  refine ⟨?_, ?_⟩
  · intro hleaves
    cases hleaves with
    | target hmem _ habsent =>
      obtain ⟨object, hobject, htarget, rfl⟩ := hedge.mp hmem
      exact Leaves.target hobject htarget (hids ▸ habsent)
    | source hmem howner =>
      obtain ⟨object, hobject, _, rfl⟩ := hedge.mp hmem
      exact absurd (List.mem_map_of_mem hobject) (hids ▸ howner)
    | root hmem hid =>
      exact Leaves.root (rootsOf_calls document ▸ hmem) (hids ▸ hid)
  · intro hleaves
    cases hleaves with
    | target hobject htarget habsent =>
      exact Recording.Leaves.target (hedge.mpr ⟨_, hobject, htarget, rfl⟩)
        (hids ▸ List.mem_map_of_mem hobject) (hids ▸ habsent)
    | root hmem hid =>
      exact Recording.Leaves.root ((rootsOf_calls document).symm ▸ hmem) (hids ▸ hid)

/-! ## Recording a document -/

section Table

variable {table : List String} (hroom : table.length ≤ maxHeaps)

include hroom

/-- The heap that an object is answered is the one of its name in the final table. -/
theorem recorded_replay (width : IdWidth) {before : List Recording.Call}
    {object : Document.Object} (after : List Recording.Call)
    (htable : Recording.heapsOf (before ++ object.calls table ++ after) = table) :
    recorded (Recording.replay width before) object =
      Recording.replay width (before ++ object.calls table) := by
  have hasked := Recording.mem_answersOf width before
    ([.node (object.record table), .references object.id object.references] ++ after) object.heap
  have hcalls : before ++ .heap object.heap ::
      ([.node (object.record table), .references object.id object.references] ++ after) =
      before ++ object.calls table ++ after := by
    simp [Object.calls]
  rw [hcalls] at hasked
  have hslot := Recording.getElem?_of_answered (htable.symm ▸ hroom) hasked
  rw [htable] at hslot
  have hnodup : table.Nodup := htable ▸ nodup_eraseDups _
  have hreplay : Recording.replay width (before ++ object.calls table) =
      (object.calls table).foldl Recording.perform (Recording.replay width before) :=
    List.foldl_append
  rw [recorded, ← ofSlot_idxOf hnodup hslot, hreplay]
  rfl

/-- To record objects one after the other is to make their calls. -/
theorem foldl_recorded (width : IdWidth) (objects : List Document.Object)
    {before : List Recording.Call} (after : List Recording.Call)
    (htable : Recording.heapsOf (before ++ objects.flatMap (Object.calls table) ++ after) = table) :
    objects.foldl recorded (Recording.replay width before) =
      Recording.replay width (before ++ objects.flatMap (Object.calls table)) := by
  induction objects generalizing before with
  | nil => simp
  | cons object rest ih =>
    rw [List.flatMap_cons, ← List.append_assoc before] at htable ⊢
    have hfirst : Recording.heapsOf (before ++ object.calls table ++
        (rest.flatMap (Object.calls table) ++ after)) = table := by
      rwa [← List.append_assoc]
    rw [List.foldl_cons, recorded_replay hroom width _ hfirst, ih htable]

end Table

section Recorded

variable {document : Document} (hroom : document.heapNames.eraseDups.length ≤ maxHeaps)

include hroom

/-- A document is recorded by its calls, unless an object has no layout. -/
theorem record_eq (width : IdWidth) :
    document.record width =
      match document.nodes.find? (·.footprint?.isNone) with
      | some object => .error (.noLayout object.id)
      | none => .ok (Recording.replay width document.calls) := by
  have hheaps : document.heaps.foldl (fun r name => (r.heap name).2) (Recording.start width) =
      Recording.replay width (document.heaps.map .heap) := by
    rw [Recording.replay, List.foldl_map]
    rfl
  have hnodes := foldl_recorded hroom width document.nodes _ (heapsOf_calls document)
  have hroots : Recording.replay width document.calls =
      document.roots.foldl (fun r root => r.addRoot root.1 root.2)
        (document.nodes.foldl recorded (Recording.replay width (document.heaps.map .heap))) := by
    rw [hnodes, calls, Recording.replay, List.foldl_append, List.foldl_map]
    rfl
  rw [hroots, ← hheaps, record, foldlM_recordNode]
  cases document.nodes.find? (·.footprint?.isNone) <;> rfl

theorem toGraph_eq {configured width : IdWidth} (hwidth : document.width configured = .ok width)
    (hlayouts : ∀ object ∈ document.nodes, object.HasLayout) :
    document.toGraph configured =
      (Recording.replay width document.calls).build.mapError .recording := by
  rw [toGraph, hwidth]
  simp only [record_eq hroom, Object.find?_noLayout_eq_none_iff.mpr hlayouts, bind, Except.bind]
  cases (Recording.replay width document.calls).build <;> rfl

theorem toGraph_noLayout {configured width : IdWidth}
    (hwidth : document.width configured = .ok width) {object : Document.Object}
    (hfirst : document.nodes.find? (·.footprint?.isNone) = some object) :
    document.toGraph configured = .error (.noLayout object.id) := by
  rw [toGraph, hwidth]
  simp only [record_eq hroom, hfirst]
  rfl

end Recorded

/-! ## Faults of a document -/

section Few

variable {document : Document} (hnodes : document.nodes.length ≤ maxNodes)
  (hroom : document.heapNames.eraseDups.length ≤ maxHeaps)

include hroom

/-- Every object lies in a heap that the document brings up. -/
theorem inKnownHeap_calls : ∀ record ∈ Recording.nodesOf document.calls,
    Recording.InKnownHeap document.calls record := by
  intro record hrecord
  rw [nodesOf_calls] at hrecord
  obtain ⟨object, hobject, rfl⟩ := List.mem_map.mp hrecord
  have hlt := idxOf_heap_lt hobject
  rw [Recording.InKnownHeap, heapsOf_calls, Object.record, slot_ofSlot_of_lt hroom hlt]
  exact hlt

include hnodes

theorem fits_calls : Recording.Fits document.calls := by
  refine ⟨?_, ?_⟩
  · rw [idsOf_calls]
    have hle : document.ids.eraseDups.length ≤ document.ids.length :=
      (nodup_eraseDups _).length_le_of_subset fun _ => List.mem_eraseDups.mp
    rw [ids, List.length_map] at hle
    exact Nat.le_trans hle hnodes
  · rw [heapsOf_calls]
    exact hroom

theorem toGraph_of_fails {configured : IdWidth} {e : DocumentError} (h : document.Fails e) :
    document.toGraph configured = .error e := by
  -- the faults that building finds are faults of the calls
  have hbuild : document.Sized → ∀ {e}, Recording.Rejects document.calls e →
      document.toGraph configured = .error (.recording e) := by
    intro hsized e hrejects
    obtain ⟨width, hwidth⟩ := (exists_width_iff configured).mpr hsized.width
    rw [toGraph_eq hroom hwidth hsized.layouts, Recording.build_eq_error_iff.mpr hrejects]
    rfl
  have hids := idsOf_calls document
  cases h with
  | unsupportedWidth hbytes hnarrow hwide =>
    rw [toGraph, width_eq_error_iff.mpr ⟨_, hbytes, hnarrow, hwide, rfl⟩]
    rfl
  | noLayout hsupported hsplit hbefore hobject =>
    obtain ⟨width, hwidth⟩ := (exists_width_iff configured).mpr hsupported
    exact toGraph_noLayout hroom hwidth
      (Object.find?_noLayout_eq_some_iff.mpr ⟨hobject, _, _, hsplit, hbefore⟩)
  | duplicateNode hsized hfirst =>
    exact hbuild hsized (.duplicateNode (fits_calls hnodes hroom) (hids.symm ▸ hfirst))
  | holes hsized hnodup hne hsorted hall =>
    exact hbuild hsized (.holes (fits_calls hnodes hroom) (hids.symm ▸ hnodup)
      (inKnownHeap_calls hroom) hne hsorted fun hole => (hall hole).trans leaves_calls.symm)

/-- Of the faults of calls, a document can only have repeated ids and holes. -/
theorem fails_of_rejects (hsized : document.Sized) {e : RecordingError}
    (h : Recording.Rejects document.calls e) : document.Fails (.recording e) := by
  have hids := idsOf_calls document
  have hfits : Recording.Fits document.calls := fits_calls hnodes hroom
  cases h with
  | tooManyNodes hmany => exact absurd hfits.nodes (Nat.not_le.mpr hmany)
  | tooManyHeaps _ hmany => exact absurd hfits.heaps (Nat.not_le.mpr hmany)
  | duplicateNode _ hfirst => exact Fails.duplicateNode hsized (hids ▸ hfirst)
  | unknownHeap _ _ hsplit _ hunknown =>
    exact absurd (inKnownHeap_calls hroom _ (by simp [hsplit])) hunknown
  | holes _ hnodup _ hne hsorted hall =>
    exact Fails.holes hsized (hids ▸ hnodup) hne hsorted fun hole =>
      (hall hole).trans leaves_calls

/-- A document has a fault, or the calls that record it are built into its graph. -/
theorem toGraph_cases (configured : IdWidth) :
    (∃ e, document.toGraph configured = .error e ∧ document.Fails e) ∨
      ∃ width g, document.width configured = .ok width ∧ document.Sized ∧
        (Recording.replay width document.calls).build = .ok g ∧
        document.toGraph configured = .ok g := by
  cases hwidth : document.width configured with
  | error e =>
    obtain ⟨bytes, hbytes, hnarrow, hwide, rfl⟩ := width_eq_error_iff.mp hwidth
    have hfails := Fails.unsupportedWidth hbytes hnarrow hwide
    exact Or.inl ⟨_, toGraph_of_fails hnodes hroom hfails, hfails⟩
  | ok width =>
    have hsupported := (exists_width_iff configured).mp ⟨width, hwidth⟩
    cases hfirst : document.nodes.find? (·.footprint?.isNone) with
    | some object =>
      obtain ⟨hobject, before, after, hsplit, hbefore⟩ :=
        Object.find?_noLayout_eq_some_iff.mp hfirst
      exact Or.inl ⟨_, toGraph_noLayout hroom hwidth hfirst,
        Fails.noLayout hsupported hsplit hbefore hobject⟩
    | none =>
      have hlayouts := Object.find?_noLayout_eq_none_iff.mp hfirst
      have hsized : document.Sized := ⟨hsupported, hlayouts⟩
      have hgraph := toGraph_eq hroom hwidth hlayouts
      cases hbuild : (Recording.replay width document.calls).build with
      | ok g =>
        rw [hbuild] at hgraph
        exact Or.inr ⟨width, g, rfl, hsized, hbuild, hgraph⟩
      | error e =>
        rw [hbuild] at hgraph
        exact Or.inl ⟨_, hgraph, fails_of_rejects hnodes hroom hsized
          (Recording.rejects_of_error hbuild)⟩

theorem toGraph_eq_error_iff {configured : IdWidth} {e : DocumentError} :
    document.toGraph configured = .error e ↔ document.Fails e := by
  refine ⟨?_, toGraph_of_fails hnodes hroom⟩
  intro herror
  rcases toGraph_cases hnodes hroom configured with ⟨e', herror', hfails⟩ | ⟨_, g, _, _, _, hgraph⟩
  · obtain rfl := Except.error.inj (herror.symm.trans herror')
    exact hfails
  · rw [herror] at hgraph
    cases hgraph

/-- A graph of a document is built from the calls that record it. -/
theorem built_of_toGraph {configured : IdWidth} {g : HeapGraph}
    (h : document.toGraph configured = .ok g) :
    ∃ width, document.width configured = .ok width ∧ document.Sized ∧
      (Recording.replay width document.calls).build = .ok g := by
  rcases toGraph_cases hnodes hroom configured with ⟨e, herror, _⟩ |
    ⟨width, g', hwidth, hsized, hbuild, hgraph⟩
  · rw [h] at herror
    cases herror
  · obtain rfl := Except.ok.inj (h.symm.trans hgraph)
    exact ⟨width, hwidth, hsized, hbuild⟩

theorem whole_calls_iff (hsized : document.Sized) :
    Recording.Whole document.calls ↔ document.Whole := by
  have hids := idsOf_calls document
  refine ⟨?_, ?_⟩
  · intro hwhole
    refine ⟨hsized, hids ▸ hwhole.nodup, ?_, ?_⟩
    · intro object hobject target htarget
      by_contra habsent
      exact hwhole.closed _ (leaves_calls.mpr (Leaves.target hobject htarget habsent))
    · intro root hroot
      by_contra habsent
      exact hwhole.closed _ (leaves_calls.mpr (Leaves.root hroot habsent))
  · intro hwhole
    refine ⟨fits_calls hnodes hroom, hids.symm ▸ hwhole.nodup, inKnownHeap_calls hroom, ?_⟩
    intro hole hleaves
    cases leaves_calls.mp hleaves with
    | target hobject htarget habsent => exact habsent (hwhole.references _ hobject _ htarget)
    | root hroot habsent => exact habsent (hwhole.roots _ hroot)

theorem exists_toGraph_iff {configured : IdWidth} :
    (∃ g, document.toGraph configured = .ok g) ↔ document.Whole := by
  refine ⟨?_, ?_⟩
  · rintro ⟨g, hgraph⟩
    obtain ⟨width, _, hsized, hbuild⟩ := built_of_toGraph hnodes hroom hgraph
    exact (whole_calls_iff hnodes hroom hsized).mp (Recording.whole_of_ok hbuild)
  · intro hwhole
    obtain ⟨width, hwidth⟩ := (exists_width_iff configured).mpr hwhole.sized.width
    obtain ⟨g, hbuild⟩ := Recording.exists_build_iff.mpr
      ((whole_calls_iff hnodes hroom hwhole.sized).mpr hwhole)
    refine ⟨g, ?_⟩
    rw [toGraph_eq hroom hwidth hwhole.sized.layouts, hbuild]
    rfl

end Few

/-! ## The graph of a document -/

/-- The references that are recorded under the id of an object are its own. -/
theorem filter_references {objects : List Document.Object}
    (hnodup : (objects.map (·.id)).Nodup) {object : Document.Object} (hmem : object ∈ objects) :
    (objects.flatMap fun other => other.references.map fun target => (other.id, target)).filter
        (·.1 = object.id) =
      object.references.map fun target => (object.id, target) := by
  have hothers : ∀ others : List Document.Object, (∀ other ∈ others, other.id ≠ object.id) →
      (others.flatMap fun other => other.references.map fun target => (other.id, target)).filter
        (·.1 = object.id) = [] := by
    intro others hne
    rw [List.filter_eq_nil_iff]
    intro edge hedge
    obtain ⟨other, hother, hrow⟩ := List.mem_flatMap.mp hedge
    obtain ⟨target, _, rfl⟩ := List.mem_map.mp hrow
    simpa using hne other hother
  obtain ⟨before, after, rfl⟩ := List.append_of_mem hmem
  rw [List.map_append, List.map_cons, List.nodup_append] at hnodup
  obtain ⟨_, hafter, hbefore⟩ := hnodup
  rw [List.flatMap_append, List.flatMap_cons, List.filter_append, List.filter_append,
    hothers before, hothers after, List.nil_append, List.append_nil, List.filter_eq_self]
  · simp
  · intro other hother hsame
    exact (List.nodup_cons.mp hafter).1 (hsame ▸ List.mem_map_of_mem hother)
  · intro other hother
    exact hbefore _ (List.mem_map_of_mem hother) _ List.mem_cons_self

section Built

variable {document : Document} {configured width : IdWidth} {g : HeapGraph}
  (hroom : document.heapNames.eraseDups.length ≤ maxHeaps) (hsized : document.Sized)
  (hbuild : (Recording.replay width document.calls).build = .ok g)

include hbuild

theorem heaps_toGraph : g.heaps.toList = document.heapNames.eraseDups := by
  obtain ⟨hheaps, hfew⟩ := Recording.heaps_built hbuild
  rw [hheaps, Recording.heaps_replay hfew, heapsOf_calls]

theorem indexOf?_toGraph (id : NodeId) (i : Nat) :
    g.indexOf? id = some i ↔ document.ids[i]? = some id := by
  rw [Recording.indexOf?_built hbuild, Recording.ids_replay, idsOf_calls]

theorem node?_toGraph {i : Nat} {object : Document.Object}
    (hobject : document.nodes[i]? = some object) :
    g.node? i = some ((object.record document.heapNames.eraseDups).resolve width) := by
  rw [Recording.node?_replay hbuild, nodesOf_calls, List.getElem?_map, hobject]
  rfl

theorem references_toGraph {i : Nat} {object : Document.Object}
    (hobject : document.nodes[i]? = some object) :
    (g.references i).map some = object.references.map g.indexOf? := by
  have hi : g.indexOf? object.id = some i := by
    rw [indexOf?_toGraph hbuild, ids, List.getElem?_map, hobject]
    rfl
  have hnodup := (Recording.whole_of_ok hbuild).nodup
  rw [idsOf_calls] at hnodup
  rw [Recording.references_built hbuild hi, Recording.references_replay, edgesOf_calls,
    filter_references hnodup (List.mem_of_getElem? hobject), List.map_map]
  rfl

include hroom in
theorem heapName?_record {object : Document.Object} (hobject : object ∈ document.nodes) :
    g.heapName? (object.record document.heapNames.eraseDups).heap = some object.heap := by
  have hlt := idxOf_heap_lt hobject
  rw [HeapGraph.heapName?_eq, heaps_toGraph hbuild, Object.record, slot_ofSlot_of_lt hroom hlt,
    List.getElem?_eq_getElem hlt, List.getElem_idxOf]

include hroom hsized in
theorem describes_toGraph (hwidth : document.width configured = .ok width) :
    document.Describes configured g := by
  have hgraph : g.width = width := by
    rw [Recording.width_built hbuild, Recording.width_replay]
  refine ⟨?bytes, heaps_toGraph hbuild, ?count, indexOf?_toGraph hbuild, ?objects, ?roots⟩
  case bytes =>
    rw [hgraph]
    exact width_eq_ok_iff.mp hwidth
  case count =>
    rw [Recording.size_built hbuild, ← Array.length_toList, Recording.nodes_replay, nodesOf_calls,
      List.length_map]
  case objects =>
    intro i object hobject
    have hmem := List.mem_of_getElem? hobject
    refine ⟨_, node?_toGraph hbuild hobject, rfl, heapName?_record hroom hbuild hmem,
      Object.hasKind_iff.mpr rfl, ?_, references_toGraph hbuild hobject⟩
    rw [hgraph]
    exact (Object.hasSize_iff (hsized.layouts object hmem)).mpr rfl
  case roots =>
    rw [Recording.roots_built hbuild, Recording.roots_replay, rootsOf_calls]

end Built

/-! ## The laws -/

/-- A document within the limits is rejected for exactly its first fault, and without a fault it is
the graph that it describes. -/
theorem documents_become_the_graphs_they_describe (document : Document) (configured : IdWidth)
    (hnodes : document.nodes.length ≤ maxNodes)
    (hheaps : document.heapNames.eraseDups.length ≤ maxHeaps) :
    (∀ e, document.toGraph configured = .error e ↔ document.Fails e) ∧
      ((∃ g, document.toGraph configured = .ok g) ↔ document.Whole) ∧
      ∀ g, document.toGraph configured = .ok g → document.Describes configured g := by
  refine ⟨fun _ => toGraph_eq_error_iff hnodes hheaps, exists_toGraph_iff hnodes hheaps, ?_⟩
  intro g hgraph
  obtain ⟨width, hwidth, hsized, hbuild⟩ := built_of_toGraph hnodes hheaps hgraph
  exact describes_toGraph hheaps hsized hbuild hwidth

/-- A class object, an instance of the class and an array, in two heaps. -/
def cached : Document where
  idBytes := some 8
  heaps := ["zygote", "app"]
  nodes := [⟨⟨1⟩, "zygote", some 24, none, none, none, some "Cache", [⟨2⟩]⟩,
    ⟨⟨2⟩, "app", none, some [.object, .int], some (.long, 9), some ⟨1⟩, none, [⟨3⟩, ⟨1⟩]⟩,
    ⟨⟨3⟩, "image", none, none, some (.char, 5), none, none, []⟩]
  roots := [(⟨1⟩, .stickyClass), (⟨2⟩, .unknown)]

/-- The objects become nodes in their heaps. Of two faults the width is named before a root. -/
theorem the_cached_objects_become_nodes :
    (∃ g, cached.toGraph .four = .ok g ∧ g.heaps.toList = ["zygote", "app", "image"] ∧
      (∃ node, g.node? 1 = some node ∧ node.kind = .array .long 9 ∧ node.size = 12 ∧
        g.heapName? node.heap = some "app") ∧
      g.references 1 = [2, 0] ∧ g.roots.map Root.kind = [.stickyClass, .unknown]) ∧
    ({ cached with idBytes := some 2, roots := [(⟨9⟩, .unknown)] } : Document).toGraph .four =
      .error (.unsupportedWidth 2) := by
  refine ⟨?_, ?_⟩
  · obtain ⟨_, hwhole, hdescribes⟩ :=
      documents_become_the_graphs_they_describe cached .four (by decide) (by decide)
    obtain ⟨g, hgraph⟩ := hwhole.mpr
      ⟨⟨fun _ hbytes => Or.inr (Option.some.inj hbytes).symm, by decide⟩, by decide, by decide,
        by decide⟩
    have h := hdescribes g hgraph
    obtain ⟨node, hnode, hobject⟩ := h.nodes 1 _ rfl
    have hwidth : g.width = .eight := by
      have hbytes : g.width.bytes = 8 := h.width
      cases hg : g.width with
      | four =>
        rw [hg] at hbytes
        cases hbytes
      | eight => rfl
    have hsize := (Object.hasSize_iff (by decide)).mp hobject.size
    have hrow : (g.references 1).map some = [2, 0].map some :=
      hobject.references.trans (by simp [(h.indices ⟨3⟩ 2).mpr rfl, (h.indices ⟨1⟩ 0).mpr rfl])
    have hkinds := congrArg (List.map Prod.snd) h.roots
    rw [List.map_map, List.map_map] at hkinds
    refine ⟨g, hgraph, h.heaps, ⟨node, hnode, Object.hasKind_iff.mp hobject.kind, ?_,
      hobject.heap⟩, eq_of_map_some hrow, hkinds⟩
    rw [hsize, hwidth]
    rfl
  · obtain ⟨hfails, _⟩ := documents_become_the_graphs_they_describe
      { cached with idBytes := some 2, roots := [(⟨9⟩, .unknown)] } .four (by decide) (by decide)
    exact (hfails _).mpr (Fails.unsupportedWidth rfl (by decide) (by decide))

end Document

end HeapRetention
