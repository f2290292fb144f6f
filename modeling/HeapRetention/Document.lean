-- Snapshot documents. A document is what an external loader hands over: the
-- heaps, every object with its size or its layout and the ids that it refers
-- to, and the roots. A document becomes a graph by recording it in order.
import HeapRetention.Forms
import HeapRetention.Graph.Recording
import HeapRetention.Json.Dialect

namespace HeapRetention

/-- An object of a document. -/
structure Document.Object where
  id : NodeId
  /-- The name of the heap partition. -/
  heap : String
  size : Option Bytes
  fields : Option (List ValueType)
  array : Option (ValueType × UInt64)
  /-- The class object of an instance. -/
  classId : Option NodeId
  /-- The name of the class that a class object stands for. -/
  className : Option String
  references : List NodeId
deriving DecidableEq, Repr

/-- A snapshot document. -/
structure Document where
  /-- The width of identifiers in bytes. -/
  idBytes : Option Bytes
  /-- Heap partitions in the order in which they are shown. -/
  heaps : List String
  nodes : List Document.Object
  /-- The roots, by the ids of their objects. -/
  roots : List (NodeId × RootKind)
deriving DecidableEq, Repr

/-! ## Reading -/

/-- Reads an object of a document. -/
def Document.Object.ofData? (dialect : Dialect) (data : Data) : Option Document.Object := do
  let fields ← data.fields? dialect
    ["id", "heap", "size", "fields", "array", "class", "class_name", "references"]
  let id ← fields.required "id" NodeId.ofData?
  let heap ← fields.required "heap" Data.string?
  let size ← fields.optional "size" Data.word?
  let layout ← fields.optional "fields" (Data.list? (ValueType.ofData? dialect))
  let array ← fields.optional "array" (Data.array? dialect)
  let classId ← fields.optional "class" NodeId.ofData?
  let className ← fields.optional "class_name" Data.string?
  let references ← fields.defaulted "references" [] (Data.list? NodeId.ofData?)
  pure ⟨id, heap, size, layout, array, classId, className, references⟩

namespace Document

/-- Reads a root of a document. -/
def root? (dialect : Dialect) (data : Data) : Option (NodeId × RootKind) := do
  let fields ← data.fields? dialect ["id", "kind"]
  let id ← fields.required "id" NodeId.ofData?
  let kind ← fields.defaulted "kind" .unknown (RootKind.ofData? dialect)
  pure (id, kind)

/-- Reads the data of a document. -/
def ofData? (dialect : Dialect) (data : Data) : Option Document := do
  let fields ← data.fields? dialect ["id_size", "heaps", "nodes", "roots"]
  let idBytes ← fields.optional "id_size" Data.word?
  let heaps ← fields.defaulted "heaps" [] (Data.list? Data.string?)
  let nodes ← fields.required "nodes" (Data.list? (Document.Object.ofData? dialect))
  let roots ← fields.defaulted "roots" [] (Data.list? (root? dialect))
  pure ⟨idBytes, heaps, nodes, roots⟩

/-- Reads the text of a document. -/
def read? (text : String) : Option Document := Json.decode? (ofData? Json.dialect) text

end Document

/-! ## Recording -/

/-- Why a document is no graph. -/
inductive DocumentError where
  | unsupportedWidth (bytes : Bytes)
  /-- An object whose size cannot be known. -/
  | noLayout (id : NodeId)
  | recording (error : RecordingError)
deriving DecidableEq, Repr

/-- The message for the reader. -/
def DocumentError.message : DocumentError → String
  | unsupportedWidth bytes => s!"unsupported identifier width {Numeral.decimal bytes.toNat}"
  | noLayout id => s!"node {id.text} has neither a size, fields nor an array layout"
  | recording error => error.message

namespace Document.Object

/-- What the object is: a class object if it names a class, else an array if it has one. -/
def kind (node : Document.Object) : NodeKind :=
  match node.className, node.array with
  | some name, _ => .classObject name
  | none, some (element, length) => .array element length
  | none, none => .instanceOf node.classId

/-- How its size is known: the size itself before the fields, and these before the array. -/
def footprint? (node : Document.Object) : Option Footprint :=
  match node.size, node.fields, node.array with
  | some count, _, _ => some (.bytes count)
  | none, some types, _ => some (.fields types)
  | none, none, some (element, length) => some (.array element length)
  | none, none, none => none

end Document.Object

namespace Document

/-- The width of the identifiers: the document's own, or else the one that was set. -/
def width (document : Document) (configured : IdWidth) : Except DocumentError IdWidth :=
  match document.idBytes with
  | none => .ok configured
  | some bytes =>
    match IdWidth.ofBytes? bytes with
    | some width => .ok width
    | none => .error (.unsupportedWidth bytes)

/-- Records an object and its references. -/
def recordNode (recording : Recording) (node : Document.Object) :
    Except DocumentError Recording :=
  let (heap, recording) := recording.heap node.heap
  match node.footprint? with
  | none => .error (.noLayout node.id)
  | some footprint =>
    .ok ((recording.addNode ⟨node.id, heap, node.kind, footprint⟩).addReferences
      node.id node.references)

/-- Records the whole document: its heaps, its objects and its roots. -/
def record (document : Document) (width : IdWidth) : Except DocumentError Recording := do
  let named := document.heaps.foldl (fun r name => (r.heap name).2) { width := width }
  let recording ← document.nodes.foldlM recordNode named
  pure (document.roots.foldl (fun r root => r.addRoot root.1 root.2) recording)

/-- The graph that the document describes. -/
def toGraph (document : Document) (configured : IdWidth) : Except DocumentError HeapGraph := do
  let width ← document.width configured
  let recording ← document.record width
  match recording.build with
  | .ok graph => pure graph
  | .error error => throw (.recording error)

end Document

end HeapRetention
