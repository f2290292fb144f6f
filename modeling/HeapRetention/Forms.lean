-- The written forms of the library's values. Types, ids, kinds of nodes,
-- footprints and settings are declared once, and from its declaration each has
-- its form in structured data and is read from it.
import HeapRetention.Settings
import HeapRetention.Data.Declared
import HeapRetention.Graph.Node

namespace HeapRetention

/-! ## Declarations -/

section Declarations

variable (scheme : Scheme)

/-- A width, by its name. -/
def IdWidth.codec : Codec IdWidth :=
  scheme.names .lowercase [("Four", .four), ("Eight", .eight)]

/-- A type, by its name. -/
def ValueType.codec : Codec ValueType :=
  scheme.names .lowercase
    [("Object", .object), ("Boolean", .boolean), ("Char", .char), ("Float", .float),
     ("Double", .double), ("Byte", .byte), ("Short", .short), ("Int", .int), ("Long", .long)]

/-- A kind of root, by its name. -/
def RootKind.codec : Codec RootKind :=
  scheme.names .snakeCase
    [("Unknown", .unknown), ("JniGlobal", .jniGlobal), ("JniLocal", .jniLocal),
     ("JavaFrame", .javaFrame), ("NativeStack", .nativeStack), ("StickyClass", .stickyClass),
     ("ThreadBlock", .threadBlock), ("MonitorUsed", .monitorUsed),
     ("ThreadObject", .threadObject), ("InternedString", .internedString),
     ("Finalizing", .finalizing), ("Debugger", .debugger),
     ("ReferenceCleanup", .referenceCleanup), ("VmInternal", .vmInternal),
     ("JniMonitor", .jniMonitor)]

/-- An id, which stands for its word. -/
def NodeId.codec : Codec NodeId := scheme.transparent NodeId.mk NodeId.word scheme.word

/-- The element type and the length of an array. -/
def arrayFields : Record (ValueType × UInt64 × Unit) :=
  .cons "element" (ValueType.codec scheme) <| .cons "length" scheme.word .nil

/-- A kind of node. -/
def NodeKind.codec : Codec NodeKind :=
  scheme.tagged .snakeCase
    [{ name := "Instance"
       codec := scheme.record none (.cons "class" (scheme.option (NodeId.codec scheme)) .nil)
       make := fun (class?, _) => .instanceOf class?
       body? := fun
         | .instanceOf class? => some (class?, ())
         | _ => none },
     { name := "Class"
       codec := scheme.record none (.cons "name" scheme.string .nil)
       make := fun (name, _) => .classObject name
       body? := fun
         | .classObject name => some (name, ())
         | _ => none },
     { name := "Array"
       codec := scheme.record none (arrayFields scheme)
       make := fun (element, length, _) => .array element length
       body? := fun
         | .array element length => some (element, length, ())
         | _ => none }]

/-- A footprint. -/
def Footprint.codec : Codec Footprint :=
  scheme.tagged .snakeCase
    [{ name := "Bytes"
       codec := scheme.word
       make := .bytes
       body? := fun
         | .bytes count => some count
         | _ => none },
     { name := "Fields"
       codec := scheme.list (ValueType.codec scheme)
       make := .fields
       body? := fun
         | .fields types => some types
         | _ => none },
     { name := "Array"
       codec := scheme.record none (arrayFields scheme)
       make := fun (element, length, _) => .array element length
       body? := fun
         | .array element length => some (element, length, ())
         | _ => none }]

namespace Settings

/-- A section with one setting, which has a default. -/
def sectionOf {α : Type} (name : String) (codec : Codec α) (default : α) : Codec α :=
  (scheme.record (some (default, ())) (.cons name codec .nil)).map Prod.fst fun value => (value, ())

/-- The section that holds the width. -/
def graphCodec : Codec IdWidth := sectionOf scheme "id_size" (IdWidth.codec scheme) .four

/-- The section that holds the limit on passes. -/
def searchCodec : Codec (Option UInt64) :=
  sectionOf scheme "max_passes" (scheme.option scheme.word) none

/-- The section that tells whether heaps are left to workers. -/
def retainedCodec : Codec Bool := sectionOf scheme "parallel" scheme.bool false

/-- One section for each part of an analysis. -/
def sections : Record (IdWidth × Option UInt64 × Bool × Unit) :=
  .cons "graph" (graphCodec scheme) <| .cons "dominators" (searchCodec scheme) <|
    .cons "retained" (retainedCodec scheme) .nil

/-- Settings, which are the values of their sections. -/
def codec : Codec Settings :=
  (scheme.record (some (.four, none, false, ())) (sections scheme)).map
    (fun (width, maxPasses, parallel, _) => ⟨width, maxPasses, parallel⟩)
    fun settings => (settings.width, settings.maxPasses, settings.parallel, ())

end Settings

end Declarations

/-! ## Names -/

/-- The form of a width. -/
def IdWidth.toData : IdWidth → Data := (codec Dialect.strict.scheme).write

/-- Reads a width. -/
def IdWidth.ofData? (dialect : Dialect) : Data → Option IdWidth := (codec dialect.scheme).read?

/-- The form of a type. -/
def ValueType.toData : ValueType → Data := (codec Dialect.strict.scheme).write

/-- Reads a type. -/
def ValueType.ofData? (dialect : Dialect) : Data → Option ValueType := (codec dialect.scheme).read?

/-- The form of a kind of root. -/
def RootKind.toData : RootKind → Data := (codec Dialect.strict.scheme).write

/-- Reads a kind of root. -/
def RootKind.ofData? (dialect : Dialect) : Data → Option RootKind := (codec dialect.scheme).read?

/-! ## Ids -/

/-- The form of an id: its word. -/
def NodeId.toData : NodeId → Data := (codec Dialect.strict.scheme).write

/-- Reads an id. -/
def NodeId.ofData? : Data → Option NodeId := (codec Dialect.strict.scheme).read?

/-- The form of a heap partition: its place. -/
def HeapId.toData (heap : HeapId) : Data := .natural heap.slot

/-- Reads a heap partition. -/
def HeapId.ofData? : Data → Option HeapId
  | .natural value => if value < UInt16.size then some (.ofSlot value) else none
  | _ => none

/-! ## Kinds and footprints -/

/-- Reads an array's element type and length. -/
def Data.array? (dialect : Dialect) (data : Data) : Option (ValueType × UInt64) :=
  ((dialect.scheme.record none (arrayFields dialect.scheme)).read? data).map
    fun (element, length, _) => (element, length)

/-- The form of a kind of node: a record with one field, which is named for the kind. -/
def NodeKind.toData : NodeKind → Data := (codec Dialect.strict.scheme).write

/-- Reads a kind of node. -/
def NodeKind.ofData? (dialect : Dialect) : Data → Option NodeKind := (codec dialect.scheme).read?

/-- The form of a footprint: a record with one field, which is named for what is known. -/
def Footprint.toData : Footprint → Data := (codec Dialect.strict.scheme).write

/-- Reads a footprint. -/
def Footprint.ofData? (dialect : Dialect) : Data → Option Footprint := (codec dialect.scheme).read?

/-! ## Settings -/

namespace Settings

/-- The form of the section that holds the width. -/
def graphSection : IdWidth → Data := (graphCodec Dialect.strict.scheme).write

/-- Reads the width out of its section. -/
def graphSection? (dialect : Dialect) : Data → Option IdWidth := (graphCodec dialect.scheme).read?

/-- The form of the section that holds the limit on passes. -/
def searchSection : Option UInt64 → Data := (searchCodec Dialect.strict.scheme).write

/-- Reads the limit on passes out of its section. -/
def searchSection? (dialect : Dialect) : Data → Option (Option UInt64) :=
  (searchCodec dialect.scheme).read?

/-- The form of the section that tells whether heaps are left to workers. -/
def retainedSection : Bool → Data := (retainedCodec Dialect.strict.scheme).write

/-- Reads out of its section whether heaps are left to workers. -/
def retainedSection? (dialect : Dialect) : Data → Option Bool :=
  (retainedCodec dialect.scheme).read?

/-- The form of settings: one section for each part of an analysis. -/
def toData : Settings → Data := (codec Dialect.strict.scheme).write

/-- Reads settings. A section or a setting that is left out has its default. -/
def ofData? (dialect : Dialect) : Data → Option Settings := (codec dialect.scheme).read?

end Settings

end HeapRetention
