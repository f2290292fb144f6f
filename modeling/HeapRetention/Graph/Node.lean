-- What a snapshot is made of: objects, the heap partitions they lie in, and
-- the roots that keep them alive.
import HeapRetention.NodeId
import HeapRetention.Layout

namespace HeapRetention

/-- A heap partition, by its place in the heap table. -/
structure HeapId where
  word : UInt16
deriving DecidableEq, Inhabited, Repr

namespace HeapId

/-- The place in the heap table. -/
def slot (heap : HeapId) : Nat := heap.word.toNat

/-- The partition at a place of the heap table. -/
def ofSlot (slot : Nat) : HeapId := ⟨UInt16.ofNat slot⟩

theorem slot_ofSlot {slot : Nat} (h : slot < UInt16.size) : (ofSlot slot).slot = slot := by
  simp only [UInt16.size] at h
  simp only [ofSlot, HeapId.slot, UInt16.toNat_ofNat']
  omega

theorem ofSlot_slot (heap : HeapId) : ofSlot heap.slot = heap := by
  simp [ofSlot, HeapId.slot]

end HeapId

/-- What an object is. -/
inductive NodeKind where
  /-- An instance, with the id of its class object where that is known. -/
  | instanceOf (class? : Option NodeId)
  /-- A class object, with the name of the class. -/
  | classObject (name : String)
  | array (element : ValueType) (length : UInt64)
deriving DecidableEq, Repr

/-- An object of a graph. -/
structure Node where
  id : NodeId
  kind : NodeKind
  /-- The object's own size. -/
  size : Bytes
  heap : HeapId
deriving DecidableEq, Repr

/-- The class name of a class object. -/
def Node.className? (node : Node) : Option String :=
  match node.kind with
  | .classObject name => some name
  | _ => none

/-- Why a root keeps its object alive. -/
inductive RootKind where
  | unknown | jniGlobal | jniLocal | javaFrame | nativeStack | stickyClass | threadBlock
  | monitorUsed | threadObject | internedString | finalizing | debugger | referenceCleanup
  | vmInternal | jniMonitor
deriving DecidableEq, Inhabited, Repr

namespace RootKind

/-- All kinds, in their sort order. -/
def all : List RootKind :=
  [unknown, jniGlobal, jniLocal, javaFrame, nativeStack, stickyClass, threadBlock, monitorUsed,
   threadObject, internedString, finalizing, debugger, referenceCleanup, vmInternal, jniMonitor]

/-- The place of the kind in the sort order. -/
def rank (kind : RootKind) : Nat := all.idxOf kind

/-- The words that name the kind. -/
def words : RootKind → List String
  | unknown => ["unknown"]
  | jniGlobal => ["jni", "global"]
  | jniLocal => ["jni", "local"]
  | javaFrame => ["java", "frame"]
  | nativeStack => ["native", "stack"]
  | stickyClass => ["sticky", "class"]
  | threadBlock => ["thread", "block"]
  | monitorUsed => ["monitor", "used"]
  | threadObject => ["thread", "object"]
  | internedString => ["interned", "string"]
  | finalizing => ["finalizing"]
  | debugger => ["debugger"]
  | referenceCleanup => ["reference", "cleanup"]
  | vmInternal => ["vm", "internal"]
  | jniMonitor => ["jni", "monitor"]

/-- The kind as messages show it. -/
def text (kind : RootKind) : String := " ".intercalate kind.words

end RootKind

/-- An object that is kept alive from outside, by its place in the node table. -/
structure Root where
  node : Nat
  kind : RootKind
deriving DecidableEq, Repr

end HeapRetention
