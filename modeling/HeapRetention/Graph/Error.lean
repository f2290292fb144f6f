-- Why a recording is no graph. A reference or a root may name an object that
-- was never added; all such holes are reported together, in one fixed order.
import HeapRetention.Graph.Node

namespace HeapRetention

/-- A hole in a recording: a reference or root that names an absent object. -/
inductive Hole where
  /-- A reference of a known object to an absent one. -/
  | target (owner absent : NodeId)
  /-- References of an absent object. -/
  | source (owner : NodeId)
  /-- A root at an absent object. -/
  | root (id : NodeId) (kind : RootKind)
deriving DecidableEq, Repr

namespace Hole

/-- The sort key: first what dangles, then the ids, then the kind of root. -/
def key : Hole → List Nat
  | target owner absent => [0, owner.word.toNat, absent.word.toNat]
  | source owner => [1, owner.word.toNat]
  | root id kind => [2, id.word.toNat, kind.rank]

/-- The hole as a message shows it. -/
def text : Hole → String
  | target owner absent => s!"{owner.text} -> {absent.text}"
  | source owner => s!"{owner.text} (references recorded for an absent node)"
  | root id kind => s!"{kind.text} root -> {id.text}"

/-- The holes in order of their keys, each once. -/
def sorted (holes : List Hole) : List Hole :=
  (holes.mergeSort fun a b => (compare a.key b.key).isLE).eraseReps

end Hole

/-- The most nodes of a graph. -/
def maxNodes : Nat := UInt32.size - 2

/-- The most heap partitions of a graph. -/
def maxHeaps : Nat := UInt16.size

/-- Why a recording is no graph. -/
inductive RecordingError where
  | holes (all : List Hole)
  | duplicateNode (id : NodeId)
  | unknownHeap (heap : HeapId)
  | tooManyNodes (most : Nat)
  | tooManyHeaps (most : Nat)
deriving DecidableEq, Repr

/-- The message for the reader. -/
def RecordingError.message : RecordingError → String
  | holes all =>
    s!"Malformed graph: {Numeral.decimal all.length} dangling reference(s): " ++
      ", ".intercalate (all.map Hole.text)
  | duplicateNode id => s!"Node {id.text} added more than once"
  | unknownHeap heap => s!"Unknown heap partition: HeapId({Numeral.decimal heap.slot})"
  | tooManyNodes most => s!"Too many nodes: at most {Numeral.decimal most} are supported"
  | tooManyHeaps most => s!"Too many heap partitions: at most {Numeral.decimal most} are supported"

end HeapRetention
