-- Sizes of objects. An object's own size is given in bytes, or it follows
-- from the types of its fields or of its array elements. Only references
-- depend on how wide the identifiers of the snapshot are.
import HeapRetention.Bytes

namespace HeapRetention

/-- How wide an identifier is, and with it a reference. -/
inductive IdWidth where
  | four
  | eight
deriving DecidableEq, Inhabited, Repr

namespace IdWidth

/-- The width in bytes. -/
def bytes : IdWidth → Bytes
  | four => 4
  | eight => 8

/-- The width of so many bytes, if it is supported. -/
def ofBytes? (bytes : Bytes) : Option IdWidth :=
  if bytes = 4 then some four else if bytes = 8 then some eight else none

theorem ofBytes?_bytes (w : IdWidth) : ofBytes? w.bytes = some w := by
  cases w <;> rfl

end IdWidth

/-- The type of a field or of an array element. -/
inductive ValueType where
  | object | boolean | char | float | double | byte | short | int | long
deriving DecidableEq, Repr

namespace ValueType

/-- All types, by their tags. -/
def all : List ValueType := [object, boolean, char, float, double, byte, short, int, long]

/-- The code that a dump writes for the type. -/
def tag : ValueType → UInt8
  | object => 2
  | boolean => 4
  | char => 5
  | float => 6
  | double => 7
  | byte => 8
  | short => 9
  | int => 10
  | long => 11

/-- The type with this code. -/
def ofTag? (tag : UInt8) : Option ValueType := all.find? (·.tag = tag)

/-- The name of the type in labels. -/
def name : ValueType → String
  | object => "object"
  | boolean => "boolean"
  | char => "char"
  | float => "float"
  | double => "double"
  | byte => "byte"
  | short => "short"
  | int => "int"
  | long => "long"

/-- The size of a value. -/
def size (width : IdWidth) : ValueType → Bytes
  | object => width.bytes
  | boolean | byte => 1
  | char | short => 2
  | float | int => 4
  | double | long => 8

theorem ofTag?_tag (t : ValueType) : ofTag? t.tag = some t := by
  cases t <;> rfl

end ValueType

/-- How an object's own size is known. -/
inductive Footprint where
  /-- The size itself. -/
  | bytes (count : Bytes)
  /-- The types of the fields. -/
  | fields (types : List ValueType)
  /-- The element type and the length of an array. -/
  | array (element : ValueType) (length : UInt64)
deriving DecidableEq, Repr

/-- The size in bytes, at most the largest count. -/
def Footprint.resolve (width : IdWidth) : Footprint → Bytes
  | bytes count => count
  | fields types => Bytes.total (types.map (·.size width))
  | array element length => Bytes.mul length (element.size width)

end HeapRetention
