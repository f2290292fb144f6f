-- Reading structured data. A record may be written with named fields or as
-- the list of its fields in order. A name out of a fixed set may be written as
-- text or as a record that has it as its only field and an empty value.
import HeapRetention.Data.Basic

namespace HeapRetention

/-- What two ways of writing data do not share. -/
structure Dialect where
  /-- The values that may stand behind a name that takes no value. -/
  isEmpty : Data → Bool
  /-- Whether a record written as a list may have more items than fields. -/
  allowsMore : Bool

/-- Nothing but null stands behind a name that takes no value, and no list is longer than its
record. -/
def Dialect.strict : Dialect where
  isEmpty
    | .null => true
    | _ => false
  allowsMore := false

/-- What is known about one field of a record. -/
inductive Entry where
  | given (value : Data)
  /-- No field has the name. -/
  | absent
  /-- The list of fields ended before it. -/
  | cutOff
deriving Repr

/-- The entries of a record by name. -/
structure Fields where
  entry : String → Entry

namespace Data

/-- The value of a field among named ones. -/
def lookup (fields : List (Literal × Data)) (name : String) : Entry :=
  match fields.find? fun field => decide (field.1 = .plain name) with
  | some field => .given field.2
  | none => .absent

/-- Whether every name of a list of fields can be read, and no known name comes twice. -/
def wellNamed (names : List String) (fields : List (Literal × Data)) : Bool :=
  (fields.all fun field => match field.1 with
    | .plain _ => true
    | .broken _ => false) &&
  names.all fun name => (fields.filter fun field => decide (field.1 = .plain name)).length ≤ 1

/-- The fields of a record with these names. Fields with other names are passed over. -/
def fields? (dialect : Dialect) (names : List String) : Data → Option Fields
  | .record fields => if wellNamed names fields then some ⟨lookup fields⟩ else none
  | .list items =>
    if items.length ≤ names.length || dialect.allowsMore then
      some ⟨fun name => match items[names.idxOf name]? with
        | some value => .given value
        | none => .cutOff⟩
    else none
  | _ => none

/-! ## Values of fields -/

/-- A word. -/
def word? : Data → Option UInt64
  | .natural value => if value < UInt64.size then some (UInt64.ofNat value) else none
  | _ => none

/-- A text of characters. -/
def string? : Data → Option String
  | .text (.plain value) => some value
  | _ => none

/-- Yes or no. -/
def bool? : Data → Option Bool
  | .bool value => some value
  | _ => none

/-- A list whose items are all read. -/
def list? {α : Type} (read : Data → Option α) : Data → Option (List α)
  | .list items => items.mapM read
  | _ => none

/-- A value that may be missing. -/
def nullable? {α : Type} (read : Data → Option α) : Data → Option (Option α)
  | .null => some none
  | value => (read value).map some

/-- A value out of a fixed set of names. -/
def name? {α : Type} (dialect : Dialect) (meaning : String → Option α) : Data → Option α
  | .text (.plain name) => meaning name
  | .record [(.plain name, value)] => if dialect.isEmpty value then meaning name else none
  | _ => none

/-- The only field of a record, which tells by its name how the value is to be read. -/
def tagged? : Data → Option (String × Data)
  | .record [(.plain name, value)] => some (name, value)
  | _ => none

end Data

namespace Fields

/-- A field that has to be there. -/
def required {α : Type} (fields : Fields) (name : String) (read : Data → Option α) :
    Option α :=
  match fields.entry name with
  | .given value => read value
  | _ => none

/-- A field with a default. -/
def defaulted {α : Type} (fields : Fields) (name : String) (default : α)
    (read : Data → Option α) : Option α :=
  match fields.entry name with
  | .given value => read value
  | _ => some default

/-- A field that may be null or left out. -/
def optional {α : Type} (fields : Fields) (name : String) (read : Data → Option α) :
    Option (Option α) :=
  fields.defaulted name none (Data.nullable? read)

end Fields

end HeapRetention
