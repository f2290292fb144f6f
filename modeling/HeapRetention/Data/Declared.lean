-- Declared types. A type is declared by its parts: an enumeration by its names
-- or its variants, a record by its fields. What form the values of a declared
-- type have as data, and how they are read from it, is up to a scheme. The
-- types are declared for any scheme, and a dialect is read and written by one.
import HeapRetention.Data.Fields

namespace HeapRetention

/-- How the values of a type are written as data and read from it. -/
structure Codec (α : Type) where
  write : α → Data
  read? : Data → Option α
  /-- The value of a field that is not there. Without one the field has to be there. -/
  missing : Option α := none

/-- The same forms for the values of another type that has one for each. -/
def Codec.map {α β : Type} (make : α → β) (part : β → α) (codec : Codec α) : Codec β :=
  ⟨fun b => codec.write (part b), fun data => (codec.read? data).map make,
    codec.missing.map make⟩

/-- The value of a field. A field that is not there has its default, and where there is none, what
its type has for it. -/
def Codec.readEntry? {α : Type} (codec : Codec α) (default : Option α) : Entry → Option α
  | .given value => codec.read? value
  | .absent => default.or codec.missing
  | .cutOff => default

/-- The value in a text. -/
def Script.decode? {α : Type} (script : Script) (codec : Codec α) (text : String) : Option α :=
  (script.read? text).bind codec.read?

/-- The text of a value. -/
def Script.encode {α : Type} (script : Script) (codec : Codec α) (value : α) : String :=
  script.write (codec.write value)

/-! ## Parts of declarations -/

/-- How the names in a declaration are changed in data. -/
inductive Casing where
  /-- All letters become small. -/
  | lowercase
  /-- The words are set apart by underscores, and all letters become small. -/
  | snakeCase
deriving DecidableEq, Repr

/-- A name that is one word: a capital letter, and then small letters. -/
def isWord (name : String) : Bool :=
  match name.toList with
  | [] => false
  | first :: rest => first.isUpper && rest.all Char.isLower

/-- A name in small letters. -/
def lowered (name : String) : String := String.ofList (name.toList.map Char.toLower)

/-- The declared fields of a record, in order. Its values are the tuples of their values. -/
inductive Record : Type → Type 1 where
  | nil : Record Unit
  | cons {α β : Type} (name : String) (codec : Codec α) (more : Record β) : Record (α × β)

namespace Record

/-- The names of the fields. -/
def names : {α : Type} → Record α → List String
  | _, .nil => []
  | _, .cons name _ more => name :: more.names

/-- The fields with the forms of their values. -/
def forms : {α : Type} → Record α → α → List (String × Data)
  | _, .nil, _ => []
  | _, .cons name codec more, (first, rest) => (name, codec.write first) :: more.forms rest

/-- Collects the values of the fields from the entries of a record. -/
def collect : {α : Type} → Record α → (default : Option α) → (entry : String → Entry) → Option α
  | _, .nil, _, _ => some ()
  | _, .cons name codec more, default, entry => do
    let first ← codec.readEntry? (default.map Prod.fst) (entry name)
    let rest ← more.collect (default.map Prod.snd) entry
    pure (first, rest)

end Record

/-- A declared variant of an enumeration. -/
structure Variant (α : Type) where
  name : String
  {Body : Type}
  codec : Codec Body
  make : Body → α
  /-- The body of a value of this variant. -/
  body? : α → Option Body

/-- The form of a value that may be missing: null where it is. -/
def Data.ofOption {α : Type} (form : α → Data) : Option α → Data
  | none => .null
  | some value => form value

/-- The entry with a name among fields. -/
def Data.entryOf (fields : List (String × Data)) (name : String) : Entry :=
  match fields.find? fun field => field.1 = name with
  | some field => .given field.2
  | none => .absent

/-! ## Schemes -/

/-- The codecs of declared types. How they work is not for this program to say, so its types are
declared for any scheme. -/
structure Scheme where
  rename : Casing → String → String
  word : Codec UInt64
  bool : Codec Bool
  string : Codec String
  /-- A value that may be missing. -/
  option : {α : Type} → Codec α → Codec (Option α)
  list : {α : Type} → Codec α → Codec (List α)
  /-- A wrapper around one value, which leaves no trace. -/
  transparent : {α β : Type} → (make : α → β) → (part : β → α) → Codec α → Codec β
  /-- An enumeration of names. -/
  names : {α : Type} → [DecidableEq α] → Casing → List (String × α) → Codec α
  /-- An enumeration of variants with bodies, each of which is tagged by its name. -/
  tagged : {α : Type} → Casing → List (Variant α) → Codec α
  /-- A record, which may have a default for the fields that are not there. -/
  record : {α : Type} → (default : Option α) → Record α → Codec α

/-- What the declarations say of the codecs. -/
structure Scheme.FollowsDeclarations (scheme : Scheme) : Prop where
  rename_eq : ∀ casing name, isWord name = true → scheme.rename casing name = lowered name
  write_word : ∀ value, scheme.word.write value = .word value
  read_word : ∀ value, scheme.word.read? (.word value) = some value
  write_bool : ∀ value, scheme.bool.write value = .bool value
  read_bool : ∀ value, scheme.bool.read? (.bool value) = some value
  write_string : ∀ value, scheme.string.write value = .string value
  read_string : ∀ value, scheme.string.read? (.string value) = some value
  /-- No value is null, and any other stands for itself. -/
  write_option : ∀ {α : Type} (codec : Codec α) (value : Option α),
    (scheme.option codec).write value = .ofOption codec.write value
  read_null : ∀ {α : Type} (codec : Codec α), (scheme.option codec).read? .null = some none
  read_option : ∀ {α : Type} (codec : Codec α) (data : Data), data ≠ .null →
    (scheme.option codec).read? data = (codec.read? data).map some
  write_list : ∀ {α : Type} (codec : Codec α) (items : List α),
    (scheme.list codec).write items = .list (items.map codec.write)
  read_list : ∀ {α : Type} (codec : Codec α) (items : List Data),
    (scheme.list codec).read? (.list items) = items.mapM codec.read?
  write_transparent : ∀ {α β : Type} (make : α → β) (part : β → α) (codec : Codec α) (value : β),
    (scheme.transparent make part codec).write value = codec.write (part value)
  read_transparent : ∀ {α β : Type} (make : α → β) (part : β → α) (codec : Codec α) (data : Data),
    (scheme.transparent make part codec).read? data = (codec.read? data).map make
  /-- A name is written in the casing of its enumeration. -/
  write_names : ∀ {α : Type} [DecidableEq α] (casing : Casing) (all : List (String × α)),
    (all.map Prod.snd).Nodup → ∀ entry ∈ all,
      (scheme.names casing all).write entry.2 = .string (scheme.rename casing entry.1)
  read_names : ∀ {α : Type} [DecidableEq α] (casing : Casing) (all : List (String × α))
    (name : String), (scheme.names casing all).read? (.string name) =
      (all.find? fun entry => scheme.rename casing entry.1 = name).map Prod.snd
  /-- The body of a variant stands behind the name of the variant, as the only field. -/
  write_tagged : ∀ {α : Type} (casing : Casing) (before after : List (Variant α))
    (variant : Variant α) (value : α) (body : variant.Body),
    (∀ other ∈ before, (other.body? value).isNone) → variant.body? value = some body →
      (scheme.tagged casing (before ++ variant :: after)).write value =
        .object [(scheme.rename casing variant.name, variant.codec.write body)]
  read_tagged : ∀ {α : Type} (casing : Casing) (all : List (Variant α)) (name : String)
    (data : Data), (scheme.tagged casing all).read? (.object [(name, data)]) =
      (all.find? fun variant => scheme.rename casing variant.name = name).bind fun variant =>
        (variant.codec.read? data).map variant.make
  write_record : ∀ {α : Type} (default : Option α) (fields : Record α) (value : α),
    (scheme.record default fields).write value = .object (fields.forms value)
  /-- Fields of other names are passed over, and the order of the fields does not count. -/
  read_record : ∀ {α : Type} (default : Option α) (fields : Record α)
    (given : List (String × Data)), (given.map Prod.fst).Nodup →
      (scheme.record default fields).read? (.object given) =
        fields.collect default (Data.entryOf given)

/-! ## The scheme of a dialect -/

/-- A name in a casing. -/
def Casing.apply (casing : Casing) (name : String) : String :=
  match casing, name.toList with
  | .lowercase, letters => String.ofList (letters.map Char.toLower)
  | .snakeCase, [] => ""
  | .snakeCase, first :: rest =>
    String.ofList <| first.toLower ::
      rest.flatMap fun c => if c.isUpper then ['_', c.toLower] else [c.toLower]

/-- The scheme that a dialect is read and written by. -/
def Dialect.scheme (dialect : Dialect) : Scheme where
  rename := Casing.apply
  word := ⟨.word, Data.word?, none⟩
  bool := ⟨.bool, Data.bool?, none⟩
  string := ⟨.string, Data.string?, none⟩
  option codec := ⟨.ofOption codec.write, Data.nullable? codec.read?, some none⟩
  list codec := ⟨fun items => .list (items.map codec.write), Data.list? codec.read?, none⟩
  transparent := Codec.map
  names casing all :=
    ⟨fun value =>
      ((all.find? fun entry => entry.2 = value).map fun entry =>
        Data.string (casing.apply entry.1)).getD .null,
     Data.name? dialect fun name =>
      (all.find? fun entry => casing.apply entry.1 = name).map Prod.snd,
     none⟩
  tagged casing all :=
    ⟨fun value =>
      (all.findSome? fun variant =>
        (variant.body? value).map fun body =>
          Data.object [(casing.apply variant.name, variant.codec.write body)]).getD .null,
     fun data => data.tagged?.bind fun (name, body) =>
      (all.find? fun variant => casing.apply variant.name = name).bind fun variant =>
        (variant.codec.read? body).map variant.make,
     none⟩
  record default fields :=
    ⟨fun value => .object (fields.forms value),
     fun data => (data.fields? dialect fields.names).bind fun given =>
      fields.collect default given.entry,
     none⟩

end HeapRetention
