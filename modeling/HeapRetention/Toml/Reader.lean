-- Reading a settings file. The file is a list of statements, each on its own
-- line: assignments, which fill the table that the last header opened, and
-- headers, which open another table.
import HeapRetention.Data.Fields
import HeapRetention.Toml.Quoted
import HeapRetention.Toml.Scalar
import HeapRetention.Toml.Table

namespace HeapRetention.Toml

/-- Values and keys may be nested in fewer levels than this. -/
def depthLimit : Nat := 80

/-! ## Keys -/

/-- Reads one name of a key, and what follows it. -/
def name? (text : List Char) : Option (String × List Char) :=
  match text with
  | '"' :: _ => oneLine? text
  | '\'' :: _ => oneLine? text
  | _ =>
    let name := text.takeWhile isBare
    if name.isEmpty then none else some (String.ofList name, text.dropWhile isBare)

/-- Reads the names of a key, added to those before them, and what follows them. At most so many
names are read. -/
def names? (names : List String) (most : Nat) (text : List Char) :
    Option (List String × List Char) :=
  match most with
  | 0 => none
  | most + 1 => do
    let (name, rest) ← name? (skipBlanks text)
    match skipBlanks rest with
    | '.' :: rest => names? (name :: names) most rest
    | rest => pure ((name :: names).reverse, rest)

/-- Reads a key: the path to its table, its last name, and what follows it. -/
def key? (text : List Char) : Option (List String × String × List Char) := do
  let (names, rest) ← names? [] (depthLimit - 1) text
  let name ← names.getLast?
  pure (names.dropLast, name, rest)

/-! ## Values -/

mutual

/-- Reads a value inside so many more levels, and what follows it. Every step takes at least one
character, so as many steps as there are characters are enough. -/
def value? (steps levels : Nat) (text : List Char) : Option (Data × List Char) :=
  match steps, text with
  | 0, _ => none
  | steps + 1, '[' :: rest =>
    match levels with
    | 0 => none
    | levels + 1 => items? steps levels [] rest
  | steps + 1, '{' :: rest =>
    match levels with
    | 0 => none
    | levels + 1 =>
      match skipBlanks rest with
      | '}' :: rest => some (.record [], rest)
      | _ => fields? steps levels [] rest
  | _ + 1, '"' :: _ => (quoted? text).map fun (value, rest) => (.string value, rest)
  | _ + 1, '\'' :: _ => (quoted? text).map fun (value, rest) => (.string value, rest)
  | _ + 1, _ => unquoted? text

/-- Reads the items of a list up to its end, added to those before them. The last item may have a
comma after it. -/
def items? (steps levels : Nat) (items : List Data) (text : List Char) :
    Option (Data × List Char) :=
  match steps with
  | 0 => none
  | steps + 1 =>
    match skipLines false text with
    | ']' :: rest => some (.list items.reverse, rest)
    | text => do
      let (item, rest) ← value? steps levels text
      match skipLines false rest with
      | ',' :: rest => items? steps levels (item :: items) rest
      | ']' :: rest => some (.list (item :: items).reverse, rest)
      | _ => none

/-- Reads the assignments of a table within a line up to its end. -/
def fields? (steps levels : Nat) (table : Table) (text : List Char) :
    Option (Data × List Char) :=
  match steps with
  | 0 => none
  | steps + 1 => do
    let (path, name, rest) ← key? text
    let rest ← mark? '=' rest
    let (value, rest) ← value? steps levels (skipBlanks rest)
    let table ← table.assign path name value
    match skipBlanks rest with
    | ',' :: rest => fields? steps levels table rest
    | '}' :: rest => some (table.toData, rest)
    | _ => none

end

/-! ## Statements -/

/-- A statement of a settings file. -/
inductive Statement where
  | assign (path : List String) (name : String) (value : Data)
  /-- The header of a table. -/
  | table (path : List String) (name : String)
  /-- The header of the next table of a list of tables. -/
  | nextTable (path : List String) (name : String)

/-- Reads a header after its first bracket, and what follows it. -/
def header? : List Char → Option (Statement × List Char)
  | '[' :: rest => do
    let (path, name, rest) ← key? rest
    let rest ← mark? ']' rest
    let rest ← mark? ']' rest
    pure (.nextTable path name, rest)
  | rest => do
    let (path, name, rest) ← key? rest
    let rest ← mark? ']' rest
    pure (.table path name, rest)

/-- Reads an assignment, and what follows it. -/
def assignment? (text : List Char) : Option (Statement × List Char) := do
  let (path, name, rest) ← key? text
  let rest ← mark? '=' rest
  let (value, rest) ← value? (2 * rest.length + 2) (depthLimit - 1) (skipBlanks rest)
  pure (.assign path name value, rest)

/-- Reads the statement at the start, and what follows it. -/
def statement? : List Char → Option (Statement × List Char)
  | '[' :: rest => header? rest
  | text => assignment? text

/-- Reads all statements, added to those before them. Each is followed by the end of its line. -/
def statements? (statements : List Statement) (steps : Nat) (text : List Char) :
    Option (List Statement) :=
  match steps with
  | 0 => none
  | steps + 1 =>
    match restOfLine? text with
    | some [] => some statements.reverse
    | some rest => statements? statements steps rest
    | none => do
      let (statement, rest) ← statement? (skipBlanks text)
      let rest ← restOfLine? rest
      statements? (statement :: statements) steps rest

/-! ## Tables -/

/-- A table that is being filled, with the statement that opened it. -/
structure Section where
  header : Option Statement
  /-- The assignments, the latest first. -/
  assignments : List (List String × String × Data)

/-- The sections of a file, added to those before them, the latest first. -/
def sections (before : List Section) : List Statement → List Section
  | [] => before.reverse
  | .assign path name value :: more =>
    match before with
    | [] => sections [⟨none, [(path, name, value)]⟩] more
    | current :: before =>
      let current := { current with assignments := (path, name, value) :: current.assignments }
      sections (current :: before) more
  | header :: more => sections (⟨some header, []⟩ :: before) more

/-- Makes the assignments of a section in a table. -/
def Section.fill (part : Section) (table : Table) : Option Table :=
  part.assignments.reverse.foldlM (fun table (path, name, value) => table.assign path name value)
    table

/-- Adds a section to the table of the whole file. A header may take over a table that was only
implied so far; any other table is there already. -/
def Section.addTo (part : Section) (root : Table) : Option Table :=
  match part.header with
  | some (.table path name) =>
    root.within false (fun _ parent => do
      let start ← match parent.lookup name with
        | none => some []
        | some (.table .implied fields) => some fields
        | _ => none
      let table ← part.fill start
      pure (parent.put name (.table .stated table))) path .stated
  | some (.nextTable path name) =>
    root.within false (fun _ parent => do
      let before ← match parent.lookup name with
        | none => some []
        | some (.tables items) => some items
        | _ => none
      let table ← part.fill []
      pure (parent.put name (.tables (before ++ [table])))) path .stated
  | _ => part.fill root

/-- A text without the mark of its byte order at the start. -/
def skipByteOrderMark : List Char → List Char
  | c :: rest => if c.toNat = 0xFEFF then rest else c :: rest
  | [] => []

/-- The data that a settings file holds. -/
def read? (file : String) : Option Data := do
  let text := skipByteOrderMark file.toList
  let statements ← statements? [] (2 * text.length + 2) text
  let root ← (sections [] statements).foldlM (fun root part => part.addTo root) []
  pure (Table.toData root)

/-- In a settings file an empty table or list stands where no value is, and a record that is
written as a list may go on after its last field. -/
def dialect : Dialect where
  isEmpty
    | .record [] => true
    | .list [] => true
    | _ => false
  allowsMore := true

/-- Reads a settings file as a value of some kind. -/
def decode? {α : Type} (read : Data → Option α) (file : String) : Option α :=
  (read? file).bind read

end HeapRetention.Toml
