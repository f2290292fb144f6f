-- The tables of a settings file. Assignments and headers put values into
-- nested tables, and no table is defined twice: a header states its table
-- once, and a dotted key extends only tables that dotted keys have made.
import HeapRetention.Data.Basic

namespace HeapRetention.Toml

/-- How a table came to be. -/
inductive Origin where
  /-- By a header of its own. -/
  | stated
  /-- By a header of a table inside it. -/
  | implied
  /-- By a dotted key. -/
  | dotted
deriving DecidableEq, Repr

/-- What a name stands for in a table. -/
inductive Item where
  | value (data : Data)
  | table (origin : Origin) (fields : List (String × Item))
  /-- A list of tables, each with a header of its own. -/
  | tables (items : List (List (String × Item)))

/-- The names of a table with their items, in order. -/
abbrev Table := List (String × Item)

namespace Table

/-- Gives a name an item, in the place of the item that it had. -/
def put (table : Table) (name : String) (item : Item) : Table :=
  table.filter (fun field => decide (field.1 ≠ name)) ++ [(name, item)]

/-- Changes the table at the end of a path, and makes the tables on the way that are not there. The
way leads into the last table of a list of tables. Dotted keys do not enter stated tables. -/
def within (byKey : Bool) (change : Origin → Table → Option Table) :
    (path : List String) → Origin → Table → Option Table
  | [], origin, table => change origin table
  | name :: path, _, table =>
    match table.lookup name with
    | none => do
      let origin := if byKey then Origin.dotted else .implied
      let inner ← within byKey change path origin []
      pure (table.put name (.table origin inner))
    | some (.value _) => none
    | some (.table origin inner) =>
      if byKey ∧ origin = .stated then none
      else do
        let inner ← within byKey change path origin inner
        pure (table.put name (.table origin inner))
    | some (.tables items) =>
      match items.reverse with
      | [] => none
      | last :: before => do
        let last ← within byKey change path .stated last
        pure (table.put name (.tables (last :: before).reverse))

/-- Assigns a value to a new name, at the end of a path of tables. A dotted key adds only to a
table that dotted keys have made, and a plain key to the table that it stands in. -/
def assign (table : Table) (path : List String) (name : String) (value : Data) : Option Table :=
  within true (fun origin inner =>
    if decide (origin = .dotted) == path.isEmpty || (inner.lookup name).isSome then none
    else some (inner.put name (.value value))) path .stated table

end Table

/-! ## As data -/

mutual

/-- The data of an item. -/
def Item.toData : Item → Data
  | .value data => data
  | .table _ fields => .record (fieldsToData fields)
  | .tables items => .list (tablesToData items)

/-- The fields of a table. -/
def fieldsToData : List (String × Item) → List (Literal × Data)
  | [] => []
  | (name, item) :: more => (.plain name, item.toData) :: fieldsToData more

/-- The records of a list of tables. -/
def tablesToData : List (List (String × Item)) → List Data
  | [] => []
  | fields :: more => .record (fieldsToData fields) :: tablesToData more

end

/-- The data of a table. -/
def Table.toData (table : Table) : Data := .record (fieldsToData table)

end HeapRetention.Toml
