-- Writing data as a document: on one line without blanks, or with one item
-- per line and two more blanks for each level.
import HeapRetention.Json.Literal

namespace HeapRetention.Json

/-- The literal of a text, with its quotes. -/
def quoted : Literal → List Char
  | .plain value => '"' :: escape value.toList ++ ['"']
  | .broken literal => '"' :: literal.toList ++ ['"']

/-! ## On one line -/

mutual

/-- The data on one line. -/
def compact : Data → List Char
  | .null => ['n', 'u', 'l', 'l']
  | .bool true => ['t', 'r', 'u', 'e']
  | .bool false => ['f', 'a', 'l', 's', 'e']
  | .natural value => Numeral.digits 10 value
  | .number literal => literal.toList
  | .text value => quoted value
  | .list items => '[' :: compactItems items ++ [']']
  | .record fields => '{' :: compactFields fields ++ ['}']

/-- The items of a list, with commas between them. -/
def compactItems : List Data → List Char
  | [] => []
  | [item] => compact item
  | item :: more => compact item ++ ',' :: compactItems more

/-- The fields of a record, with commas between them. -/
def compactFields : List (Literal × Data) → List Char
  | [] => []
  | [(name, value)] => quoted name ++ ':' :: compact value
  | (name, value) :: more => quoted name ++ ':' :: compact value ++ ',' :: compactFields more

end

/-- The document of a value. -/
def write (data : Data) : String := String.ofList (compact data)

/-! ## On many lines -/

/-- The start of a line at a level. -/
def newline (level : Nat) : List Char := '\n' :: List.replicate (2 * level) ' '

mutual

/-- The data with one item per line, inside so many levels. -/
def spread (level : Nat) : Data → List Char
  | .list [] => ['[', ']']
  | .list items => '[' :: spreadItems (level + 1) items ++ newline level ++ [']']
  | .record [] => ['{', '}']
  | .record fields => '{' :: spreadFields (level + 1) fields ++ newline level ++ ['}']
  | .null => compact .null
  | .bool value => compact (.bool value)
  | .natural value => compact (.natural value)
  | .number literal => compact (.number literal)
  | .text value => compact (.text value)

/-- The items of a list, each on its own line. -/
def spreadItems (level : Nat) : List Data → List Char
  | [] => []
  | [item] => newline level ++ spread level item
  | item :: more => newline level ++ spread level item ++ ',' :: spreadItems level more

/-- The fields of a record, each on its own line. -/
def spreadFields (level : Nat) : List (Literal × Data) → List Char
  | [] => []
  | [(name, value)] => newline level ++ quoted name ++ ':' :: ' ' :: spread level value
  | (name, value) :: more =>
    newline level ++ quoted name ++ ':' :: ' ' :: spread level value ++
      ',' :: spreadFields level more

end

/-- The document of a value, with one item per line. -/
def writeLines (data : Data) : String := String.ofList (spread 0 data)

end HeapRetention.Json
