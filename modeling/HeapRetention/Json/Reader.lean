-- Reading a document. The values that are still open are kept on a stack, so
-- a document may be nested to any depth.
import HeapRetention.Json.Token

namespace HeapRetention.Json

/-- A list or record that is still open, with the latest items first. A record waits for the value
of its last name. -/
inductive Opened where
  | list (items : List Data)
  | record (fields : List (Literal × Data)) (name : Literal)
deriving Repr

mutual

/-- Reads a value and what follows it. -/
def readValue (stack : List Opened) : List Token → Option Data
  | .null :: rest => readAfter .null stack rest
  | .bool value :: rest => readAfter (.bool value) stack rest
  | .natural value :: rest => readAfter (.natural value) stack rest
  | .number literal :: rest => readAfter (.number literal) stack rest
  | .text value :: rest => readAfter (.text value) stack rest
  | .openList :: .closeList :: rest => readAfter (.list []) stack rest
  | .openList :: rest => readValue (.list [] :: stack) rest
  | .openRecord :: .closeRecord :: rest => readAfter (.record []) stack rest
  | .openRecord :: .text name :: .colon :: rest => readValue (.record [] name :: stack) rest
  | _ => none
termination_by tokens => tokens.length

/-- Puts a value into what is open around it, and goes on after it. -/
def readAfter (value : Data) : List Opened → List Token → Option Data
  | [], [] => some value
  | .list items :: stack, .comma :: rest => readValue (.list (value :: items) :: stack) rest
  | .list items :: stack, .closeList :: rest =>
    readAfter (.list (value :: items).reverse) stack rest
  | .record fields name :: stack, .comma :: .text next :: .colon :: rest =>
    readValue (.record ((name, value) :: fields) next :: stack) rest
  | .record fields name :: stack, .closeRecord :: rest =>
    readAfter (.record ((name, value) :: fields).reverse) stack rest
  | _, _ => none
termination_by _ tokens => tokens.length

end

/-- The data that a document holds. -/
def read? (document : String) : Option Data :=
  (tokens? document).bind (readValue [])

end HeapRetention.Json
