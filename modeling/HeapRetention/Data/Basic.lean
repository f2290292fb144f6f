-- Structured data, as documents and settings are written in. A value is read
-- from a text before anything is known about its meaning, so it keeps what a
-- later reader may have to refuse: numbers that are no natural numbers, texts
-- that name no characters, and fields that come twice.

namespace HeapRetention

/-- A piece of text in a document. -/
inductive Literal where
  | plain (value : String)
  /-- A literal that is well formed but has an escape for half a character. -/
  | broken (literal : String)
deriving DecidableEq, Repr

/-- Structured data. -/
inductive Data where
  | null
  | bool (value : Bool)
  /-- A number written in digits alone. -/
  | natural (value : Nat)
  /-- Any other number, as it was written. -/
  | number (literal : String)
  | text (value : Literal)
  | list (items : List Data)
  /-- Named fields, in the order in which they were written. -/
  | record (fields : List (Literal × Data))
deriving Repr

namespace Data

/-- A text of characters. -/
def string (value : String) : Data := .text (.plain value)

/-- A word. -/
def word (value : UInt64) : Data := .natural value.toNat

/-- A record of distinct plain names. -/
def object (fields : List (String × Data)) : Data :=
  .record (fields.map fun (name, value) => (.plain name, value))

end Data

/-- How data is written as text and read from it. -/
structure Script where
  write : Data → String
  read? : String → Option Data

end HeapRetention
