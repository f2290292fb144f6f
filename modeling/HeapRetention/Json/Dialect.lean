-- What is particular about data in documents.
import HeapRetention.Data.Fields
import HeapRetention.Json.Reader
import HeapRetention.Json.Writer

namespace HeapRetention.Json

/-- The dialect of documents is the strict one. -/
def dialect : Dialect := .strict

/-- Documents on one line. -/
def oneLine : Script := ⟨write, read?⟩

/-- Documents with one item per line. -/
def manyLines : Script := ⟨writeLines, read?⟩

/-- Reads a document as a value of some kind. -/
def decode? {α : Type} (read : Data → Option α) (document : String) : Option α :=
  (read? document).bind read

end HeapRetention.Json
