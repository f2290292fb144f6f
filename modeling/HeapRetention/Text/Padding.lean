-- Columns of text. A cell is filled up with blanks to a width, which counts
-- characters; a cell that is wide enough stays as it is.

namespace HeapRetention.Text

/-- So many blanks. -/
def blanks (count : Nat) : String := String.ofList (List.replicate count ' ')

/-- A cell with its text on the left. -/
def padRight (width : Nat) (text : String) : String := text ++ blanks (width - text.length)

/-- A cell with its text on the right. -/
def padLeft (width : Nat) (text : String) : String := blanks (width - text.length) ++ text

theorem length_padRight (width : Nat) (text : String) :
    (padRight width text).length = max width text.length := by
  simp only [padRight, blanks, String.length_append, String.length_ofList, List.length_replicate]
  omega

theorem length_padLeft (width : Nat) (text : String) :
    (padLeft width text).length = max width text.length := by
  simp only [padLeft, blanks, String.length_append, String.length_ofList, List.length_replicate]
  omega

end HeapRetention.Text
