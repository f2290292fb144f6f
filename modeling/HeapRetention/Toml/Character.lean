-- The characters of a settings file: blanks, line ends, comments, and the
-- characters that may stand for themselves.

namespace HeapRetention.Toml

/-- A blank within a line. -/
def isBlank (c : Char) : Bool := c = ' ' || c = '\t'

/-- A character that may stand for itself in a quoted text or a comment: no control character but
the tab. -/
def isPlain (c : Char) : Bool := c = '\t' || (32 ≤ c.toNat && c.toNat ≠ 127)

/-- A character of a key that needs no quotes. -/
def isBare (c : Char) : Bool := c.isAlphanum || c = '_' || c = '-'

/-- A character of a value that needs no quotes. -/
def isScalar (c : Char) : Bool := isBare c || c = '+' || c = '.' || c = ':'

/-- Drops the blanks at the start. -/
def skipBlanks (text : List Char) : List Char := text.dropWhile isBlank

/-- The number of characters of the line end at the start, if there is one. -/
def lineEndLength : List Char → Nat
  | '\n' :: _ => 1
  | '\r' :: '\n' :: _ => 2
  | _ => 0

/-- Drops the line end at the start. The end of the text ends its last line. -/
def lineEnd? (text : List Char) : Option (List Char) :=
  if text.isEmpty then some []
  else if 0 < lineEndLength text then some (text.drop (lineEndLength text))
  else none

/-- Drops a comment at the start, up to the line end. -/
def skipComment : List Char → List Char
  | '#' :: rest => rest.dropWhile isPlain
  | text => text

/-- Drops what may follow on a line: blanks, a comment and the line end. -/
def restOfLine? (text : List Char) : Option (List Char) :=
  lineEnd? (skipComment (skipBlanks text))

/-- Drops blanks, comments and line ends, as they may stand between the items of a list. A comment
that holds a control character is cut there. -/
def skipLines (inComment : Bool) : List Char → List Char
  | [] => []
  | '\n' :: rest => skipLines false rest
  | '\r' :: '\n' :: rest => skipLines false rest
  | c :: rest =>
    if inComment then if isPlain c then skipLines true rest else c :: rest
    else if isBlank c then skipLines false rest
    else if c = '#' then skipLines true rest
    else c :: rest

end HeapRetention.Toml
