-- Quoted texts of a settings file. Double quotes allow escapes, single quotes
-- do not; three quotes hold a text of several lines, whose first line end is
-- dropped. A text is first split at its closing quotes, and what stands
-- between the quotes is then read.
import HeapRetention.Numeral
import HeapRetention.Toml.Character

namespace HeapRetention.Toml

/-! ## Closing quotes -/

/-- Splits at the next closing quote: what stands before it, added to what was read before, and the
rest. With escapes, the character after a backslash closes nothing. -/
def splitQuote (quote : Char) (escapes : Bool) (body : List Char) :
    List Char → Option (List Char × List Char)
  | [] => none
  | [c] => if c = quote then some (body.reverse, []) else none
  | c :: d :: rest =>
    if c = quote then some (body.reverse, d :: rest)
    else if escapes ∧ c = '\\' then splitQuote quote escapes (d :: c :: body) rest
    else splitQuote quote escapes (c :: body) (d :: rest)

/-- Splits at three closing quotes, where `run` counts the quotes that were read last. At most two
more quotes in front of the closing ones belong to the text. -/
def splitQuotes (quote : Char) (escapes : Bool) (run : Nat) (body : List Char) :
    List Char → Option (List Char × List Char)
  | [] => if run < 3 then none else some ((body.drop 3).reverse, [])
  | [c] =>
    if c = quote then
      if run < 2 then none else some ((body.drop 2).reverse, [])
    else if run < 3 then none
    else some ((body.drop 3).reverse, [c])
  | c :: d :: rest =>
    if c = quote then
      if run = 4 then some ((body.drop 2).reverse, d :: rest)
      else splitQuotes quote escapes (run + 1) (c :: body) (d :: rest)
    else if 3 ≤ run then some ((body.drop 3).reverse, c :: d :: rest)
    else if escapes ∧ c = '\\' then splitQuotes quote escapes 0 (d :: c :: body) rest
    else splitQuotes quote escapes 0 (c :: body) (d :: rest)

/-! ## Between the quotes -/

/-- The character of a backslash and a letter. -/
def escaped? (c : Char) : Option Char :=
  if c = '"' ∨ c = '\\' then some c
  else if c = 'n' then some '\n'
  else if c = 'r' then some '\r'
  else if c = 't' then some '\t'
  else if c = 'b' then some (Char.ofNat 8)
  else if c = 'f' then some (Char.ofNat 12)
  else none

/-- The character whose code point has so many hexadecimal digits at the start of a text. -/
def codePoint? (digits : Nat) (text : List Char) : Option Char := do
  let n ← Numeral.value? 16 (text.take digits)
  if digits ≤ text.length ∧ n.isValidChar then some (Char.ofNat n) else none

/-- The character of an escape, after its backslash, and how many characters spell it. -/
def escape? : List Char → Option (Char × Nat)
  | 'u' :: rest => (codePoint? 4 rest).map fun c => (c, 5)
  | 'U' :: rest => (codePoint? 8 rest).map fun c => (c, 9)
  | c :: _ => (escaped? c).map fun c => (c, 1)
  | [] => none

/-- How a text of several lines goes on. -/
inductive Flow where
  /-- Characters stand for themselves. -/
  | plain
  /-- A backslash was read that has to stand at the end of its line. -/
  | lineEnding
  /-- Blanks and line ends are dropped after such a backslash. -/
  | joining
deriving DecidableEq, Repr

/-- The text that stands between quotes, with or without escapes and line ends. -/
def body? (escapes manyLines : Bool) (flow : Flow) (text : List Char) : Option (List Char) :=
  match text with
  | [] => if flow = .lineEnding then none else some []
  | c :: rest =>
    if 0 < lineEndLength (c :: rest) then
      let rest := rest.drop (lineEndLength (c :: rest) - 1)
      if !manyLines then none
      else if flow = .plain then (body? escapes manyLines .plain rest).map ('\n' :: ·)
      else body? escapes manyLines .joining rest
    else if flow ≠ .plain ∧ isBlank c then body? escapes manyLines flow rest
    else if flow = .lineEnding then none
    else if escapes ∧ c = '\\' then
      match escape? rest with
      | some (char, used) => (body? escapes manyLines .plain (rest.drop used)).map (char :: ·)
      | none => if manyLines then body? escapes manyLines .lineEnding rest else none
    else if isPlain c then (body? escapes manyLines .plain rest).map (c :: ·)
    else none
termination_by text.length
decreasing_by all_goals simp_wf; try omega

/-! ## Whole texts -/

/-- Reads what stands between the quotes that a text was split at. -/
def bodyOf? (escapes manyLines : Bool) (split : Option (List Char × List Char)) :
    Option (String × List Char) := do
  let (body, rest) ← split
  let text ← body? escapes manyLines .plain body
  pure (String.ofList text, rest)

/-- Reads a text of one line, if there is one at the start, and what follows it. -/
def oneLine? : List Char → Option (String × List Char)
  | '"' :: rest => bodyOf? true false (splitQuote '"' true [] rest)
  | '\'' :: rest => bodyOf? false false (splitQuote '\'' false [] rest)
  | _ => none

/-- Reads a text in any quotes, if there is one at the start, and what follows it. -/
def quoted? (text : List Char) : Option (String × List Char) :=
  match text with
  | '"' :: '"' :: '"' :: rest =>
    bodyOf? true true (splitQuotes '"' true 0 [] (rest.drop (lineEndLength rest)))
  | '\'' :: '\'' :: '\'' :: rest =>
    bodyOf? false true (splitQuotes '\'' false 0 [] (rest.drop (lineEndLength rest)))
  | _ => oneLine? text

end HeapRetention.Toml
