-- The tokens of a document: brackets, marks, names, numbers and texts. Blanks
-- stand between tokens and mean nothing.
import HeapRetention.Json.Literal

namespace HeapRetention.Json

/-- A token. -/
inductive Token where
  | openList | closeList | openRecord | closeRecord | comma | colon
  | null
  | bool (value : Bool)
  | natural (value : Nat)
  | number (literal : String)
  | text (value : Literal)
deriving Repr

/-! ## Texts -/

/-- Splits a text at its closing quote: what stands before it, added to what was read before, and
the rest. A character after a backslash closes nothing. -/
def splitQuote : (literal text : List Char) → Option (List Char × List Char)
  | _, [] => none
  | literal, '"' :: rest => some (literal.reverse, rest)
  | literal, '\\' :: c :: rest => splitQuote (c :: '\\' :: literal) rest
  | literal, c :: rest => splitQuote (c :: literal) rest

theorem splitQuote_length {literal text body rest : List Char}
    (h : splitQuote literal text = some (body, rest)) : rest.length < text.length := by
  fun_induction splitQuote literal text with
  | case1 => simp at h
  | case2 => simp_all
  | case3 literal c more ih =>
    have := ih h
    simp only [List.length_cons]
    omega
  | case4 literal c more _ _ ih =>
    have := ih h
    simp only [List.length_cons]
    omega

/-! ## Numbers -/

/-- The characters of numbers. No other token has one of them next to a number. -/
def isNumeric (c : Char) : Bool :=
  c.isDigit || c = '+' || c = '-' || c = '.' || c = 'e' || c = 'E'

/-- Whether a text is digits, at least one. -/
def isDigits (text : List Char) : Bool := !text.isEmpty && text.all Char.isDigit

/-- Whether a text is the whole part of a number: digits without a zero in front. -/
def isWhole (text : List Char) : Bool :=
  isDigits text && (text.head? ≠ some '0' || text.length = 1)

/-- Whether a text is an exponent after its letter: digits after at most one sign. -/
def isExponent : List Char → Bool
  | '+' :: digits => isDigits digits
  | '-' :: digits => isDigits digits
  | digits => isDigits digits

/-- Whether a text is what may follow the whole part of a number: nothing, or a fraction, or an
exponent, or both in this order. -/
def isTail (text : List Char) : Bool :=
  let afterFraction := match text with
    | '.' :: rest =>
      if isDigits (rest.takeWhile Char.isDigit) then some (rest.dropWhile Char.isDigit) else none
    | _ => some text
  match afterFraction with
  | none => false
  | some [] => true
  | some (e :: rest) => (e = 'e' || e = 'E') && isExponent rest

/-- The number that a text is. Digits alone are a natural number. -/
def number? (text : List Char) : Option Token :=
  if isWhole text then (Numeral.value? 10 text).map .natural
  else
    let unsigned := match text with
      | '-' :: rest => rest
      | _ => text
    if isWhole (unsigned.takeWhile Char.isDigit) && isTail (unsigned.dropWhile Char.isDigit) then
      some (.number (String.ofList text))
    else none

/-! ## All tokens -/

/-- The blanks of a document. -/
def isBlank (c : Char) : Bool := c = ' ' || c = '\n' || c = '\r' || c = '\t'

/-- The marks of a document. -/
def mark? (c : Char) : Option Token :=
  if c = '[' then some .openList
  else if c = ']' then some .closeList
  else if c = '{' then some .openRecord
  else if c = '}' then some .closeRecord
  else if c = ',' then some .comma
  else if c = ':' then some .colon
  else none

/-- The tokens of a text, added to those that were read before, the latest first. -/
def scan (tokens : List Token) (text : List Char) : Option (List Token) :=
  match text with
  | [] => some tokens.reverse
  | 'n' :: 'u' :: 'l' :: 'l' :: rest => scan (.null :: tokens) rest
  | 't' :: 'r' :: 'u' :: 'e' :: rest => scan (.bool true :: tokens) rest
  | 'f' :: 'a' :: 'l' :: 's' :: 'e' :: rest => scan (.bool false :: tokens) rest
  | '"' :: rest =>
    match _h : splitQuote [] rest with
    | none => none
    | some (literal, after) =>
      match text? literal with
      | none => none
      | some value => scan (.text value :: tokens) after
  | c :: rest =>
    if isBlank c then scan tokens rest
    else if isNumeric c then
      match number? (c :: rest.takeWhile isNumeric) with
      | none => none
      | some token => scan (token :: tokens) (rest.dropWhile isNumeric)
    else match mark? c with
      | none => none
      | some token => scan (token :: tokens) rest
termination_by text.length
decreasing_by
  all_goals simp_wf
  all_goals try omega
  · have hsplit := splitQuote_length _h
    omega
  · have hdrop := (List.dropWhile_sublist (l := rest) isNumeric).length_le
    omega

/-- The tokens of a text. -/
def tokens? (text : String) : Option (List Token) := scan [] text.toList

end HeapRetention.Json
