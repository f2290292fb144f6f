-- Values without quotes: truth values, whole numbers, decimal numbers, and
-- dates and times. Such a value is a run of letters, digits and a few marks,
-- and the whole run has to be one value.
import HeapRetention.Data.Basic
import HeapRetention.Numeral
import HeapRetention.Toml.Character

namespace HeapRetention.Toml

/-! ## Digits -/

/-- The digits of a run in which single underscores may stand between digits. -/
def joinDigits (isDigit : Char → Bool) : List Char → Option (List Char)
  | [] => none
  | [c] => if isDigit c then some [c] else none
  | c :: '_' :: rest => if isDigit c then (joinDigits isDigit rest).map (c :: ·) else none
  | c :: rest => if isDigit c then (joinDigits isDigit rest).map (c :: ·) else none

/-- The digits of a whole number in base ten, which does not start with a zero. -/
def wholeDigits (text : List Char) : Option (List Char) :=
  if text.head? = some '0' ∧ text ≠ ['0'] then none else joinDigits Char.isDigit text

/-- Whether a text has a minus sign, and what follows its sign. -/
def splitSign : List Char → Bool × List Char
  | '-' :: rest => (true, rest)
  | '+' :: rest => (false, rest)
  | text => (false, text)

/-! ## Whole numbers -/

/-- A whole number of at most 63 bits and a sign. -/
def wholeNumber? (negative : Bool) (text : List Char) (value : Nat) : Option Data :=
  if negative ∧ value ≠ 0 then
    if value ≤ Nat.pow 2 63 then some (.number (String.ofList text)) else none
  else if value < Nat.pow 2 63 then some (.natural value)
  else none

/-- A whole number in base sixteen, eight or two after its mark, or in base ten with a sign. -/
def integer? (text : List Char) : Option Data := do
  let inBase (base : Nat) (digits : List Char) : Option Data := do
    let digits ← joinDigits (fun c => (Numeral.digitValue? base c).isSome) digits
    let value ← Numeral.value? base digits
    wholeNumber? false text value
  match text with
  | '0' :: 'x' :: digits => inBase 16 digits
  | '0' :: 'o' :: digits => inBase 8 digits
  | '0' :: 'b' :: digits => inBase 2 digits
  | _ =>
    let (negative, unsigned) := splitSign text
    let digits ← wholeDigits unsigned
    let value ← Numeral.value? 10 digits
    wholeNumber? negative text value

/-! ## Decimal numbers -/

/-- Whether `digits` times ten to the `exponent` is nearer to `2 ^ 1024` than to the largest
number of double precision. -/
def isTooLarge (digits : List Char) (exponent : Int) : Bool :=
  let significant := digits.dropWhile (· = '0')
  let magnitude := (significant.length : Int) + exponent
  let bound := Nat.pow 2 1024 - Nat.pow 2 970
  let value := (Numeral.value? 10 significant).getD 0
  if significant.isEmpty ∨ magnitude < 300 then false
  else if 320 < magnitude then true
  else if 0 ≤ exponent then decide (bound ≤ value * Nat.pow 10 exponent.toNat)
  else decide (bound * Nat.pow 10 (-exponent).toNat ≤ value)

/-- A decimal number: a whole part with a fraction, an exponent or both. A positive number that is
too large for double precision is refused. -/
def float? (text : List Char) : Option Data := do
  let number : Data := .number (String.ofList text)
  let (negative, unsigned) := splitSign text
  if unsigned = "inf".toList ∨ unsigned = "nan".toList then return number
  let isMark (c : Char) : Bool := c = '.' || c = 'e' || c = 'E'
  let whole ← wholeDigits (unsigned.takeWhile fun c => !isMark c)
  let rest := unsigned.dropWhile fun c => !isMark c
  let (fraction, rest) ← match rest with
    | '.' :: rest => do
      let fraction ← joinDigits Char.isDigit (rest.takeWhile fun c => !isMark c)
      pure (fraction, rest.dropWhile fun c => !isMark c)
    | [] => none
    | _ => pure ([], rest)
  let exponent ← match rest with
    | [] => pure 0
    | '.' :: _ => none
    | _ :: rest => do
      let (negative, unsigned) := splitSign rest
      let digits ← joinDigits Char.isDigit unsigned
      let value ← Numeral.value? 10 digits
      pure (if negative then -(value : Int) else (value : Int))
  if !negative ∧ isTooLarge (whole ++ fraction) (exponent - fraction.length) then none
  else pure number

/-! ## Dates and times -/

/-- The number of exactly so many digits at the start, within bounds, and what follows it. -/
def field? (digits lowest highest : Nat) (text : List Char) : Option (Nat × List Char) := do
  let run := text.take digits
  let value ← Numeral.value? 10 run
  if run.length = digits ∧ run.all Char.isDigit ∧ lowest ≤ value ∧ value ≤ highest then
    some (value, text.drop digits)
  else none

/-- What follows a mark at the start. -/
def mark? (mark : Char) : List Char → Option (List Char)
  | c :: rest => if c = mark then some rest else none
  | [] => none

/-- Whether a year has a 29th of February. -/
def isLeap (year : Nat) : Bool := (year % 4 = 0 && year % 100 ≠ 0) || year % 400 = 0

/-- The number of days of a month. -/
def daysIn (year month : Nat) : Nat :=
  if month = 2 then if isLeap year then 29 else 28
  else if month = 4 ∨ month = 6 ∨ month = 9 ∨ month = 11 then 30
  else 31

/-- What follows the date at the start. -/
def date? (text : List Char) : Option (List Char) := do
  let (year, text) ← field? 4 0 9999 text
  let (month, text) ← field? 2 1 12 (← mark? '-' text)
  let (_, text) ← field? 2 1 (daysIn year month) (← mark? '-' text)
  pure text

/-- What follows the time of day at the start. -/
def time? (text : List Char) : Option (List Char) := do
  let (_, text) ← field? 2 0 23 text
  let (_, text) ← field? 2 0 59 (← mark? ':' text)
  let (_, text) ← field? 2 0 60 (← mark? ':' text)
  match text with
  | '.' :: rest =>
    if (rest.head?.map Char.isDigit).getD false then some (rest.dropWhile Char.isDigit) else none
  | _ => some text

/-- Whether a text is an offset from universal time, or nothing. -/
def isOffset : List Char → Bool
  | [] => true
  | ['Z'] => true
  | ['z'] => true
  | c :: rest =>
    let ends := do
      let (_, rest) ← field? 2 0 23 rest
      let (_, rest) ← field? 2 0 59 (← mark? ':' rest)
      pure rest
    (c = '+' || c = '-') && ends = some []

/-- Whether a text is a time of day with or without an offset. -/
def isTimeWithOffset (text : List Char) : Bool :=
  match time? text with
  | some rest => isOffset rest
  | none => false

/-- Whether a text is a date, a time of day, or a date with a time. -/
def isDateTime (text : List Char) : Bool :=
  match date? text with
  | some [] => true
  | some (c :: rest) => (c = 'T' || c = 't' || c = ' ') && isTimeWithOffset rest
  | none => time? text = some []

/-- The data of a date or time: a record whose only field is no setting. -/
def dateTimeData (text : List Char) : Data :=
  .object [("datetime", .string (String.ofList text))]

/-! ## Any run -/

/-- The value that a run is. -/
def scalar? (text : List Char) : Option Data :=
  if text = "true".toList then some (.bool true)
  else if text = "false".toList then some (.bool false)
  else if isDateTime text then some (dateTimeData text)
  else (integer? text).orElse fun _ => float? text

/-- Reads the value at the start that has no quotes, and what follows it. A time may follow its
date after one blank. -/
def unquoted? (text : List Char) : Option (Data × List Char) :=
  let run := text.takeWhile isScalar
  let rest := text.dropWhile isScalar
  let timed := match rest with
    | ' ' :: more => run ++ ' ' :: more.takeWhile isScalar
    | _ => run
  if run ≠ timed ∧ date? run = some [] ∧ isDateTime timed then
    some (dateTimeData timed, text.drop timed.length)
  else (scalar? run).map fun value => (value, rest)

end HeapRetention.Toml
