-- Text literals. Between its quotes a text is written with escapes: a
-- backslash and a letter, or four hexadecimal digits for a 16-bit unit. Two
-- units that form a surrogate pair are one character; half a pair is none.
import HeapRetention.Data.Basic
import HeapRetention.Numeral

namespace HeapRetention.Json

/-! ## Writing -/

/-- Four hexadecimal digits. -/
def hexUnit (n : Nat) : List Char :=
  [Nat.digitChar (n / 4096 % 16), Nat.digitChar (n / 256 % 16), Nat.digitChar (n / 16 % 16),
   Nat.digitChar (n % 16)]

/-- A character between the quotes of a literal. Quotes, backslashes and control characters are
escaped. -/
def escapeChar (c : Char) : List Char :=
  if c = '"' then ['\\', '"']
  else if c = '\\' then ['\\', '\\']
  else if c = '\n' then ['\\', 'n']
  else if c = '\r' then ['\\', 'r']
  else if c = '\t' then ['\\', 't']
  else if c.toNat = 8 then ['\\', 'b']
  else if c.toNat = 12 then ['\\', 'f']
  else if c.toNat < 32 then '\\' :: 'u' :: hexUnit c.toNat
  else [c]

/-- The literal of a text, without its quotes. -/
def escape (text : List Char) : List Char := text.flatMap escapeChar

/-! ## Reading -/

/-- What one spelling in a literal stands for. -/
inductive Piece where
  | char (c : Char)
  /-- A unit given by its four digits. -/
  | unit (n : Nat)
deriving DecidableEq, Repr

/-- The value of four hexadecimal digits. -/
def hexUnit? (a b c d : Char) : Option Nat := Numeral.value? 16 [a, b, c, d]

/-- The character that a backslash and a letter stand for. -/
def escaped? (c : Char) : Option Char :=
  if c = '"' ∨ c = '\\' ∨ c = '/' then some c
  else if c = 'n' then some '\n'
  else if c = 'r' then some '\r'
  else if c = 't' then some '\t'
  else if c = 'b' then some (Char.ofNat 8)
  else if c = 'f' then some (Char.ofNat 12)
  else none

/-- The pieces of a literal, if every escape is well formed and no control character is bare. -/
def pieces? : List Char → Option (List Piece)
  | [] => some []
  | '\\' :: 'u' :: a :: b :: c :: d :: rest => do
    let unit ← hexUnit? a b c d
    let more ← pieces? rest
    pure (.unit unit :: more)
  | '\\' :: c :: rest => do
    let char ← escaped? c
    let more ← pieces? rest
    pure (.char char :: more)
  | c :: rest =>
    if c = '\\' ∨ c.toNat < 32 then none else (pieces? rest).map (.char c :: ·)

/-- Whether a unit is the first half of a pair. -/
def isHigh (n : Nat) : Bool := 0xD800 ≤ n && n < 0xDC00

/-- Whether a unit is the second half of a pair. -/
def isLow (n : Nat) : Bool := 0xDC00 ≤ n && n < 0xE000

/-- The characters that pieces stand for, unless a half of a pair stands alone. -/
def characters? : List Piece → Option (List Char)
  | [] => some []
  | .char c :: rest => (characters? rest).map (c :: ·)
  | .unit high :: .unit low :: rest =>
    if isHigh high && isLow low then
      (characters? rest).map
        (Char.ofNat (0x10000 + (high - 0xD800) * 0x400 + (low - 0xDC00)) :: ·)
    else if isHigh high || isLow high then none
    else (characters? (.unit low :: rest)).map (Char.ofNat high :: ·)
  | .unit n :: rest =>
    if isHigh n || isLow n then none else (characters? rest).map (Char.ofNat n :: ·)

/-- The text of a literal, if the literal is well formed. -/
def text? (literal : List Char) : Option Literal :=
  (pieces? literal).map fun pieces =>
    match characters? pieces with
    | some text => .plain (String.ofList text)
    | none => .broken (String.ofList literal)

/-! ## Reading what was written -/

/-- The four digits of a control character are read as its unit. -/
theorem hexUnit?_of_lt {n : Nat} (h : n < 32) :
    hexUnit? (Nat.digitChar (n / 4096 % 16)) (Nat.digitChar (n / 256 % 16))
      (Nat.digitChar (n / 16 % 16)) (Nat.digitChar (n % 16)) = some n := by
  have hall : ∀ k < 32, hexUnit? (Nat.digitChar (k / 4096 % 16)) (Nat.digitChar (k / 256 % 16))
      (Nat.digitChar (k / 16 % 16)) (Nat.digitChar (k % 16)) = some k := by decide
  exact hall n h

end HeapRetention.Json
