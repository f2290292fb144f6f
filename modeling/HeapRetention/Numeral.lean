-- Numerals. A natural number is written with the fewest digits of a base,
-- and a digit string of any length is read back by its value.

namespace HeapRetention

namespace Numeral

/-! ## Writing -/

/-- The digits of a number, the highest first; letters are small. Zero has one digit. A base
below two has no numerals, so every number is then its own single digit. -/
def digits (base n : Nat) : List Char :=
  if _h : n < base ∨ base < 2 then [Nat.digitChar n]
  else digits base (n / base) ++ [Nat.digitChar (n % base)]
termination_by n
decreasing_by exact Nat.div_lt_self (by omega) (by omega)

/-- A number in base ten. -/
def decimal (n : Nat) : String := String.ofList (digits 10 n)

/-- A number in base sixteen. -/
def hex (n : Nat) : String := String.ofList (digits 16 n)

/-! ## Reading -/

/-- The value of a letter or digit, where letters of either case go on after nine. Any other
character has a value that is no digit of a base up to thirty-six. -/
def digitRank (c : Char) : Nat :=
  if '0' ≤ c ∧ c ≤ '9' then c.toNat - '0'.toNat
  else if 'a' ≤ c ∧ c ≤ 'z' then c.toNat - 'a'.toNat + 10
  else if 'A' ≤ c ∧ c ≤ 'Z' then c.toNat - 'A'.toNat + 10
  else 36

/-- The value of a digit of the base. -/
def digitValue? (base : Nat) (c : Char) : Option Nat :=
  if digitRank c < base then some (digitRank c) else none

/-- One more digit on the right of a number. -/
def pushDigit (base : Nat) (n : Nat) (c : Char) : Option Nat :=
  (digitValue? base c).map (base * n + ·)

/-- The value of a string of digits, which may start with zeros but holds at least one digit. -/
def value? (base : Nat) : List Char → Option Nat
  | [] => none
  | c :: rest => (c :: rest).foldlM (pushDigit base) 0

/-- The word that a string names: digits after at most one plus sign, with a value below
`2 ^ 64`. -/
def word? (base : Nat) (text : List Char) : Option UInt64 :=
  let unsigned := match text with
    | '+' :: rest => rest
    | _ => text
  match value? base unsigned with
  | some n => if n < UInt64.size then some (UInt64.ofNat n) else none
  | none => none

/-! ## Reading what was written -/

theorem digitRank_digitChar {d : Nat} (hd : d < 16) : digitRank (Nat.digitChar d) = d := by
  have hall : ∀ k < 16, digitRank (Nat.digitChar k) = k := by decide
  exact hall d hd

theorem digitValue?_digitChar {base d : Nat} (hd : d < base) (hb : base ≤ 16) :
    digitValue? base (Nat.digitChar d) = some d := by
  simp [digitValue?, digitRank_digitChar (show d < 16 by omega), hd]

theorem pushDigit_digitChar {base d : Nat} (n : Nat) (hd : d < base) (hb : base ≤ 16) :
    pushDigit base n (Nat.digitChar d) = some (base * n + d) := by
  simp [pushDigit, digitValue?_digitChar hd hb]

theorem digits_ne_nil (base n : Nat) : digits base n ≠ [] := by
  unfold digits
  split <;> simp

/-- Reading the digits of a number gives the number back. -/
theorem value?_digits {base : Nat} (h2 : 2 ≤ base) (h16 : base ≤ 16) (n : Nat) :
    value? base (digits base n) = some n := by
  have hfold : (digits base n).foldlM (pushDigit base) 0 = some n := by
    induction n using Nat.strongRecOn with
    | ind n ih =>
      unfold digits
      split
      · rename_i hsmall
        have hn : n < base := by omega
        simp [pushDigit_digitChar 0 hn h16]
      · rename_i hbig
        have hlt : n / base < n := Nat.div_lt_self (by omega) (by omega)
        have hmod : n % base < base := Nat.mod_lt n (by omega)
        rw [List.foldlM_append, ih _ hlt]
        simp [pushDigit_digitChar (n / base) hmod h16, Nat.div_add_mod]
  cases hd : digits base n with
  | nil => exact absurd hd (digits_ne_nil base n)
  | cons c rest => rw [hd] at hfold; exact hfold

end Numeral

end HeapRetention
