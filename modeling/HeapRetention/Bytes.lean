-- Byte counts. A count is one 64-bit word. Sums and products stop at the
-- largest word, so a huge snapshot never wraps around to a small number; the
-- checked sum has no value where it would pass the largest word.

namespace HeapRetention

/-- A number of bytes, at most `2 ^ 64 - 1`. -/
abbrev Bytes := UInt64

namespace Bytes

/-! ## Arithmetic with a ceiling -/

/-- The largest count. -/
def most : Nat := UInt64.size - 1

/-- The count nearest to a natural number. -/
def clamp (n : Nat) : Bytes := UInt64.ofNat (min n most)

/-- The sum, or the largest count where the sum would pass it. -/
def add (a b : Bytes) : Bytes := clamp (a.toNat + b.toNat)

/-- The product, or the largest count where the product would pass it. -/
def mul (a b : Bytes) : Bytes := clamp (a.toNat * b.toNat)

/-- The sum of a list, cut at the largest count after each step. -/
def total (counts : List Bytes) : Bytes := counts.foldl add 0

/-- The sum of a list without a ceiling. -/
def sum (counts : List Bytes) : Nat := counts.foldr (fun count rest => count.toNat + rest) 0

/-- The exact sum of a list, or nothing where it passes the largest count. -/
def sum? (counts : List Bytes) : Option Bytes :=
  if sum counts ≤ most then some (UInt64.ofNat (sum counts)) else none

/-! ## In natural numbers -/

theorem toNat_le_most (a : Bytes) : a.toNat ≤ most := by
  have := a.toNat_lt
  simp only [most, UInt64.size]
  omega

@[simp]
theorem toNat_clamp (n : Nat) : (clamp n).toNat = min n most := by
  simp only [clamp, UInt64.toNat_ofNat', most, UInt64.size]
  omega

theorem toNat_add (a b : Bytes) : (add a b).toNat = min (a.toNat + b.toNat) most := by
  simp [add]

theorem toNat_mul (a b : Bytes) : (mul a b).toNat = min (a.toNat * b.toNat) most := by
  simp [mul]

theorem toNat_foldl_add (counts : List Bytes) (start : Bytes) :
    (counts.foldl add start).toNat = min (start.toNat + sum counts) most := by
  induction counts generalizing start with
  | nil => simpa [sum] using (Nat.min_eq_left (toNat_le_most start)).symm
  | cons a rest ih =>
    simp only [List.foldl_cons, ih, toNat_add, sum, List.foldr_cons]
    omega

/-- Cutting after each step gives the exact sum, cut once. -/
theorem toNat_total (counts : List Bytes) :
    (total counts).toNat = min (sum counts) most := by
  simp [total, toNat_foldl_add]

/-- The checked sum has a value exactly where the exact sum is a count. -/
theorem sum?_eq_some_iff {counts : List Bytes} {t : Bytes} :
    sum? counts = some t ↔ sum counts = t.toNat := by
  have hmost := toNat_le_most t
  unfold sum?
  constructor
  · intro h
    split at h
    · rename_i hle
      obtain rfl := Option.some.inj h
      rw [UInt64.toNat_ofNat', Nat.mod_eq_of_lt]
      simp only [most, UInt64.size] at hle
      omega
    · simp at h
  · intro h
    simp [h, hmost]

end Bytes

end HeapRetention
