-- The ids of heap objects. A snapshot names its objects by address-like
-- words. An id is shown in hexadecimal after `0x`, and it is read in decimal,
-- or in hexadecimal after `0x` or `0X`.
import Std.Data.TreeMap
import HeapRetention.Numeral

namespace HeapRetention

/-- The id that a snapshot gives to an object. -/
structure NodeId where
  word : UInt64
deriving DecidableEq, Inhabited, Repr

namespace NodeId

/-- Ids are ordered by their words. -/
instance : Ord NodeId := ⟨compareOn NodeId.word⟩

instance : Std.TransOrd NodeId := inferInstanceAs (Std.TransCmp (compareOn NodeId.word))

instance : Std.LawfulEqOrd NodeId where
  compare_self := by
    intro a
    exact @Std.ReflCmp.compare_self UInt64 compare _ a.word
  eq_of_compare := by
    intro a b h
    have hword : a.word = b.word := @Std.LawfulEqOrd.eq_of_compare UInt64 _ _ _ _ h
    cases a
    cases b
    simp_all

instance : LE NodeId := ⟨fun a b => a.word ≤ b.word⟩

instance (a b : NodeId) : Decidable (a ≤ b) := inferInstanceAs (Decidable (a.word ≤ b.word))

instance : Std.IsLinearOrder NodeId where
  le_refl a := Std.le_refl a.word
  le_trans _ _ _ hab hbc := Std.IsPreorder.le_trans (α := UInt64) _ _ _ hab hbc
  le_antisymm a b hab hba := by
    cases a
    cases b
    exact congrArg NodeId.mk (Std.le_antisymm hab hba)
  le_total a b := @Std.le_total _ _ _ a.word b.word

/-- An id as reports show it. -/
def text (id : NodeId) : String := "0x" ++ Numeral.hex id.word.toNat

/-- The id that a string names. Only one `0x` or `0X` is taken off, and only at the start. -/
def read? (text : List Char) : Option NodeId :=
  let word := match text with
    | '0' :: 'x' :: rest => Numeral.word? 16 rest
    | '0' :: 'X' :: rest => Numeral.word? 16 rest
    | _ => Numeral.word? 10 text
  word.map NodeId.mk

end NodeId

end HeapRetention
