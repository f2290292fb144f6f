-- The laws of numerals. A text of digits spells one number, by the value of its
-- digits in the base, and a reader finds this number whatever zeros stand in
-- front. A word is read from the numerals of its value, however long these are,
-- so an id is read exactly from the texts that name it.
import Mathlib.Data.Nat.Digits.Lemmas
import Mathlib.Tactic.Ring
import HeapRetention.NodeId

namespace HeapRetention

namespace Numeral

/-! ## What a text spells -/

/-- The digits by their values, with small letters. -/
def smallDigits : List Char :=
  ['0', '1', '2', '3', '4', '5', '6', '7', '8', '9', 'a', 'b', 'c', 'd', 'e', 'f']

/-- The digits by their values, with large letters. -/
def largeDigits : List Char :=
  ['0', '1', '2', '3', '4', '5', '6', '7', '8', '9', 'A', 'B', 'C', 'D', 'E', 'F']

/-- A character is the digit of a base for a value. -/
def IsDigit (base : Nat) (c : Char) (value : Nat) : Prop :=
  value < base ∧ (smallDigits[value]? = some c ∨ largeDigits[value]? = some c)

/-- A text is digits, at least one, that have a number as their value. -/
def Spells (base : Nat) (text : List Char) (n : Nat) : Prop :=
  text ≠ [] ∧ ∃ values, List.Forall₂ (IsDigit base) text values ∧
    Nat.ofDigits base values.reverse = n

/-- A text without the plus sign in front of it, if it has one. -/
def unsigned (text : List Char) : List Char :=
  match text with
  | '+' :: rest => rest
  | _ => text

/-- A text spells a number after at most one plus sign. -/
def SpellsUnsigned (base : Nat) (text : List Char) (n : Nat) : Prop :=
  ∃ digits, (text = digits ∨ text = '+' :: digits) ∧ Spells base digits n

/-! ## Digits -/

theorem toNat_lt_of_digitRank {c : Char} (h : digitRank c < 36) : c.toNat < 128 := by
  unfold digitRank at h
  simp only [Char.le_def, UInt32.le_iff_toNat_le] at h
  have hnine : '9'.val.toNat < 128 := by decide
  have hz : 'z'.val.toNat < 128 := by decide
  have hZ : 'Z'.val.toNat < 128 := by decide
  unfold Char.toNat
  split_ifs at h <;> omega

/-- A character with the rank of a digit is one of the two digits for that value. -/
theorem digit_of_digitRank {c : Char} (h : digitRank c < 16) :
    smallDigits[digitRank c]? = some c ∨ largeDigits[digitRank c]? = some c := by
  have hall : ∀ k < 128, digitRank (Char.ofNat k) < 16 →
      smallDigits[digitRank (Char.ofNat k)]? = some (Char.ofNat k) ∨
        largeDigits[digitRank (Char.ofNat k)]? = some (Char.ofNat k) := by
    decide
  have hchar := hall c.toNat (toNat_lt_of_digitRank (by omega))
  rw [Char.ofNat_toNat] at hchar
  exact hchar h

theorem digitRank_of_digit {c : Char} {value : Nat} (hvalue : value < 16)
    (h : smallDigits[value]? = some c ∨ largeDigits[value]? = some c) : digitRank c = value := by
  have hsmall : ∀ k < 16, smallDigits[k]?.map digitRank = some k := by decide
  have hlarge : ∀ k < 16, largeDigits[k]?.map digitRank = some k := by decide
  rcases h with h | h
  · simpa [h] using hsmall value hvalue
  · simpa [h] using hlarge value hvalue

theorem unsigned_plus (rest : List Char) : unsigned ('+' :: rest) = rest := rfl

theorem unsigned_of_no_sign {text : List Char} (h : ∀ rest, text ≠ '+' :: rest) :
    unsigned text = text := by
  unfold unsigned
  split
  · rename_i rest
    exact absurd rfl (h rest)
  · rfl

theorem eq_unsigned (text : List Char) : text = unsigned text ∨ text = '+' :: unsigned text := by
  unfold unsigned
  split
  · exact Or.inr rfl
  · exact Or.inl rfl

/-- A word is a number that fits into one. -/
theorem word?_eq (base : Nat) (text : List Char) :
    word? base text = (value? base (unsigned text)).bind fun n =>
      if n < UInt64.size then some (UInt64.ofNat n) else none := by
  unfold word?
  split
  · rename_i rest
    simp only [unsigned_plus]
    cases value? base rest <;> rfl
  · rename_i hsign
    simp only [unsigned_of_no_sign hsign]
    cases value? base text <;> rfl

section Bases

variable {base : Nat} (hbase : base ≤ 16)

include hbase

theorem digitValue?_eq_some_iff {c : Char} {value : Nat} :
    digitValue? base c = some value ↔ IsDigit base c value := by
  unfold digitValue? IsDigit
  refine ⟨?_, ?_⟩
  · intro h
    split at h
    · rename_i hlt
      obtain rfl := Option.some.inj h
      exact ⟨hlt, digit_of_digitRank (Nat.lt_of_lt_of_le hlt hbase)⟩
    · cases h
  · rintro ⟨hlt, h⟩
    rw [digitRank_of_digit (Nat.lt_of_lt_of_le hlt hbase) h, if_pos hlt]

theorem pushDigit_eq_some_iff {c : Char} {n m : Nat} :
    pushDigit base n c = some m ↔ ∃ value, IsDigit base c value ∧ base * n + value = m := by
  simp only [pushDigit, Option.map_eq_some_iff, digitValue?_eq_some_iff hbase]

/-! ## Reading digits -/

/-- Digits that are read after a number move it up by as many places. -/
theorem foldlM_pushDigit_eq_some_iff {text : List Char} {start n : Nat} :
    text.foldlM (pushDigit base) start = some n ↔
      ∃ values, List.Forall₂ (IsDigit base) text values ∧
        Nat.ofDigits base values.reverse + base ^ text.length * start = n := by
  induction text generalizing start with
  | nil => simp
  | cons c rest ih =>
    -- the number so far with the first digit is what the rest is read after
    have hvalue : ∀ (values : List Nat) (value : Nat), List.Forall₂ (IsDigit base) rest values →
        Nat.ofDigits base (value :: values).reverse + base ^ (c :: rest).length * start =
          Nat.ofDigits base values.reverse + base ^ rest.length * (base * start + value) := by
      intro values value hvalues
      rw [List.reverse_cons, Nat.ofDigits_append, Nat.ofDigits_singleton, List.length_reverse,
        ← hvalues.length_eq, List.length_cons]
      ring
    simp only [List.foldlM_cons, Option.bind_eq_bind, Option.bind_eq_some_iff,
      pushDigit_eq_some_iff hbase, ih]
    refine ⟨?_, ?_⟩
    · rintro ⟨_, ⟨value, hc, rfl⟩, values, hvalues, rfl⟩
      exact ⟨value :: values, .cons hc hvalues, hvalue values value hvalues⟩
    · rintro ⟨_, hall, rfl⟩
      cases hall with
      | @cons _ value _ values hc hvalues =>
        exact ⟨_, ⟨value, hc, rfl⟩, values, hvalues, (hvalue values value hvalues).symm⟩

theorem value?_eq_some_iff {text : List Char} {n : Nat} :
    value? base text = some n ↔ Spells base text n := by
  cases text with
  | nil => simp [value?, Spells]
  | cons c rest =>
    rw [value?, foldlM_pushDigit_eq_some_iff hbase]
    simp [Spells]

theorem not_spells_plus {digits : List Char} {n : Nat} : ¬ Spells base ('+' :: digits) n := by
  rintro ⟨-, _, hall, -⟩
  cases hall with
  | cons hplus _ =>
    rw [← digitValue?_eq_some_iff hbase, digitValue?, if_neg] at hplus
    · cases hplus
    · have hrank : digitRank '+' = 36 := by decide
      omega

/-! ## Reading words -/

/-- What is spelled is spelled behind the sign, if there is one. -/
theorem spellsUnsigned_iff {text : List Char} {n : Nat} :
    SpellsUnsigned base text n ↔ Spells base (unsigned text) n := by
  unfold SpellsUnsigned
  refine ⟨?_, fun h => ⟨unsigned text, eq_unsigned text, h⟩⟩
  rintro ⟨digits, rfl | rfl, h⟩
  · rwa [unsigned_of_no_sign]
    rintro rest rfl
    exact not_spells_plus hbase h
  · rwa [unsigned_plus]

/-- A word is read from a text exactly if the text spells its value. -/
theorem word?_eq_some_iff {text : List Char} {w : UInt64} :
    word? base text = some w ↔ SpellsUnsigned base text w.toNat := by
  rw [spellsUnsigned_iff hbase, ← value?_eq_some_iff hbase, word?_eq]
  cases value? base (unsigned text) with
  | none => simp
  | some n =>
    rw [Option.bind_some, Option.some.injEq]
    refine ⟨?_, ?_⟩
    · intro h
      split at h
      · rename_i hn
        rw [← Option.some.inj h, UInt64.toNat_ofNat_of_lt' hn]
      · cases h
    · rintro rfl
      rw [if_pos w.toNat_lt_size, UInt64.ofNat_toNat]

end Bases

/-! ## Written numerals -/

theorem mem_digits {base n : Nat} (h2 : 2 ≤ base) {c : Char} (hc : c ∈ digits base n) :
    ∃ d < base, c = Nat.digitChar d := by
  induction n using Nat.strongRecOn with
  | ind n ih =>
    unfold digits at hc
    split at hc
    · rename_i hsmall
      exact ⟨n, by omega, List.mem_singleton.mp hc⟩
    · rcases List.mem_append.mp hc with hhigh | hlow
      · exact ih (n / base) (Nat.div_lt_self (by omega) (by omega)) hhigh
      · exact ⟨n % base, Nat.mod_lt n (by omega), List.mem_singleton.mp hlow⟩

theorem digitRank_lt_of_mem_digits {base n : Nat} (h2 : 2 ≤ base) (h16 : base ≤ 16) {c : Char}
    (hc : c ∈ digits base n) : digitRank c < base := by
  obtain ⟨d, hd, rfl⟩ := mem_digits h2 hc
  rwa [digitRank_digitChar (Nat.lt_of_lt_of_le hd h16)]

/-- No character other than a digit stands in a written numeral. -/
theorem not_mem_digits {base n : Nat} (h2 : 2 ≤ base) (h16 : base ≤ 16) {c : Char}
    (hc : digitRank c = 36) : c ∉ digits base n := by
  intro hmem
  have hlt := digitRank_lt_of_mem_digits h2 h16 hmem
  omega

/-- No zero stands in front of a written numeral, but for the numeral of zero. -/
theorem head?_digits {base n : Nat} (h2 : 2 ≤ base) (h16 : base ≤ 16) (hn : n ≠ 0) :
    (digits base n).head? ≠ some '0' := by
  induction n using Nat.strongRecOn with
  | ind n ih =>
    unfold digits
    split
    · rename_i hsmall
      intro hzero
      have hrank := digitRank_digitChar (show n < 16 by omega)
      rw [Option.some.inj hzero] at hrank
      exact hn hrank.symm
    · rename_i hbig
      have hhigh : n / base ≠ 0 := by
        rw [Nat.ne_zero_iff_zero_lt, Nat.div_pos_iff]
        omega
      rw [List.head?_append_of_ne_nil _ (digits_ne_nil base (n / base))]
      exact ih (n / base) (Nat.div_lt_self (by omega) (by omega)) hhigh

/-- A word is read back from its numeral. -/
theorem word?_digits {base : Nat} (h2 : 2 ≤ base) (h16 : base ≤ 16) (w : UInt64) :
    word? base (digits base w.toNat) = some w := by
  have hsign : ∀ rest, digits base w.toNat ≠ '+' :: rest := by
    intro rest hplus
    have hmem : '+' ∈ digits base w.toNat := by
      rw [hplus]
      exact List.mem_cons_self
    exact not_mem_digits h2 h16 (by decide) hmem
  rw [word?_eq, unsigned_of_no_sign hsign, value?_digits h2 h16, Option.bind_some,
    if_pos w.toNat_lt_size, UInt64.ofNat_toNat]

end Numeral

/-! ## Ids -/

namespace NodeId

/-- What stands behind the mark of a hexadecimal numeral. -/
def HexPart (text rest : List Char) : Prop :=
  text = '0' :: 'x' :: rest ∨ text = '0' :: 'X' :: rest

/-- A text names a number: by a hexadecimal numeral behind `0x` or `0X`, or by a decimal one if it
has no such mark. -/
def Names (text : List Char) (n : Nat) : Prop :=
  (∃ rest, HexPart text rest ∧ Numeral.SpellsUnsigned 16 rest n) ∨
    (∀ rest, ¬ HexPart text rest) ∧ Numeral.SpellsUnsigned 10 text n

theorem names_iff_of_hexPart {text rest : List Char} {n : Nat} (h : HexPart text rest) :
    Names text n ↔ Numeral.SpellsUnsigned 16 rest n := by
  have hunique : ∀ other, HexPart text other → other = rest := by
    rintro other (h' | h') <;> rcases h with h | h <;> simp_all
  refine ⟨?_, fun hspells => Or.inl ⟨rest, h, hspells⟩⟩
  rintro (⟨other, hother, hspells⟩ | ⟨hnone, _⟩)
  · rwa [← hunique other hother]
  · exact absurd h (hnone rest)

theorem read?_eq_some_iff {text : List Char} {id : NodeId} :
    read? text = some id ↔ Names text id.word.toNat := by
  obtain ⟨w⟩ := id
  have hmk : ∀ word : Option UInt64, word.map NodeId.mk = some ⟨w⟩ ↔ word = some w := by
    rintro (_ | word)
    · simp
    · simp
  unfold read?
  rw [hmk]
  split
  · rename_i rest
    rw [names_iff_of_hexPart (Or.inl rfl), Numeral.word?_eq_some_iff (by decide)]
  · rename_i rest
    rw [names_iff_of_hexPart (Or.inr rfl), Numeral.word?_eq_some_iff (by decide)]
  · rename_i hsmall hlarge
    have hnone : ∀ rest, ¬ HexPart text rest := by
      rintro rest (rfl | rfl)
      · exact hsmall rest rfl
      · exact hlarge rest rfl
    rw [Numeral.word?_eq_some_iff (by decide)]
    refine ⟨fun h => Or.inr ⟨hnone, h⟩, ?_⟩
    rintro (⟨rest, hrest, _⟩ | ⟨_, h⟩)
    · exact absurd hrest (hnone rest)
    · exact h

theorem toList_text (id : NodeId) :
    id.text.toList = '0' :: 'x' :: Numeral.digits 16 id.word.toNat := by
  simp [text, Numeral.hex]

/-- An id is read back from the text that shows it. -/
theorem read?_text (id : NodeId) : read? id.text.toList = some id := by
  rw [toList_text]
  simp [read?, Numeral.word?_digits (show 2 ≤ 16 by decide) (Nat.le_refl 16)]

/-- An id is read from exactly the texts that name its word. A text is refused exactly if all that
it names is too large for a word, and so also if it names nothing. -/
theorem ids_are_read_from_the_texts_that_name_them (text : List Char) :
    (∀ id, read? text = some id ↔ Names text id.word.toNat) ∧
      (read? text = none ↔ ∀ n, Names text n → 2 ^ 64 ≤ n) := by
  refine ⟨fun _ => read?_eq_some_iff, ?_⟩
  rw [Option.eq_none_iff_forall_ne_some]
  refine ⟨?_, ?_⟩
  · intro hnone n hn
    by_contra hlt
    have hword : (UInt64.ofNat n).toNat = n := UInt64.toNat_ofNat_of_lt' (Nat.not_le.mp hlt)
    apply hnone ⟨UInt64.ofNat n⟩
    rw [read?_eq_some_iff, hword]
    exact hn
  · intro hlarge id hread
    have hle := hlarge _ (read?_eq_some_iff.mp hread)
    exact Nat.not_lt.mpr hle id.word.toNat_lt

/-- Zeros in front do not count, the largest word is the last one that is read, and a mark alone
names nothing. -/
example : read? "0X00000000000000000002a".toList = some ⟨42⟩ ∧
    read? "+18446744073709551615".toList = some ⟨18446744073709551615⟩ ∧
    read? "18446744073709551616".toList = none ∧ read? "0x".toList = none := by
  decide +kernel

end NodeId

end HeapRetention
