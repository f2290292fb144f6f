-- The laws of text literals. A character is written as itself, as a backslash
-- with a letter, or as a backslash with the four digits of its unit. So the
-- closing quote of a literal is the first bare one, and the text between the
-- quotes is read back, whatever characters it has.
import HeapRetention.Json.Token
import HeapRetention.Json.Writer
import HeapRetention.Proofs.Numerals

namespace HeapRetention.Json

/-! ## How a character is written -/

/-- What a character is written as between quotes. -/
inductive Written (c : Char) : List Char → Prop
  /-- A backslash and a letter that stands for the character. -/
  | letter {x : Char} (hu : x ≠ 'u') (hx : escaped? x = some c) : Written c ['\\', x]
  /-- A backslash and four digits. Only control characters are written so. -/
  | unit (hc : c.toNat < 32) : Written c ('\\' :: 'u' :: hexUnit c.toNat)
  /-- The character itself. -/
  | bare (hquote : c ≠ '"') (hslash : c ≠ '\\') (hc : 32 ≤ c.toNat) : Written c [c]

theorem eq_of_toNat {c d : Char} (h : c.toNat = d.toNat) : c = d := by
  rw [← Char.ofNat_toNat c, h, Char.ofNat_toNat]

theorem written_of_eq {c d x : Char} (h : c = d) (hx : x ≠ 'u' ∧ escaped? x = some d) :
    Written c ['\\', x] := by
  subst h
  exact .letter hx.1 hx.2

theorem written_escapeChar (c : Char) : Written c (escapeChar c) := by
  unfold escapeChar
  split_ifs with hquote hslash hline hreturn htab hback hfeed hcontrol
  · exact written_of_eq hquote (by decide)
  · exact written_of_eq hslash (by decide)
  · exact written_of_eq hline (by decide)
  · exact written_of_eq hreturn (by decide)
  · exact written_of_eq htab (by decide)
  · exact written_of_eq (eq_of_toNat (d := Char.ofNat 8) hback) (by decide)
  · exact written_of_eq (eq_of_toNat (d := Char.ofNat 12) hfeed) (by decide)
  · exact .unit hcontrol
  · exact .bare hquote hslash (Nat.not_lt.mp hcontrol)

/-! ## The closing quote -/

theorem splitQuote_bare {c : Char} (hquote : c ≠ '"') (hslash : c ≠ '\\')
    (literal rest : List Char) :
    splitQuote literal (c :: rest) = splitQuote (c :: literal) rest := by
  rw [splitQuote]
  · exact hquote
  · intro d more h
    exact absurd h hslash

/-- Digits close no literal. -/
theorem splitQuote_hexUnit (n : Nat) (literal rest : List Char) :
    splitQuote literal (hexUnit n ++ rest) = splitQuote ((hexUnit n).reverse ++ literal) rest := by
  have hbare : ∀ d < 16, Nat.digitChar d ≠ '"' ∧ Nat.digitChar d ≠ '\\' := by decide
  have hstep : ∀ k (literal rest : List Char),
      splitQuote literal (Nat.digitChar (k % 16) :: rest) =
        splitQuote (Nat.digitChar (k % 16) :: literal) rest := by
    intro k
    obtain ⟨hquote, hslash⟩ := hbare (k % 16) (Nat.mod_lt k (by decide))
    exact splitQuote_bare hquote hslash
  simp only [hexUnit, List.cons_append, List.nil_append, List.reverse_cons, List.reverse_nil, hstep]

/-- A written character closes no literal. -/
theorem splitQuote_written {c : Char} {spelling : List Char} (h : Written c spelling)
    (literal rest : List Char) :
    splitQuote literal (spelling ++ rest) = splitQuote (spelling.reverse ++ literal) rest := by
  cases h with
  | letter _ _ => simp [splitQuote]
  | unit _ =>
    have hslash : splitQuote literal ('\\' :: 'u' :: (hexUnit c.toNat ++ rest)) =
        splitQuote ('u' :: '\\' :: literal) (hexUnit c.toNat ++ rest) := by
      rw [splitQuote]
    simp [hslash, splitQuote_hexUnit]
  | bare hquote hslash _ => exact splitQuote_bare hquote hslash literal rest

theorem splitQuote_escape (text rest : List Char) :
    splitQuote [] (escape text ++ '"' :: rest) = some (escape text, rest) := by
  have hread : ∀ literal, splitQuote literal (escape text ++ '"' :: rest) =
      some (literal.reverse ++ escape text, rest) := by
    induction text with
    | nil =>
      intro literal
      simp [escape, splitQuote]
    | cons c text ih =>
      intro literal
      have hescape : escape (c :: text) = escapeChar c ++ escape text := rfl
      rw [hescape, List.append_assoc, splitQuote_written (written_escapeChar c), ih]
      simp
  exact hread []

/-! ## The text of a literal -/

/-- A piece stands for a character: it is the character itself or the unit of a control
character. -/
inductive StandsFor (c : Char) : Piece → Prop
  | char : StandsFor c (.char c)
  | unit (hc : c.toNat < 32) : StandsFor c (.unit c.toNat)

/-- What a character is written as is read as one piece, which stands for it. -/
theorem pieces?_written {c : Char} {spelling : List Char} (h : Written c spelling)
    {rest : List Char} {more : List Piece} (hrest : pieces? rest = some more) :
    ∃ piece, StandsFor c piece ∧ pieces? (spelling ++ rest) = some (piece :: more) := by
  cases h with
  | @letter x hu hx =>
    refine ⟨.char c, .char, ?_⟩
    rw [List.cons_append, List.cons_append, List.nil_append, pieces?]
    · simp [hx, hrest]
    · intro a b c d rest' h
      exact absurd h hu
  | unit hc =>
    refine ⟨.unit c.toNat, .unit hc, ?_⟩
    simp [hexUnit, pieces?, hexUnit?_of_lt hc, hrest]
  | bare hquote hslash hc =>
    refine ⟨.char c, .char, ?_⟩
    rw [List.cons_append, List.nil_append, pieces?]
    · simp [hslash, Nat.not_lt.mpr hc, hrest]
    · intro a b c d rest' h
      exact absurd h hslash
    · intro d rest' h
      exact absurd h hslash

/-- The unit of a control character is no half of a pair. -/
theorem characters?_unit {n : Nat} (h : n < 32) (more : List Piece) :
    characters? (.unit n :: more) = (characters? more).map (Char.ofNat n :: ·) := by
  have hhigh : isHigh n = false := by
    simp [isHigh]
    omega
  have hlow : isLow n = false := by
    simp [isLow]
    omega
  cases more with
  | nil => simp [characters?, hhigh, hlow]
  | cons piece more =>
    cases piece with
    | char d => simp [characters?, hhigh, hlow]
    | unit k => rw [characters?, hhigh, hlow]; simp

theorem characters?_standsFor {c : Char} {piece : Piece} (h : StandsFor c piece)
    (more : List Piece) : characters? (piece :: more) = (characters? more).map (c :: ·) := by
  cases h with
  | char => rw [characters?]
  | unit hc => rw [characters?_unit hc, Char.ofNat_toNat]

theorem exists_pieces_escape (text : List Char) :
    ∃ pieces, pieces? (escape text) = some pieces ∧ characters? pieces = some text := by
  induction text with
  | nil => exact ⟨[], rfl, rfl⟩
  | cons c text ih =>
    obtain ⟨more, hmore, htext⟩ := ih
    obtain ⟨piece, hpiece, hread⟩ := pieces?_written (written_escapeChar c) hmore
    refine ⟨piece :: more, hread, ?_⟩
    rw [characters?_standsFor hpiece, htext, Option.map_some]

/-- A text is read back from its literal. -/
theorem text?_escape (value : String) : text? (escape value.toList) = some (.plain value) := by
  obtain ⟨pieces, hpieces, hvalue⟩ := exists_pieces_escape value.toList
  simp [text?, hpieces, hvalue]

end HeapRetention.Json
