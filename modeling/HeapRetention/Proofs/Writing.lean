-- The laws of written documents. Data without odd numbers and broken texts has
-- the same tokens on one line and spread over many, since blanks between tokens
-- mean nothing. These tokens are read back to the data, however deep it is, so
-- both documents of the data hold the data.
import HeapRetention.Json.Dialect
import HeapRetention.Proofs.Escapes

namespace HeapRetention

/-- Data that is nested to at most so many levels, and of which every part has a written form of its
own: every number is a word, every text is a text of characters, and no two fields of a record share
a name. -/
inductive Data.Plain : Nat → Data → Prop
  | null {levels : Nat} : Plain levels .null
  | bool {levels : Nat} (value : Bool) : Plain levels (.bool value)
  | word {levels : Nat} (value : UInt64) : Plain levels (.word value)
  | string {levels : Nat} (value : String) : Plain levels (.string value)
  | list {levels : Nat} {items : List Data} (h : ∀ item ∈ items, Plain levels item) :
      Plain (levels + 1) (.list items)
  | object {levels : Nat} {fields : List (String × Data)} (hnames : (fields.map Prod.fst).Nodup)
      (h : ∀ field ∈ fields, Plain levels field.2) : Plain (levels + 1) (.object fields)

theorem Data.Plain.mono {data : Data} {levels more : Nat} (h : data.Plain levels)
    (hle : levels ≤ more) : data.Plain more := by
  induction h generalizing more with
  | null => exact .null
  | bool value => exact .bool value
  | word value => exact .word value
  | string value => exact .string value
  | list _ ih =>
    obtain ⟨more, rfl⟩ := Nat.exists_eq_add_of_le' (Nat.le_trans (Nat.le_add_left 1 _) hle)
    exact .list fun item hitem => ih item hitem (Nat.le_of_succ_le_succ hle)
  | object hnames _ ih =>
    obtain ⟨more, rfl⟩ := Nat.exists_eq_add_of_le' (Nat.le_trans (Nat.le_add_left 1 _) hle)
    exact .object hnames fun field hfield => ih field hfield (Nat.le_of_succ_le_succ hle)

/-- Plain data is read back from its text. A reader may refuse data that is nested deeper. -/
def Script.Faithful (script : Script) : Prop :=
  ∀ data : Data, data.Plain 127 → script.read? (script.write data) = some data

namespace Json

/-! ## The tokens of data -/

mutual

/-- The tokens that data is written with. -/
def tokensOf : Data → List Token
  | .null => [.null]
  | .bool value => [.bool value]
  | .natural value => [.natural value]
  | .number literal => [.number literal]
  | .text value => [.text value]
  | .list items => .openList :: tokensOfItems items ++ [.closeList]
  | .record fields => .openRecord :: tokensOfFields fields ++ [.closeRecord]

/-- The tokens of the items of a list, with commas between them. -/
def tokensOfItems : List Data → List Token
  | [] => []
  | [item] => tokensOf item
  | item :: more => tokensOf item ++ .comma :: tokensOfItems more

/-- The tokens of the fields of a record, with commas between them. -/
def tokensOfFields : List (Literal × Data) → List Token
  | [] => []
  | [(name, value)] => .text name :: .colon :: tokensOf value
  | (name, value) :: more => .text name :: .colon :: tokensOf value ++ .comma :: tokensOfFields more

end

/-! ## Scanning -/

/-- A text that may stand right behind a number. -/
def Ends (text : List Char) : Prop := ∀ c ∈ text.head?, isNumeric c = false

/-- A text is scanned as some tokens, before anything that may stand behind a number. -/
def Scans (text : List Char) (tokens : List Token) : Prop :=
  ∀ read rest, Ends rest → scan read (text ++ rest) = scan (tokens.reverse ++ read) rest

theorem ends_nil : Ends [] := by
  intro c hc
  cases hc

theorem ends_cons {c : Char} (h : isNumeric c = false) (rest : List Char) : Ends (c :: rest) := by
  intro d hd
  cases hd
  exact h

theorem ends_append {a b : List Char} (ha : Ends a) (hb : Ends b) : Ends (a ++ b) := by
  cases a with
  | nil => exact hb
  | cons c a => exact ends_cons (ha c rfl) (a ++ b)

theorem scans_nil : Scans [] [] := fun _ _ _ => rfl

theorem scans_append {a b : List Char} {s t : List Token} (ha : Scans a s) (hb : Scans b t)
    (hends : Ends b) : Scans (a ++ b) (s ++ t) := by
  intro read rest hrest
  rw [List.append_assoc, ha read (b ++ rest) (ends_append hends hrest), hb _ rest hrest,
    List.reverse_append, List.append_assoc]

theorem scan_mark {c : Char} {token : Token} (h : mark? c = some token) (read : List Token)
    (rest : List Char) : scan read (c :: rest) = scan (token :: read) rest := by
  have hmark : c = '[' ∨ c = ']' ∨ c = '{' ∨ c = '}' ∨ c = ',' ∨ c = ':' := by
    unfold mark? at h
    grind
  rcases hmark with rfl | rfl | rfl | rfl | rfl | rfl <;> cases h <;>
    simp [scan, isBlank, isNumeric, mark?]

theorem scans_mark {c : Char} {token : Token} {b : List Char} {t : List Token}
    (h : mark? c = some token) (hb : Scans b t) : Scans (c :: b) (token :: t) := by
  intro read rest hrest
  rw [List.cons_append, scan_mark h, hb _ rest hrest]
  simp

/-! ## Blanks, texts and numbers -/

theorem eq_of_isBlank {c : Char} (h : isBlank c = true) :
    c = ' ' ∨ c = '\n' ∨ c = '\r' ∨ c = '\t' := by
  simpa [isBlank, or_assoc] using h

theorem isNumeric_of_isBlank {c : Char} (h : isBlank c = true) : isNumeric c = false := by
  rcases eq_of_isBlank h with rfl | rfl | rfl | rfl <;> decide

theorem scan_blank {c : Char} (h : isBlank c = true) (read : List Token) (rest : List Char) :
    scan read (c :: rest) = scan read rest := by
  rcases eq_of_isBlank h with rfl | rfl | rfl | rfl <;> simp [scan, isBlank]

theorem scans_blanks {blanks : List Char} (hall : ∀ c ∈ blanks, isBlank c = true) {b : List Char}
    {t : List Token} (hb : Scans b t) : Scans (blanks ++ b) t := by
  induction blanks with
  | nil => exact hb
  | cons c blanks ih =>
    have hrest := ih fun d hd => hall d (List.mem_cons_of_mem c hd)
    intro read rest hends
    rw [List.cons_append, List.cons_append, scan_blank (hall c List.mem_cons_self),
      hrest read rest hends]

theorem isBlank_newline (level : Nat) : ∀ c ∈ newline level, isBlank c = true := by
  intro c hc
  rcases List.mem_cons.mp hc with rfl | hspace
  · rfl
  · rw [List.eq_of_mem_replicate hspace]
    rfl

theorem isBlank_space : ∀ c ∈ [' '], isBlank c = true := by
  intro c hc
  rw [List.mem_singleton.mp hc]
  rfl

theorem ends_newline (level : Nat) (rest : List Char) : Ends (newline level ++ rest) :=
  ends_cons rfl _

theorem scan_quoted (value : String) (read : List Token) (rest : List Char) :
    scan read ('"' :: (escape value.toList ++ '"' :: rest)) =
      scan (.text (.plain value) :: read) rest := by
  have hsplit := splitQuote_escape value.toList rest
  rw [scan]
  split
  · rename_i hnone
    rw [hsplit] at hnone
    cases hnone
  · rename_i literal after hsome
    obtain ⟨rfl, rfl⟩ := Prod.mk.inj (Option.some.inj (hsplit.symm.trans hsome))
    simp [text?_escape]

theorem scans_quoted (value : String) {b : List Char} {t : List Token} (hb : Scans b t) :
    Scans (quoted (.plain value) ++ b) (.text (.plain value) :: t) := by
  intro read rest hrest
  have hquoted : quoted (.plain value) ++ b ++ rest =
      '"' :: (escape value.toList ++ '"' :: (b ++ rest)) := by
    simp [quoted]
  rw [hquoted, scan_quoted, hb _ rest hrest]
  simp

theorem scan_number {literal : List Char} {token : Token} (hne : literal ≠ [])
    (hall : ∀ c ∈ literal, isNumeric c = true) (h : number? literal = some token)
    (read : List Token) {rest : List Char} (hrest : Ends rest) :
    scan read (literal ++ rest) = scan (token :: read) rest := by
  obtain ⟨c, more, rfl⟩ := List.exists_cons_of_ne_nil hne
  have hc := hall c List.mem_cons_self
  have hmore : ∀ d ∈ more, isNumeric d = true := fun d hd => hall d (List.mem_cons_of_mem c hd)
  have hstop : rest.takeWhile isNumeric = [] ∧ rest.dropWhile isNumeric = rest := by
    cases rest with
    | nil => exact ⟨rfl, rfl⟩
    | cons d rest => simp [hrest d rfl]
  have htake : (more ++ rest).takeWhile isNumeric = more := by
    rw [List.takeWhile_append_of_pos hmore, hstop.1, List.append_nil]
  have hdrop : (more ++ rest).dropWhile isNumeric = rest := by
    rw [List.dropWhile_append_of_pos hmore, hstop.2]
  have hblank : isBlank c = false := by
    by_contra hblank
    rw [isNumeric_of_isBlank (Bool.not_eq_false _ ▸ hblank)] at hc
    cases hc
  rw [List.cons_append, scan]
  · simp [hblank, hc, htake, hdrop, h]
  -- no other token begins with a character of a number
  all_goals
    intros
    subst_vars
    exact absurd hc (by decide)

theorem number?_digits (n : Nat) : number? (Numeral.digits 10 n) = some (.natural n) := by
  have hdigit : ∀ d < 10, (Nat.digitChar d).isDigit = true := by decide
  have hall : (Numeral.digits 10 n).all Char.isDigit = true := by
    rw [List.all_eq_true]
    intro c hc
    obtain ⟨d, hd, rfl⟩ := Numeral.mem_digits (by decide) hc
    exact hdigit d hd
  have hwhole : isWhole (Numeral.digits 10 n) = true := by
    unfold isWhole isDigits
    rw [hall]
    by_cases hn : n = 0
    · subst hn
      decide +kernel
    · simp [Numeral.head?_digits (show 2 ≤ 10 by decide) (by decide) hn, Numeral.digits_ne_nil]
  unfold number?
  rw [if_pos hwhole, Numeral.value?_digits (by decide) (by decide), Option.map_some]

theorem scans_natural (n : Nat) : Scans (Numeral.digits 10 n) [.natural n] := by
  have hdigit : ∀ d < 10, isNumeric (Nat.digitChar d) = true := by decide
  intro read rest hrest
  refine scan_number (Numeral.digits_ne_nil 10 n) ?_ (number?_digits n) read hrest
  intro c hc
  obtain ⟨d, hd, rfl⟩ := Numeral.mem_digits (by decide) hc
  exact hdigit d hd

/-! ## Scanning what was written -/

theorem tokensOf_object (fields : List (String × Data)) :
    tokensOf (.object fields) = .openRecord ::
      tokensOfFields (fields.map fun (name, value) => (.plain name, value)) ++ [.closeRecord] := by
  rw [Data.object, tokensOf]

theorem scans_compactItems {items : List Data}
    (h : ∀ item ∈ items, Scans (compact item) (tokensOf item)) :
    Scans (compactItems items) (tokensOfItems items) := by
  induction items with
  | nil => exact scans_nil
  | cons item more ih =>
    have hitem := h item List.mem_cons_self
    have hmore := ih fun other hother => h other (List.mem_cons_of_mem item hother)
    cases more with
    | nil => exact hitem
    | cons next more => exact scans_append hitem (scans_mark rfl hmore) (ends_cons rfl _)

theorem scans_compactFields {fields : List (String × Data)}
    (h : ∀ field ∈ fields, Scans (compact field.2) (tokensOf field.2)) :
    Scans (compactFields (fields.map fun (name, value) => (.plain name, value)))
      (tokensOfFields (fields.map fun (name, value) => (.plain name, value))) := by
  induction fields with
  | nil => exact scans_nil
  | cons field more ih =>
    obtain ⟨name, value⟩ := field
    have hvalue := h (name, value) List.mem_cons_self
    have hmore := ih fun other hother => h other (List.mem_cons_of_mem _ hother)
    cases more with
    | nil => exact scans_quoted name (scans_mark rfl hvalue)
    | cons next more =>
      exact scans_append (scans_quoted name (scans_mark rfl hvalue)) (scans_mark rfl hmore)
        (ends_cons rfl _)

theorem scans_compact {levels : Nat} {data : Data} (h : data.Plain levels) : Scans (compact data) (tokensOf data) := by
  induction h with
  | null =>
    intro read rest _
    simp [compact, tokensOf, scan]
  | bool value =>
    intro read rest _
    cases value <;> simp [compact, tokensOf, scan]
  | word value => exact scans_natural value.toNat
  | string value =>
    have hquoted := scans_quoted value scans_nil
    rwa [List.append_nil] at hquoted
  | list _ ih =>
    exact scans_mark rfl (scans_append (scans_compactItems ih) (scans_mark rfl scans_nil)
      (ends_cons rfl _))
  | object _ _ ih =>
    rw [tokensOf_object]
    exact scans_mark rfl (scans_append (scans_compactFields ih) (scans_mark rfl scans_nil)
      (ends_cons rfl _))

theorem scans_spreadItems (level : Nat) {items : List Data}
    (h : ∀ item ∈ items, ∀ level, Scans (spread level item) (tokensOf item)) :
    Scans (spreadItems level items) (tokensOfItems items) := by
  induction items with
  | nil => exact scans_nil
  | cons item more ih =>
    have hitem := scans_blanks (isBlank_newline level) (h item List.mem_cons_self level)
    have hmore := ih fun other hother => h other (List.mem_cons_of_mem item hother)
    cases more with
    | nil => exact hitem
    | cons next more => exact scans_append hitem (scans_mark rfl hmore) (ends_cons rfl _)

theorem scans_spreadFields (level : Nat) {fields : List (String × Data)}
    (h : ∀ field ∈ fields, ∀ level, Scans (spread level field.2) (tokensOf field.2)) :
    Scans (spreadFields level (fields.map fun (name, value) => (.plain name, value)))
      (tokensOfFields (fields.map fun (name, value) => (.plain name, value))) := by
  induction fields with
  | nil => exact scans_nil
  | cons field more ih =>
    obtain ⟨name, value⟩ := field
    have hvalue := h (name, value) List.mem_cons_self level
    have hmore := ih fun other hother => h other (List.mem_cons_of_mem _ hother)
    have hspace := scans_blanks isBlank_space hvalue
    have hfield := scans_quoted name (scans_mark (show mark? ':' = some .colon from rfl) hspace)
    have hline := scans_blanks (isBlank_newline level) hfield
    rw [← List.append_assoc] at hline
    cases more with
    | nil => exact hline
    | cons next more => exact scans_append hline (scans_mark rfl hmore) (ends_cons rfl _)

/-- What stands between two marks may be followed by a new line before the second one. -/
theorem scans_block {first last : Char} {s t : Token} (hfirst : mark? first = some s)
    (hlast : mark? last = some t) {body : List Char} {tokens : List Token}
    (hbody : Scans body tokens) (level : Nat) :
    Scans (first :: body ++ newline level ++ [last]) (s :: tokens ++ [t]) := by
  rw [List.append_assoc]
  exact scans_mark hfirst (scans_append hbody
    (scans_blanks (isBlank_newline level) (scans_mark hlast scans_nil)) (ends_newline level _))

theorem scans_spread {levels : Nat} {data : Data} (h : data.Plain levels) :
    ∀ level, Scans (spread level data) (tokensOf data) := by
  induction h with
  | @null levels => exact fun _ => scans_compact (@Data.Plain.null levels)
  | @bool levels value => exact fun _ => scans_compact (@Data.Plain.bool levels value)
  | @word levels value => exact fun _ => scans_compact (@Data.Plain.word levels value)
  | @string levels value => exact fun _ => scans_compact (@Data.Plain.string levels value)
  | @list _ items hitems ih =>
    intro level
    cases items with
    | nil => exact scans_compact (.list hitems)
    | cons item more => exact scans_block rfl rfl (scans_spreadItems (level + 1) ih) level
  | @object _ fields hnames hfields ih =>
    intro level
    cases fields with
    | nil => exact scans_compact (.object hnames hfields)
    | cons field more =>
      rw [tokensOf_object]
      exact scans_block rfl rfl (scans_spreadFields (level + 1) ih) level

/-! ## Reading tokens -/

/-- What is read from the tokens of data, whatever is open around it, is the data. -/
def Reads (data : Data) : Prop :=
  ∀ stack rest, readValue stack (tokensOf data ++ rest) = readAfter data stack rest

/-- No value begins where a list is closed. -/
theorem tokensOf_ne_closeList (data : Data) (rest more : List Token) :
    tokensOf data ++ rest ≠ .closeList :: more := by
  cases data <;> simp [tokensOf]

theorem tokensOfItems_ne_closeList (item : Data) (more : List Data) (rest after : List Token) :
    tokensOfItems (item :: more) ++ rest ≠ .closeList :: after := by
  cases more with
  | nil => exact tokensOf_ne_closeList item rest after
  | cons next more =>
    rw [tokensOfItems, List.append_assoc]
    · exact tokensOf_ne_closeList item _ after
    · exact List.cons_ne_nil next more

theorem readValue_items {item : Data} {more : List Data}
    (h : ∀ other ∈ item :: more, Reads other) (done : List Data) (stack : List Opened)
    (rest : List Token) :
    readValue (.list done :: stack) (tokensOfItems (item :: more) ++ .closeList :: rest) =
      readAfter (.list (done.reverse ++ item :: more)) stack rest := by
  induction more generalizing item done with
  | nil =>
    rw [tokensOfItems, h item List.mem_cons_self, readAfter]
    simp
  | cons next more ih =>
    have hmore := ih (fun other hother => h other (List.mem_cons_of_mem item hother)) (item :: done)
    have htokens : tokensOfItems (item :: next :: more) ++ .closeList :: rest =
        tokensOf item ++ .comma :: (tokensOfItems (next :: more) ++ .closeList :: rest) := by
      rw [tokensOfItems, List.append_assoc, List.cons_append]
      simp
    rw [htokens, h item List.mem_cons_self, readAfter, hmore]
    simp

theorem exists_tokensOfFields (name : Literal) (value : Data) (more : List (Literal × Data)) :
    ∃ tokens, tokensOfFields ((name, value) :: more) = .text name :: .colon :: tokens := by
  cases more with
  | nil => exact ⟨_, rfl⟩
  | cons next more => exact ⟨_, rfl⟩

theorem readValue_fields {name : Literal} {value : Data} {more : List (Literal × Data)}
    (h : ∀ field ∈ (name, value) :: more, Reads field.2) {tokens : List Token}
    (htokens : tokensOfFields ((name, value) :: more) = .text name :: .colon :: tokens)
    (done : List (Literal × Data)) (stack : List Opened) (rest : List Token) :
    readValue (.record done name :: stack) (tokens ++ .closeRecord :: rest) =
      readAfter (.record (done.reverse ++ (name, value) :: more)) stack rest := by
  have hvalue : Reads value := h (name, value) List.mem_cons_self
  induction more generalizing name value done tokens with
  | nil =>
    obtain rfl : tokensOf value = tokens := by
      simpa [tokensOfFields] using htokens
    rw [hvalue, readAfter]
    simp
  | cons next more ih =>
    obtain ⟨name', value'⟩ := next
    obtain ⟨tokens', htokens'⟩ := exists_tokensOfFields name' value' more
    obtain rfl : tokensOf value ++ .comma :: .text name' :: .colon :: tokens' = tokens := by
      simpa [tokensOfFields, htokens'] using htokens
    have htail := fun field hfield => h field (List.mem_cons_of_mem (name, value) hfield)
    have hmore := ih htail htokens' ((name, value) :: done) (htail _ List.mem_cons_self)
    rw [List.append_assoc, hvalue, List.cons_append, List.cons_append, List.cons_append, readAfter,
      hmore]
    simp

theorem reads_of_plain {levels : Nat} {data : Data} (h : data.Plain levels) : Reads data := by
  induction h with
  | null =>
    intro stack rest
    simp [tokensOf, readValue]
  | bool value =>
    intro stack rest
    simp [tokensOf, readValue]
  | word value =>
    intro stack rest
    simp [Data.word, tokensOf, readValue]
  | string value =>
    intro stack rest
    simp [Data.string, tokensOf, readValue]
  | @list _ items _ ih =>
    intro stack rest
    cases items with
    | nil => simp [tokensOf, tokensOfItems, readValue]
    | cons item more =>
      have htokens : tokensOf (.list (item :: more)) ++ rest =
          .openList :: (tokensOfItems (item :: more) ++ .closeList :: rest) := by
        rw [tokensOf, List.append_assoc]
        rfl
      rw [htokens, readValue, readValue_items ih]
      · rfl
      · exact fun rest' => tokensOfItems_ne_closeList item more _ rest'
  | @object _ fields _ _ ih =>
    intro stack rest
    cases fields with
    | nil => simp [Data.object, tokensOf, tokensOfFields, readValue]
    | cons field more =>
      obtain ⟨tokens, htokens⟩ := exists_tokensOfFields (.plain field.1) field.2
        (more.map fun (name, value) => (.plain name, value))
      have hrecord : tokensOf (.object (field :: more)) ++ rest =
          .openRecord :: .text (.plain field.1) :: .colon :: (tokens ++ .closeRecord :: rest) := by
        rw [tokensOf_object, List.map_cons, htokens]
        simp
      rw [hrecord, readValue, readValue_fields _ htokens]
      · rfl
      · intro entry hentry
        rw [← List.map_cons (f := fun field : String × Data => (Literal.plain field.1, field.2))]
          at hentry
        obtain ⟨entry', hmem, rfl⟩ := List.mem_map.mp hentry
        exact ih entry' hmem

/-! ## The laws -/

theorem read?_of_scans {data : Data} {text : List Char} (hscans : Scans text (tokensOf data))
    (hreads : Reads data) : read? (String.ofList text) = some data := by
  have htokens : tokens? (String.ofList text) = some (tokensOf data) := by
    have hscan := hscans [] [] ends_nil
    rw [List.append_nil, List.append_nil, scan, List.reverse_reverse] at hscan
    rw [tokens?, String.toList_ofList, hscan]
  have hread := hreads [] []
  rw [List.append_nil, readAfter] at hread
  rw [read?, htokens, Option.bind_some, hread]

/-- Data is read back from the document that has it on one line. -/
theorem read?_write {levels : Nat} {data : Data} (h : data.Plain levels) :
    read? (write data) = some data :=
  read?_of_scans (scans_compact h) (reads_of_plain h)

/-- Data is read back from the document that has it on many lines. -/
theorem read?_writeLines {levels : Nat} {data : Data} (h : data.Plain levels) :
    read? (writeLines data) = some data :=
  read?_of_scans (scans_spread h 0) (reads_of_plain h)

theorem faithful_oneLine : oneLine.Faithful := fun _ => read?_write

theorem faithful_manyLines : manyLines.Faithful := fun _ => read?_writeLines

end Json

end HeapRetention
