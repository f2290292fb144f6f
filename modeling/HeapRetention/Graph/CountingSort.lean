-- The laws of compressed rows. The offsets count the items of all places
-- before, so the rows stand one behind another. While they are filled, each
-- row begins with the entries that have come so far, and no store reaches
-- into another row or past the end.
import HeapRetention.Graph.CompressedRows

namespace HeapRetention

namespace CompressedRows

variable {places : Nat} {items : List (Nat × Nat)}

/-! ## Rows of a list of items -/

/-- The entries of the items of a place. -/
def entriesOf (items : List (Nat × Nat)) (place : Nat) : List Nat :=
  (items.filter (·.2 = place)).map (·.1)

/-- The number of items of the places before a place. -/
def beginning (items : List (Nat × Nat)) (place : Nat) : Nat := items.countP (·.2 < place)

theorem entriesOf_concat (items : List (Nat × Nat)) (item : Nat × Nat) (place : Nat) :
    entriesOf (items ++ [item]) place =
      if item.2 = place then entriesOf items place ++ [item.1] else entriesOf items place := by
  unfold entriesOf
  split
  · simp_all
  · simp_all

theorem beginning_succ (items : List (Nat × Nat)) (place : Nat) :
    beginning items (place + 1) = beginning items place + (entriesOf items place).length := by
  unfold beginning entriesOf
  rw [List.length_map, ← List.countP_eq_length_filter]
  induction items with
  | nil => rfl
  | cons item rest ih =>
    simp only [List.countP_cons, ih, decide_eq_true_eq]
    split <;> split <;> split <;> omega

theorem beginning_mono (items : List (Nat × Nat)) {i j : Nat} (h : i ≤ j) :
    beginning items i ≤ beginning items j := by
  apply List.countP_mono_left
  intro item _ hlt
  simp only [decide_eq_true_eq] at hlt ⊢
  omega

/-- A row ends before the next rows begin. -/
theorem row_end_le (items : List (Nat × Nat)) {i j : Nat} (h : i < j) :
    beginning items i + (entriesOf items i).length ≤ beginning items j := by
  rw [← beginning_succ]
  exact beginning_mono items h

theorem beginning_eq_length (hin : ∀ item ∈ items, item.2 < places) :
    beginning items places = items.length := by
  apply List.countP_eq_length.mpr
  simpa using hin

/-- The rows do not overlap. -/
theorem place_unique {i j k l : Nat} (hk : k < (entriesOf items i).length)
    (hl : l < (entriesOf items j).length) (heq : beginning items i + k = beginning items j + l) :
    i = j := by
  rcases Nat.lt_trichotomy i j with hlt | hsame | hgt
  · have := row_end_le items hlt
    omega
  · exact hsame
  · have := row_end_le items hgt
    omega

/-! ## Offsets -/

theorem getElem?_foldl_count (items : List (Nat × Nat)) (start : Array Nat) (i : Nat) :
    (items.foldl (fun counts item => counts.modify (item.2 + 1) (· + 1)) start)[i]? =
      start[i]?.map (· + items.countP (·.2 + 1 = i)) := by
  induction items generalizing start with
  | nil => simp
  | cons item rest ih =>
    rw [List.foldl_cons, ih, Array.getElem?_modify, List.countP_cons]
    by_cases hi : item.2 + 1 = i
    · cases start[i]? <;> simp [hi]
      omega
    · simp [hi]

theorem getElem?_counts {i : Nat} (hi : i ≤ places) :
    (counts places items)[i]? = some (items.countP (·.2 + 1 = i)) := by
  have hroom : i < places + 1 := Nat.lt_succ_of_le hi
  simp [counts, getElem?_foldl_count, hroom]

theorem size_counts (places : Nat) (items : List (Nat × Nat)) :
    (counts places items).size = places + 1 := by
  have hfold : ∀ start : Array Nat,
      (items.foldl (fun counts item => counts.modify (item.2 + 1) (· + 1)) start).size =
        start.size := by
    induction items with
    | nil => exact fun _ => rfl
    | cons item rest ih =>
      intro start
      rw [List.foldl_cons, ih, Array.size_modify]
  rw [counts, hfold, Array.size_replicate]

theorem size_sums (places : Nat) (items : List (Nat × Nat)) (added : Nat) :
    (sums places items added).size = places + 1 := by
  unfold sums
  induction added with
  | zero => exact size_counts places items
  | succ added ih => simpa [List.range_succ, addOn] using ih

/-- The offsets up to the place that was reached are final, and behind it the counts stand. -/
theorem getElem?_sums {added : Nat} (hadded : added ≤ places) {i : Nat} (hi : i ≤ places) :
    (sums places items added)[i]? =
      some (if i ≤ added then beginning items i else items.countP (·.2 + 1 = i)) := by
  induction added generalizing i with
  | zero =>
    rw [sums, List.range_zero, List.foldl_nil, getElem?_counts hi]
    split
    · simp_all [beginning]
    · rfl
  | succ added ih =>
    have hstep : sums places items (added + 1) = addOn (sums places items added) added := by
      simp [sums, List.range_succ]
    have hsum : (sums places items added).getD added 0 = beginning items added := by
      simp [Array.getD_eq_getD_getElem?, ih (Nat.le_of_lt hadded) (Nat.le_of_lt hadded)]
    rw [hstep, addOn, hsum, Array.getElem?_modify, ih (Nat.le_of_lt hadded) hi]
    by_cases hnext : added + 1 = i
    · subst hnext
      have hnew : items.countP (·.2 + 1 = added + 1) = (entriesOf items added).length := by
        simp [entriesOf, List.countP_eq_length_filter]
      rw [if_pos rfl, if_neg (Nat.not_succ_le_self added), if_pos (Nat.le_refl _), hnew,
        beginning_succ]
      simp [Nat.add_comm]
    · grind

theorem getElem?_offsets {i : Nat} (hi : i ≤ places) :
    (sums places items places)[i]? = some (beginning items i) := by
  rw [getElem?_sums (Nat.le_refl _) hi, if_pos hi]

/-! ## Stores -/

/-- What holds of the rows between two stores: each row begins with the entries of its items among
those of `stored`. -/
structure Fills (places : Nat) (items stored : List (Nat × Nat)) (rows : FillingRows) : Prop where
  size_eq : rows.entries.size = items.length
  cursor : ∀ i < places,
    rows.cursors[i]? = some (beginning items i + (entriesOf stored i).length)
  entry : ∀ i < places, ∀ k < (entriesOf stored i).length,
    rows.entries[beginning items i + k]? = (entriesOf stored i)[k]?

theorem length_entriesOf_le {stored rest : List (Nat × Nat)} (hsplit : items = stored ++ rest)
    (i : Nat) : (entriesOf stored i).length ≤ (entriesOf items i).length := by
  simp [hsplit, entriesOf]

/-- An item that is still to be stored has a place left in the row of its place. -/
theorem length_entriesOf_lt {stored rest : List (Nat × Nat)} {item : Nat × Nat}
    (hsplit : items = stored ++ item :: rest) :
    (entriesOf stored item.2).length < (entriesOf items item.2).length := by
  simp [hsplit, entriesOf]

theorem cursor_lt (hin : ∀ item ∈ items, item.2 < places) {stored rest : List (Nat × Nat)}
    {item : Nat × Nat} (hsplit : items = stored ++ item :: rest) :
    beginning items item.2 + (entriesOf stored item.2).length < items.length := by
  have hplace : item.2 < places := hin item (by simp [hsplit])
  have hroom := length_entriesOf_lt hsplit
  have hend := row_end_le items hplace
  rw [beginning_eq_length hin] at hend
  omega

theorem fills_store (hin : ∀ item ∈ items, item.2 < places) {stored rest : List (Nat × Nat)}
    {item : Nat × Nat} (hsplit : items = stored ++ item :: rest) {rows : FillingRows}
    (h : Fills places items stored rows) :
    Fills places items (stored ++ [item]) (rows.store item) := by
  obtain ⟨entry, place⟩ := item
  obtain ⟨cursors, entries⟩ := rows
  obtain ⟨hsize, hcursor, hentry⟩ := h
  simp only at hsize hcursor hentry
  have hplace : place < places := hin (entry, place) (by simp [hsplit])
  have hroom : beginning items place + (entriesOf stored place).length < entries.size := by
    rw [hsize]
    exact cursor_lt hin hsplit
  have hat : cursors.getD place 0 =
      beginning items place + (entriesOf stored place).length := by
    simp [Array.getD_eq_getD_getElem?, hcursor place hplace]
  refine ⟨?_, ?_, ?_⟩
  · simpa [FillingRows.store] using hsize
  · intro i hi
    simp only [FillingRows.store, Array.getElem?_modify, hcursor i hi, entriesOf_concat]
    by_cases hrow : place = i
    · simp [hrow]
      omega
    · simp [hrow]
  · intro i hi k hk
    simp only [FillingRows.store, hat, Array.set!_eq_setIfInBounds,
      Array.getElem?_setIfInBounds]
    rw [entriesOf_concat] at hk ⊢
    by_cases hrow : place = i
    · subst hrow
      rw [if_pos rfl, List.length_append, List.length_singleton] at hk
      rw [if_pos rfl]
      by_cases hlast : k = (entriesOf stored place).length
      · simp [hlast, hroom]
      · have hold : k < (entriesOf stored place).length := by omega
        rw [if_neg (by omega), hentry place hi k hold, List.getElem?_append_left hold]
    · rw [if_neg hrow] at hk
      rw [if_neg hrow, if_neg, hentry i hi k hk]
      -- another row keeps its entries, because the rows do not overlap
      intro heq
      exact hrow (place_unique (length_entriesOf_lt hsplit)
        (Nat.lt_of_lt_of_le hk (length_entriesOf_le hsplit i)) heq)

/-- The rows stay filled in this way while more items are stored. -/
theorem fills_foldl (hin : ∀ item ∈ items, item.2 < places) {more stored rest : List (Nat × Nat)}
    (hsplit : items = stored ++ (more ++ rest)) {rows : FillingRows}
    (h : Fills places items stored rows) :
    Fills places items (stored ++ more) (more.foldl FillingRows.store rows) := by
  induction more generalizing stored rows with
  | nil => simpa using h
  | cons item more ih =>
    have hrest : items = stored ++ [item] ++ (more ++ rest) := by simpa using hsplit
    simpa using ih hrest (fills_store hin hsplit h)

theorem fills_nil (hin : ∀ item ∈ items, item.2 < places) :
    Fills places items [] (filling places (sums places items places) []) := by
  refine ⟨?_, ?_, ?_⟩
  · simp [filling, Array.getD_eq_getD_getElem?, getElem?_offsets, beginning_eq_length hin]
  · intro i hi
    simp [filling, getElem?_offsets (Nat.le_of_lt hi), entriesOf]
  · intro i _ k hk
    exact absurd hk (Nat.not_lt_zero k)

theorem fills_filling (hin : ∀ item ∈ items, item.2 < places) {stored : List (Nat × Nat)}
    (hstored : stored <+: items) :
    Fills places items stored (filling places (sums places items places) stored) := by
  obtain ⟨rest, rfl⟩ := hstored
  exact fills_foldl hin rfl (fills_nil hin)

/-! ## Rows -/

/-- The row of a place holds the entries of its items, in the order of the items. -/
theorem row_ofItems (hin : ∀ item ∈ items, item.2 < places) {i : Nat} (hi : i < places) :
    (ofItems places items).row i = entriesOf items i := by
  obtain ⟨hsize, _, hentry⟩ := fills_filling hin (List.prefix_refl items)
  have hend := row_end_le items hi
  rw [beginning_eq_length hin] at hend
  apply List.ext_getElem?
  intro k
  simp only [row, ofItems, Array.getD_eq_getD_getElem?, getElem?_offsets (Nat.le_of_lt hi),
    getElem?_offsets (Nat.succ_le_of_lt hi), Option.getD_some, Array.getElem?_toList,
    Array.getElem?_extract, hsize, beginning_succ]
  by_cases hk : k < (entriesOf items i).length
  · rw [if_pos (by omega), hentry i hi k hk]
  · rw [if_neg (by omega), List.getElem?_eq_none (Nat.not_lt.mp hk)]

/-- Past the last place all rows are empty. -/
theorem row_ofItems_of_le {i : Nat} (hi : places ≤ i) : (ofItems places items).row i = [] := by
  have hend : (sums places items places).getD (i + 1) 0 = 0 := by
    rw [Array.getD_eq_getD_getElem?, Array.getElem?_eq_none, Option.getD_none]
    rw [size_sums]
    omega
  simp [row, ofItems, hend]

theorem getElem?_offsets_ofItems {i : Nat} (hi : i ≤ places) :
    (ofItems places items).offsets[i]? = some (beginning items i) := getElem?_offsets hi

/-- No entry is lost and none is there twice. -/
theorem size_entries_ofItems (hin : ∀ item ∈ items, item.2 < places) :
    (ofItems places items).entries.size = items.length :=
  (fills_filling hin (List.prefix_refl items)).size_eq

theorem isTable_ofItems (hin : ∀ item ∈ items, item.2 < places) :
    (ofItems places items).IsTable places := by
  refine ⟨size_sums places items places, ?_, ?_⟩
  · intro place hplace
    simp only [Array.getD_eq_getD_getElem?, getElem?_offsets_ofItems hplace,
      getElem?_offsets_ofItems (Nat.le_of_lt hplace), Option.getD_some]
    exact beginning_mono items (Nat.le_succ place)
  · simp [Array.getD_eq_getD_getElem?, getElem?_offsets_ofItems, size_entries_ofItems hin,
      beginning_eq_length hin]

/-- The offsets tell the room that all items need. -/
theorem withRoom_length (hin : ∀ item ∈ items, item.2 < places) :
    withRoom items.length places items = ofItems places items := by
  simp [withRoom, ofItems, filling, Array.getD_eq_getD_getElem?, getElem?_offsets,
    beginning_eq_length hin]

/-! ## Rows of a table -/

section Table

variable {rows : CompressedRows} (h : rows.IsTable places)

include h

theorem offset_le_size {i : Nat} (hi : i ≤ places) : rows.offsets.getD i 0 ≤ rows.entries.size := by
  -- downwards from the last place
  obtain ⟨k, rfl⟩ := Nat.exists_eq_add_of_le hi
  induction k generalizing i with
  | zero => exact Nat.le_of_eq h.last_eq
  | succ k ih =>
    have hnext := ih (i := i + 1) (by rwa [Nat.add_right_comm, Nat.add_assoc]) (by omega)
    exact Nat.le_trans (h.rises i (by omega)) hnext

/-- The row of every place can be cut out. -/
theorem row?_of_isTable {i : Nat} (hi : i < places) : rows.row? i = some (rows.row i) := by
  have hfirst : rows.offsets[i]? = some (rows.offsets.getD i 0) := by
    simp [Array.getD_eq_getD_getElem?, h.size_eq, Nat.lt_succ_of_lt hi]
  have hnext : rows.offsets[i + 1]? = some (rows.offsets.getD (i + 1) 0) := by
    simp [Array.getD_eq_getD_getElem?, h.size_eq, hi]
  simp only [row?, hfirst, hnext, row]
  rw [if_pos ⟨h.rises i hi, offset_le_size h hi⟩]

/-- Past the last place there are no rows. -/
theorem row?_of_le {i : Nat} (hi : places ≤ i) : rows.row? i = none := by
  have hnext : rows.offsets[i + 1]? = none := by
    rw [Array.getElem?_eq_none]
    rw [h.size_eq]
    omega
  unfold row?
  rw [hnext]
  cases rows.offsets[i]? <;> rfl

end Table

/-! ## Bounds -/

/-- Every place that is looked at or written to lies in its array, at the moment when that
happens. -/
structure StaysInBounds (places : Nat) (items : List (Nat × Nat)) : Prop where
  /-- While the items are counted. -/
  counting : ∀ counted item rest, items = counted ++ item :: rest →
    item.2 + 1 < (counts places counted).size
  /-- While the counts are added up. -/
  adding : ∀ added < places, added + 1 < (sums places items added).size
  /-- When the room for the entries is taken. -/
  taking : (sums places items places)[places]? = some items.length
  /-- While the entries are stored. -/
  storing : ∀ stored item rest, items = stored ++ item :: rest →
    ∃ cursor, (filling places (sums places items places) stored).cursors[item.2]? = some cursor ∧
      cursor < (filling places (sums places items places) stored).entries.size
  /-- When a row is cut out. -/
  slicing : ∀ place < places, ∃ first next,
    (ofItems places items).offsets[place]? = some first ∧
      (ofItems places items).offsets[place + 1]? = some next ∧ first ≤ next ∧
      next ≤ (ofItems places items).entries.size

theorem staysInBounds (hin : ∀ item ∈ items, item.2 < places) : StaysInBounds places items := by
  have hall := beginning_eq_length hin
  refine ⟨?_, ?_, ?_, ?_, ?_⟩
  · intro counted item rest hsplit
    rw [size_counts]
    exact Nat.succ_lt_succ (hin item (by simp [hsplit]))
  · intro added hadded
    rw [size_sums]
    exact Nat.succ_lt_succ hadded
  · rw [getElem?_offsets (Nat.le_refl _), hall]
  · intro stored item rest hsplit
    have hplace : item.2 < places := hin item (by simp [hsplit])
    obtain ⟨hsize, hcursor, _⟩ := fills_filling hin ⟨item :: rest, hsplit.symm⟩
    refine ⟨_, hcursor item.2 hplace, ?_⟩
    rw [hsize]
    exact cursor_lt hin hsplit
  · intro place hplace
    refine ⟨_, _, getElem?_offsets (Nat.le_of_lt hplace), getElem?_offsets hplace,
      beginning_mono items (Nat.le_succ _), ?_⟩
    rw [size_entries_ofItems hin, ← hall]
    exact beginning_mono items hplace

end CompressedRows

end HeapRetention
